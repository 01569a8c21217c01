import Airdcpp.Core.Types
import Airdcpp.Lib.Loop

/-!
# `Connection/BufferedSocket` — the bytes of a socket as lines and data

`threadRead` takes what one read of the socket has put into `inbuf` and fires events: a `Line` for
what stands before a separator, `Data` for the bytes of a block whose length the listener has asked
for, and `ModeChange` at the end of such a block. The listener is a function of the event that says
what its state becomes and whether it has called `setDataMode`, which it may do in the middle of a
buffer that holds more lines.

The loops of the source are flattened: a `Reading` is where `threadRead` stands at the head of one
of them, and `round` is one turn. `l` holds the local variable of the loop over the lines while that
loop runs. The loop of `MODE_DATA` and the loop around it have the same condition and the first is
only left for the second when the mode has changed, so that both are the rounds without an `l`.
`MODE_ZPIPE`, which hands the bytes to zlib, is not modelled.
-/

namespace Airdcpp

inductive Modes
  | line
  | data
deriving DecidableEq, Repr

structure BufferedSocket where
  separator : UInt8
  mode : Modes := .line
  dataBytes : Int := 0
  rollback : Nat := 0
  line : Str := []
deriving DecidableEq, Repr

namespace BufferedSocket

def CONNECTION_CLOSED : Str := str "Connection closed"
def COMMAND_TOO_LONG : Str := str "Maximum command length exceeded"

/-- `BufferedSocketListener`. `Data` is given the address of a byte of the buffer, and a length. -/
inductive Event
  | line (aLine : Str)
  | modeChange
  | data (inbuf : Str) (bufpos : Int) (aLen : Nat)
deriving DecidableEq, Repr

/-- The new state of a listener, and the argument of `setDataMode` if it has called that. -/
abbrev Listener (σ : Type) := σ → Event → σ × Option Int

def setDataMode (s : BufferedSocket) (aBytes : Int) : BufferedSocket :=
  { s with mode := .data, dataBytes := aBytes }

/-- `static_cast<int>` -/
def toInt32 (n : Int) : Int := n.bmod (2 ^ 32)

/-- `static_cast<size_t>` -/
def toSizeT (n : Int) : Nat := (n % 2 ^ 64).toNat

/-- A socket and its listener. -/
structure Connection (σ : Type) where
  socket : BufferedSocket
  listener : σ

variable {σ : Type}

def fire (on : Listener σ) (c : Connection σ) (e : Event) : Connection σ where
  socket := (on c.listener e).2.elim c.socket c.socket.setDataMode
  listener := (on c.listener e).1

/-- `threadRead` at the head of one of its loops. -/
structure Reading (σ : Type) extends Connection σ where
  inbuf : Str
  total : Int
  bufpos : Int
  left : Int
  l : Option Str

/-- `while ((pos = l.find(separator)) != string::npos)` -/
def lineRound (on : Listener σ) (r : Reading σ) (l : Str) : Reading σ :=
  match l.idxOf? r.socket.separator with
  | none => { r with left := 0, socket := { r.socket with line := l }, l := none }
  | some pos =>
    -- check empty (only pipe) command and don't waste cpu with it
    let c := if 0 < pos then fire on r.toConnection (.line (l.take pos)) else r.toConnection
    let l := l.drop (pos + 1)
    let left := if (l.length : Int) < r.left then (l.length : Int) else r.left
    if c.socket.mode ≠ .line then
      -- we changed mode; remainder of l is invalid.
      { r with
        socket := { c.socket with line := [] }, listener := c.listener
        bufpos := r.total - left, left := left, l := none }
    else { r with toConnection := c, left := left, l := some l }

/-- Special to autodetect nmdc connections... -/
def detectSeparator (separator : UInt8) (inbuf : Str) : UInt8 :=
  if separator = 0 then
    if inbuf.getD 0 0 = chr '$' then chr '|' else chr '\n'
  else separator

/-- `case MODE_LINE`, before the loop -/
def enterLines (r : Reading σ) : Reading σ :=
  { r with
    socket := { r.socket with separator := detectSeparator r.socket.separator r.inbuf }
    l := some (r.socket.line ++ (r.inbuf.drop r.bufpos.toNat).take r.left.toNat) }

/-- `case MODE_DATA` -/
def dataRound (on : Listener σ) (r : Reading σ) : Reading σ :=
  if r.socket.dataBytes = -1 then
    let c := fire on r.toConnection (.data r.inbuf r.bufpos (toSizeT r.left))
    { r with
      socket := { c.socket with rollback := 0 }, listener := c.listener
      bufpos := r.bufpos + (r.left - c.socket.rollback), left := c.socket.rollback }
  else
    let high := toInt32 (min r.socket.dataBytes r.left)
    let c := fire on r.toConnection (.data r.inbuf r.bufpos (toSizeT high))
    let dataBytes := c.socket.dataBytes - high
    let c := { c with socket := { c.socket with dataBytes := dataBytes } }
    let c :=
      if dataBytes = 0 then
        fire on { c with socket := { c.socket with mode := .line } } .modeChange
      else c
    { r with toConnection := c, bufpos := r.bufpos + high, left := r.left - high }

def round (on : Listener σ) (r : Reading σ) : Option (Connection σ ⊕ Reading σ) :=
  match r.l with
  | some l => some (.inr (lineRound on r l))
  | none =>
    if 0 < r.left then
      match r.socket.mode with
      | .line => some (.inr (enterLines r))
      | .data => some (.inr (dataRound on r))
    else some (.inl r.toConnection)

/-- What `sock->read(&inbuf[0], inbuf.size())` has done: the buffer, whose size is an `int`, and how
    many bytes at its beginning are new; `-1` where there were none, `0` at the end. -/
structure SocketRead where
  inbuf : Str
  left : Int
  ge : -1 ≤ left
  le : left ≤ inbuf.length
  size : inbuf.length < 2 ^ 31

def SocketRead.bytes (read : SocketRead) : Str := read.inbuf.take read.left.toNat

def startReading (c : Connection σ) (read : SocketRead) : Reading σ where
  toConnection := c
  inbuf := read.inbuf
  total := read.left
  bufpos := 0
  left := read.left
  l := none

/-- What follows the loops. -/
def checkLength (maxCommandLength : Nat) (c : Connection σ) : Except Str (Connection σ) :=
  if c.socket.mode = .line ∧ maxCommandLength < c.socket.line.length then .error COMMAND_TOO_LONG
  else .ok c

/-- `threadRead` of a running connection, with `n` rounds at most. -/
def threadRead (n : Nat) (on : Listener σ) (maxCommandLength : Nat) (c : Connection σ)
    (read : SocketRead) : Option (Except Str (Connection σ)) :=
  if read.left = -1 then some (.ok c)
  else if read.left = 0 then some (.error CONNECTION_CLOSED)
  else (Loop.run (round on) n (startReading c read)).map (checkLength maxCommandLength)

/-- `threadRead` after each of some reads, none of which makes it throw. -/
inductive Receives (on : Listener σ) (maxCommandLength : Nat) :
    Connection σ → List SocketRead → Connection σ → Prop
  | nil (c : Connection σ) : Receives on maxCommandLength c [] c
  | cons {c c' c'' : Connection σ} {read : SocketRead} {reads : List SocketRead} (n : Nat)
      (h : threadRead n on maxCommandLength c read = some (.ok c'))
      (hs : Receives on maxCommandLength c' reads c'') :
      Receives on maxCommandLength c (read :: reads) c''

end BufferedSocket
end Airdcpp
