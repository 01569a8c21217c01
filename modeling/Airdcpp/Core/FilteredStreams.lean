import Airdcpp.Core.InputStreams
import Airdcpp.Core.Streams
import Airdcpp.Lib.Loop

/-!
# `Core/FilteredStreams` — streams that pass their bytes through a filter

`FilteredInputStream` and `FilteredOutputStream` call the same filter on pieces whose ends are set
by whoever reads or writes and by the stream inside. What a piece gives depends on where it ends;
what all of them give must not.

A filter is a function of its state, of what it may consume and of the room for what it produces.
Those of the program are in libraries, so a filter is any that keeps a `Contract`: `total` is all
that it makes of an input, `accepts` says that it throws nothing on the way, and `ends` are the
inputs after which it reports the end by itself. The two streams signal the end of the input in
different ways, with no bytes and with a null pointer, and the filters do not answer both alike; the
contract is about one of them.

The loops of the source are `readRound`, `writeRound` and `flushRound`.
-/

namespace Airdcpp

/-- What a call of a filter leaves: its value, and the arguments it has changed. -/
structure Filtered (φ : Type) where
  more : Bool
  insize : Nat
  out : Str
  filter : φ

/-- `more = filter(in, insize, out, outsize)`; the input is `none` where the pointer is null. -/
structure Filter (φ : Type) where
  start : φ
  call : φ → Option Str → Nat → Except Exception (Filtered φ)

/-! ### `UnZFilter` -/

def Z_OK : Int := 0
def Z_STREAM_END : Int := 1
def Z_BUF_ERROR : Int := -5

def COMPRESSION_ERROR : Exception := { errorString := str "Error during compression" }

/-- What `inflate` leaves: its code, how much it has taken and given, and the `z_stream`. -/
structure Inflated (ζ : Type) where
  err : Int
  insize : Nat
  out : Str
  zs : ζ

/-- `UnZFilter` over `inflate(&zs, Z_NO_FLUSH)`. -/
def UnZFilter {ζ : Type} (inflate : ζ → Str → Nat → Inflated ζ) (zs : ζ) : Filter ζ where
  start := zs
  call zs i outsize :=
    if outsize = 0 then .ok ⟨false, (i.getD []).length, [], zs⟩
    else
      let y := inflate zs (i.getD []) outsize
      -- `Z_BUF_ERROR` is not an error when there is no more input
      if y.err = Z_OK ∨ y.err = Z_STREAM_END ∨ y.err = Z_BUF_ERROR ∧ i = none then
        .ok ⟨y.err = Z_OK, y.insize, y.out, y.zs⟩
      else .error COMPRESSION_ERROR

/-! ## Reading -/

/-- The stream a filtered one reads from: `read` gives any part of what is left, of any length that
    fits, but nothing only at the end; its second value is what has become of `len`. -/
structure Source (τ : Type) where
  read : τ → Nat → Str × Nat × τ
  left : τ → Str
  read_left : ∀ f n, (read f n).1 ++ left (read f n).2.2 = left f
  length_le : ∀ f n, (read f n).1.length ≤ n
  read_nil : ∀ f n, 0 < n → (read f n).1 = [] → left f = []

/-- The streams of files, buffers and limits, and what is granted to each of their reads. -/
def InputStream.source : Source ({ s : InputStream // s.Limits } × List Nat) where
  read f n :=
    let x := f.1.1.read n (f.2.headD 0)
    (x.1, x.1.length, (⟨x.2, (read_left f.1.2 n _).2.1⟩, f.2.tail))
  left f := f.1.1.left
  read_left f n := (InputStream.read_left f.1.2 n _).1
  length_le f n := (InputStream.read_left f.1.2 n _).2.2
  read_nil f _ hn h := InputStream.read_nil f.1.2 hn h

structure FilteredInputStream (φ τ : Type) where
  f : τ
  filter : φ
  buf : Str := []
  pos : Nat := 0
  valid : Nat := 0
  more : Bool := true

namespace FilteredInputStream

variable {φ τ : Type} (F : Filter φ) (S : Source τ)

def BUF_SIZE : Nat := 128 * 1024

/-- A stream that has just been opened. -/
def opened (f : τ) : FilteredInputStream φ τ where
  f := f
  filter := F.start

/-- The locals of `read`: `totalProduced` is the length of what is in `rbuf`. -/
structure Reading (φ τ : Type) extends FilteredInputStream φ τ where
  len : Nat
  totalRead : Nat := 0
  rbuf : Str := []

/-- What a `read` leaves: the bytes, `len` and the stream, or what the filter has thrown. -/
abbrev Answer (φ τ : Type) := Except Exception (Str × Nat × FilteredInputStream φ τ)

/-- The part of the round in front of the call of the filter. -/
def fill (r : Reading φ τ) : Reading φ τ :=
  if r.valid = 0 then
    let (x, curRead, f) := S.read r.f BUF_SIZE
    { r with f := f, buf := x, valid := x.length, totalRead := r.totalRead + curRead }
  else r

/-- What the filter is given. -/
def window (s : FilteredInputStream φ τ) : Str := (s.buf.drop s.pos).take (s.valid - s.pos)

def readRound (r : Reading φ τ) : Option (Answer φ τ ⊕ Reading φ τ) :=
  if r.more = true ∧ r.rbuf.length < r.len then
    let r := fill S r
    match F.call r.filter (some r.window) (r.len - r.rbuf.length) with
    | .error e => some (.inl (.error e))
    | .ok y =>
      let pos := r.pos + y.insize
      some (.inr { r with
        filter := y.filter
        more := y.more
        pos := if pos = r.valid then 0 else pos
        valid := if pos = r.valid then 0 else r.valid
        rbuf := r.rbuf ++ y.out })
  else some (.inl (.ok (r.rbuf, r.totalRead, r.toFilteredInputStream)))

/-- `read(rbuf, len)`, with `n` rounds at most. -/
def read (n : Nat) (s : FilteredInputStream φ τ) (len : Nat) : Option (Answer φ τ) :=
  Loop.run (readRound F S) n { s with len := len }

/-- Some reads, until one of them throws: what they have given. -/
def readAll (n : Nat) : FilteredInputStream φ τ → List Nat →
    Option (Except Exception (List Str × FilteredInputStream φ τ))
  | s, [] => some (.ok ([], s))
  | s, len :: lens =>
    match read F S n s len with
    | none => none
    | some (.error e) => some (.error e)
    | some (.ok (rbuf, _, s)) =>
      (readAll n s lens).map (Except.map fun x => (rbuf :: x.1, x.2))

end FilteredInputStream

/-! ## Writing -/

structure FilteredOutputStream (φ σ : Type) where
  f : σ
  filter : φ
  flushed : Bool := false
  more : Bool := true

namespace FilteredOutputStream

variable {φ σ : Type} (F : Filter φ) (os : OutputStream σ)

def BUF_SIZE : Nat := 128 * 1024

def afterFlush : Exception := { errorString := str "No filtered writes after flush" }
def garbage : Exception := { errorString := str "Garbage data after end of stream" }

/-- A stream that has just been opened. -/
def opened (f : σ) : FilteredOutputStream φ σ where
  f := f
  filter := F.start

/-- The value of a call or its exception, and the stream in either case. -/
abbrev Answer (φ σ : Type) := Except Exception Nat × FilteredOutputStream φ σ

/-- The locals of `write`: what is left to write, and what has been written. -/
structure Writing (φ σ : Type) extends FilteredOutputStream φ σ where
  wb : Str
  written : Nat := 0

def writeRound (w : Writing φ σ) : Option (Answer φ σ ⊕ Writing φ σ) :=
  if w.wb = [] then some (.inl (.ok w.written, w.toFilteredOutputStream))
  else
    match F.call w.filter (some w.wb) BUF_SIZE with
    | .error e => some (.inl (.error e, w.toFilteredOutputStream))
    | .ok y =>
      let (n, f) := os.write w.f y.out
      let s := { w.toFilteredOutputStream with f := f, filter := y.filter, more := y.more }
      let wb := w.wb.drop y.insize
      match n with
      | .error e => some (.inl (.error e, s))
      | .ok n =>
        if y.more = true then some (.inr { s with wb := wb, written := w.written + n })
        else if wb ≠ [] then some (.inl (.error garbage, s))
        else some (.inl (.ok (w.written + n), s))

/-- `write(wbuf, len)`, with `n` rounds at most. -/
def write (n : Nat) (s : FilteredOutputStream φ σ) (wbuf : Str) : Option (Answer φ σ) :=
  if s.flushed = true then some (.error afterFlush, s)
  else Loop.run (writeRound F os) n { s with wb := wbuf }

/-- The locals of `flushBuffers`. -/
structure Flushing (φ σ : Type) extends FilteredOutputStream φ σ where
  aForce : Bool
  written : Nat := 0

def flushRound (w : Flushing φ σ) : Option (Answer φ σ ⊕ Flushing φ σ) :=
  match F.call w.filter none BUF_SIZE with
  | .error e => some (.inl (.error e, w.toFilteredOutputStream))
  | .ok y =>
    let (n, f) := os.write w.f y.out
    let s := { w.toFilteredOutputStream with f := f, filter := y.filter, more := y.more }
    match n with
    | .error e => some (.inl (.error e, s))
    | .ok n =>
      if y.more = true then
        some (.inr { s with aForce := w.aForce, written := w.written + n })
      else
        let (k, f) := os.flushBuffers f w.aForce
        some (.inl (k.map (w.written + n + ·), { s with f := f }))

/-- `flushBuffers(aForce)`, with `n` rounds at most. -/
def flushBuffers (n : Nat) (s : FilteredOutputStream φ σ) (aForce : Bool) : Option (Answer φ σ) :=
  if s.flushed = true then some (.ok 0, s)
  else Loop.run (flushRound F os) n { s with flushed := true, aForce := aForce }

/-- Some writes, until one of them throws. -/
def writeAll (n : Nat) : FilteredOutputStream φ σ → List Str →
    Option (Except Exception Unit × FilteredOutputStream φ σ)
  | s, [] => some (.ok (), s)
  | s, wbuf :: wbufs =>
    match write F os n s wbuf with
    | none => none
    | some (.error e, s) => some (.error e, s)
    | some (.ok _, s) => writeAll n s wbufs

/-- Some writes, and `flushBuffers` after them unless one has thrown. -/
def writeAndFlush (n : Nat) (s : FilteredOutputStream φ σ) (wbufs : List Str) (aForce : Bool) :
    Option (Except Exception Unit × FilteredOutputStream φ σ) :=
  match writeAll F os n s wbufs with
  | none => none
  | some (.error e, s) => some (.error e, s)
  | some (.ok (), s) => (flushBuffers F os n s aForce).map fun x => (x.1.map fun _ => (), x.2)

end FilteredOutputStream

/-! ## The contract of a filter -/

namespace Filter

variable {φ : Type} {F : Filter φ} {eoi : Option Str} {total : Str → Str}
  {accepts ends : Str → Prop} {C P t : Str} {done : Bool} {s : φ}

/-- A filter at work: what it has taken and produced, and whether it knows that the input is over.
    `eoi` is how it is told. -/
inductive Runs (F : Filter φ) (eoi : Option Str) : Str → Str → Bool → φ → Prop
  | start : Runs F eoi [] [] false F.start
  | data {C P i : Str} {room : Nat} {s : φ} {y : Filtered φ} (h : Runs F eoi C P false s)
      (hi : i ≠ []) (hroom : 0 < room) (hy : F.call s (some i) room = .ok y)
      (hmore : y.more = true) : Runs F eoi (C ++ i.take y.insize) (P ++ y.out) false y.filter
  | finish {C P : Str} {done : Bool} {room : Nat} {s : φ} {y : Filtered φ}
      (h : Runs F eoi C P done s) (hroom : 0 < room) (hy : F.call s eoi room = .ok y)
      (hmore : y.more = true) : Runs F eoi C (P ++ y.out) true y.filter

/-- A filter that has reported the end does nothing but report it again, or throw. -/
def Spent (F : Filter φ) (s : φ) : Prop :=
  ∀ i room y, 0 < room → F.call s i room = .ok y → y.more = false ∧ y.insize = 0 ∧ y.out = []

/-- What a call with some input is allowed to do after `C` and `P`. -/
structure DataCall (F : Filter φ) (total : Str → Str) (ends : Str → Prop) (C P i : Str)
    (room : Nat) (y : Filtered φ) : Prop where
  insize_le : y.insize ≤ i.length
  out_le : y.out.length ≤ room
  progress : y.more = true → y.insize ≠ 0 ∨ y.out ≠ []
  /-- Nothing is taken from behind the end. -/
  within : ∀ C₀, ends C₀ → C₀ <+: C ++ i.take y.insize → C₀ = C ++ i.take y.insize
  ended : y.more = false →
    ends (C ++ i.take y.insize) ∧ P ++ y.out = total (C ++ i.take y.insize) ∧ F.Spent y.filter

/-- What a call at the end of the input `C` is allowed to do. -/
structure FinishCall (F : Filter φ) (total : Str → Str) (C P : Str) (room : Nat)
    (y : Filtered φ) : Prop where
  insize_eq : y.insize = 0
  out_le : y.out.length ≤ room
  progress : y.more = true → y.out ≠ []
  ended : y.more = false → P ++ y.out = total C

/-- **The contract of a filter**: it takes at most what it is given and produces at most what there
    is room for, makes progress or reports the end, and its output is a function of its input. -/
structure Contract (F : Filter φ) (eoi : Option Str) (total : Str → Str)
    (accepts ends : Str → Prop) : Prop where
  data : ∀ {C P i room s y}, F.Runs eoi C P false s → i ≠ [] → 0 < room →
    F.call s (some i) room = .ok y → F.DataCall total ends C P i room y
  finish : ∀ {C P done room s y}, F.Runs eoi C P done s → 0 < room →
    F.call s eoi room = .ok y → F.FinishCall total C P room y
  /-- What has been produced is the beginning of the output, whatever comes. -/
  produced : ∀ {C P s}, F.Runs eoi C P false s → ∀ t, P <+: total (C ++ t)
  produced_done : ∀ {C P s}, F.Runs eoi C P true s → P <+: total C
  /-- What stands behind the end is not looked at. -/
  total_ends : ∀ {C}, ends C → ∀ t, total (C ++ t) = total C
  /-- There is no end before an end. -/
  ends_first : ∀ {C C₀}, ends C → ends C₀ → C₀ <+: C → C₀ = C
  data_throws : ∀ {C P i room s e}, F.Runs eoi C P false s → i ≠ [] → 0 < room →
    F.call s (some i) room = .error e → ∀ t, ¬ accepts (C ++ i ++ t)
  finish_throws : ∀ {C P done room s e}, F.Runs eoi C P done s → 0 < room →
    F.call s eoi room = .error e → ¬ accepts C

/-- The filter has not gone past an end. -/
theorem Contract.within (c : F.Contract eoi total accepts ends) {done : Bool}
    (h : F.Runs eoi C P done s) {C₀ : Str} (hends : ends C₀) (hpre : C₀ <+: C) : C₀ = C := by
  induction h with
  | start => exact List.prefix_nil.mp hpre
  | data h hi hroom hy _ _ => exact (c.data h hi hroom hy).within C₀ hends hpre
  | finish _ _ _ _ ih => exact ih hpre

/-- What has been produced is the beginning of what the input gives, when that is at an end as soon
    as the filter has been told so. -/
theorem Contract.produced_prefix (c : F.Contract eoi total accepts ends) {done : Bool}
    (h : F.Runs eoi C P done s) (hrest : done = true → t = []) : P <+: total (C ++ t) := by
  cases done with
  | false => exact c.produced h t
  | true =>
    rw [hrest rfl, List.append_nil]
    exact c.produced_done h

end Filter

end Airdcpp
