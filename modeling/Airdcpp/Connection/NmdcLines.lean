import Airdcpp.Util.Positions

/-!
# `Connection/NmdcLines` — what another client says

`UserConnection::onNmdcLine` takes the lines of another client apart that begin with a `$`.
-/

namespace Airdcpp

/-- What the listeners of a connection are told. -/
inductive NmdcConnectionEvent
  | myNick (nick : Str)
  | direction (direction number : Str)
  | fileNotAvailable
  | protocolError (text : Str)
  | getListLength
  | get (file : Str) (startPos : Int)
  | key (key : Str)
  | cLock (lock : Str)
  | send
  | maxedOut (text : Str)
  | supports (features : List Str)
  /-- `dispatch`: the line holds a command of ADC. -/
  | adc (line : Str)
  | listLength (length : Str)
deriving DecidableEq, Repr

namespace NmdcLines

def FILE_NOT_AVAILABLE : Str := str "File Not Available"

def onDirection (param : Str) : Option (List NmdcConnectionEvent) :=
  match find param (str " ") 0 with
  | none => some []
  | some x => do
    let direction ← substr param 0 x
    let number ← substrFrom param (x + 1)
    some [.direction direction number]

def onError (locale : Locale) (param : Str) : NmdcConnectionEvent :=
  if Util.stricmp locale (param.length + 1) param FILE_NOT_AVAILABLE = 0 ∨
      (rfindLast param (str " no more exists")).isSome then .fileNotAvailable
  else .protocolError param

def onGet (locale : Locale) (encoding param : Str) : Option (List NmdcConnectionEvent) :=
  match find param (str "$") 0 with
  | none => some []
  | some x => do
    let file ← substr param 0 x
    let startPos ← substrFrom param (x + 1)
    some [.get (Text.toUtf8 locale file encoding) (Util.toInt64 startPos - 1)]

def onLock (param : Str) : Option (List NmdcConnectionEvent) :=
  if param.isEmpty then some []
  else
    match find param (str " Pk=") 0 with
    | some x => (substr param 0 x).map fun lock => [.cLock lock]
    | none =>
      -- faulty clients
      match find param (str " ") 0 with
      | some x => (substr param 0 x).map fun lock => [.cLock lock]
      | none => some [.cLock param]

/-- The command of a line, and what follows the first space. -/
def splitLine (aLine : Str) : Option (Str × Str) :=
  match find aLine (str " ") 0 with
  | none => (substrFrom aLine 1).map fun cmd => (cmd, [])
  | some x => do
    let cmd ← substr aLine 1 (subSizeT x 1)
    let param ← substrFrom aLine (x + 1)
    some (cmd, param)

def onNmdcCommand (locale : Locale) (encoding aLine cmd param : Str) :
    Option (List NmdcConnectionEvent) :=
  if cmd = str "MyNick" then some (if param.isEmpty then [] else [.myNick param])
  else if cmd = str "Direction" then onDirection param
  else if cmd = str "Error" then some [onError locale param]
  else if cmd = str "GetListLen" then some [.getListLength]
  else if cmd = str "Get" then onGet locale encoding param
  else if cmd = str "Key" then some (if param.isEmpty then [] else [.key param])
  else if cmd = str "Lock" then onLock param
  else if cmd = str "Send" then some [.send]
  else if cmd = str "MaxedOut" then some [.maxedOut param]
  else if cmd = str "Supports" then
    some (if param.isEmpty then [] else [.supports (tokens param (str " ") false)])
  else if (str "ADC").isPrefixOf cmd then some [.adc aLine]
  else if cmd = str "ListLen" then some (if param.isEmpty then [] else [.listLength param])
  else some [.protocolError (str "Malformed data")]

def onNmdcLine (locale : Locale) (encoding aLine : Str) : Option (List NmdcConnectionEvent) := do
  let (cmd, param) ← splitLine aLine
  onNmdcCommand locale encoding aLine cmd param

/-! ## In range -/

variable {aLine cmd param encoding : Str} {locale : Locale}

theorem inRange_splitLine (h : aLine ≠ []) : InRange (splitLine aLine) := by
  have hpos : 1 ≤ aLine.length := List.length_pos_iff.mpr h
  rw [splitLine]
  cases hspace : find aLine (str " ") 0 with
  | none => exact (inRange_substrFrom hpos).map _
  | some x =>
    have hx := (find_le hspace).2
    refine (inRange_substr hpos).bind fun _ _ => ?_
    exact (inRange_substrFrom hx).bind fun _ _ => inRange_some _

theorem inRange_onDirection : InRange (onDirection param) := by
  rw [onDirection]
  cases hspace : find param (str " ") 0 with
  | none => exact inRange_some _
  | some x =>
    have hx := (find_le hspace).2
    refine (inRange_substr (Nat.zero_le _)).bind fun _ _ => ?_
    exact (inRange_substrFrom hx).bind fun _ _ => inRange_some _

theorem inRange_onGet : InRange (onGet locale encoding param) := by
  rw [onGet]
  cases hsep : find param (str "$") 0 with
  | none => exact inRange_some _
  | some x =>
    have hx := (find_le hsep).2
    refine (inRange_substr (Nat.zero_le _)).bind fun _ _ => ?_
    exact (inRange_substrFrom hx).bind fun _ _ => inRange_some _

theorem inRange_onLock : InRange (onLock param) := by
  rw [onLock]
  refine inRange_ite (fun _ => inRange_some _) fun _ => ?_
  cases find param (str " Pk=") 0 with
  | some x => exact (inRange_substr (Nat.zero_le _)).map _
  | none =>
    cases find param (str " ") 0 with
    | some x => exact (inRange_substr (Nat.zero_le _)).map _
    | none => exact inRange_some _

theorem inRange_onNmdcCommand : InRange (onNmdcCommand locale encoding aLine cmd param) := by
  rw [onNmdcCommand]
  refine inRange_ite (fun _ => inRange_some _) fun _ => ?_
  refine inRange_ite (fun _ => inRange_onDirection) fun _ => ?_
  refine inRange_ite (fun _ => inRange_some _) fun _ => ?_
  refine inRange_ite (fun _ => inRange_some _) fun _ => ?_
  refine inRange_ite (fun _ => inRange_onGet) fun _ => ?_
  refine inRange_ite (fun _ => inRange_some _) fun _ => ?_
  refine inRange_ite (fun _ => inRange_onLock) fun _ => ?_
  refine inRange_ite (fun _ => inRange_some _) fun _ => ?_
  refine inRange_ite (fun _ => inRange_some _) fun _ => ?_
  refine inRange_ite (fun _ => inRange_some _) fun _ => ?_
  refine inRange_ite (fun _ => inRange_some _) fun _ => ?_
  exact inRange_ite (fun _ => inRange_some _) fun _ => inRange_some _

/-- **No position in a line of another client is out of range.** -/
theorem inRange_onNmdcLine (h : aLine ≠ []) : InRange (onNmdcLine locale encoding aLine) :=
  (inRange_splitLine h).bind fun _ _ => inRange_onNmdcCommand

end NmdcLines
end Airdcpp
