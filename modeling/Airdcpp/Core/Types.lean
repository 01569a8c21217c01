import Mathlib

/-!
# `Core/Types` — strings, flags, priorities and users

The small types every part of the queue is written with.

A `string` of the source is a sequence of bytes (`Str`), usually UTF-8; `str` writes one down
from a literal. Flag masks are 32-bit words. A `UserPtr` is the user's `CID`: the client
manager keeps one `User` object per CID for as long as anything refers to it, so comparing the
pointers and comparing the CIDs is the same.
-/

namespace Airdcpp

/-- `std::string` — bytes. -/
abbrev Str := List UInt8

/-- Bytes are compared as unsigned numbers, and strings with them (`string::compare`). -/
instance byteOrder : LinearOrder UInt8 where
  le_refl := UInt8.le_refl
  le_trans _ _ _ := UInt8.le_trans
  lt_iff_le_not_ge _ _ := by
    simp only [UInt8.lt_iff_toNat_lt, UInt8.le_iff_toNat_le]
    omega
  le_antisymm _ _ := UInt8.le_antisymm
  le_total := UInt8.le_total
  toDecidableLE := inferInstance

/-- The bytes of an ASCII literal. -/
def str (s : String) : Str := s.toList.map fun c => c.toNat.toUInt8

/-- The byte of an ASCII character. -/
def chr (c : Char) : UInt8 := c.toNat.toUInt8

/-- `CID`, and the digest of a hash tree (`TTHValue`): 192 bits. -/
abbrev CID := Vector UInt8 24
abbrev TTHValue := Vector UInt8 24

abbrev UserPtr := CID

/-- A user and the hub it was seen on. Two of them are the same when the users are:
    `operator==` ignores the hint. -/
structure HintedUser where
  user : UserPtr
  hint : Str
deriving DecidableEq, Repr

/-- `Exception`: the text for the user, and a code where the text is not enough. -/
structure Exception where
  errorString : Str
  errorCode : Int := 0
deriving DecidableEq, Repr

/-- `Exception::TTH_INCONSISTENCY` -/
def Exception.TTH_INCONSISTENCY : Int := 1

/-! ## `Flags` -/

/-- `Flags::MaskType` -/
abbrev MaskType := UInt32

def isSet (flags aFlag : MaskType) : Bool := flags &&& aFlag == aFlag
def setFlag (flags aFlag : MaskType) : MaskType := flags ||| aFlag
def unsetFlag (flags aFlag : MaskType) : MaskType := flags &&& ~~~aFlag

/-! ## `Priority` -/

/-- `enum class Priority`, without its end mark `LAST`. -/
inductive Priority
  | default
  | pausedForce
  | paused
  | lowest
  | low
  | normal
  | high
  | highest
deriving DecidableEq, Repr, Inhabited

namespace Priority

/-- The enumerator's value. -/
def toInt : Priority → Int
  | default => -1
  | pausedForce => 0
  | paused => 1
  | lowest => 2
  | low => 3
  | normal => 4
  | high => 5
  | highest => 6

/-- `static_cast<Priority>` of a value that is an enumerator's. -/
def ofInt? : Int → Option Priority
  | -1 => some default
  | 0 => some pausedForce
  | 1 => some paused
  | 2 => some lowest
  | 3 => some low
  | 4 => some normal
  | 5 => some high
  | 6 => some highest
  | _ => none

theorem ofInt?_toInt (p : Priority) : ofInt? p.toInt = some p := by cases p <;> rfl

/-- `PAUSED_FORCE .. HIGHEST`, the order in which `Bundle::getItems` walks the queues. -/
def all : List Priority := [pausedForce, paused, lowest, low, normal, high, highest]

end Priority

/-! ## Settings -/

/-- The settings the queue reads, with the defaults `SettingsManager` gives them. Sizes are in
    kibibytes. -/
structure Settings where
  prioHighestSize : Int := 64
  prioHighSize : Int := 0
  prioNormalSize : Int := 0
  prioLowSize : Int := 0
  prioLowest : Bool := false
  autoPriorityDefault : Bool := false
  segmentsManual : Bool := false
  numberOfSegments : Nat := 3

end Airdcpp
