import Airdcpp.Core.Types
import Airdcpp.Lib.Runs

/-!
# `Transfer/UploadSlots` — the slots of an upload manager

The part of `UploadManager` that hands out slots and counts them. A connection holds one slot at
most: a `USERSLOT` it keeps, or a `FILESLOT` for one file, with the source that granted it. Users
with several connections (`isMCN`) take one slot together, whatever the number in `multiUploads`.

All counters but the ones in `multiUploads` are bytes, and they wrap around.
-/

namespace Airdcpp

/-- `TransferSlot::Type` -/
inductive SlotType
  | noSlot
  | fileSlot
  | userSlot
deriving DecidableEq, Repr

/-- The enumerator's value: a better type has a higher number. -/
def SlotType.toNat : SlotType → Nat
  | noSlot => 0
  | fileSlot => 1
  | userSlot => 2

structure TransferSlot where
  type : SlotType
  source : Str
deriving DecidableEq, Repr

def TransferSlot.toType : Option TransferSlot → SlotType
  | some aSlot => aSlot.type
  | none => .noSlot

/-- An upload connection; `token` tells it from the others. -/
structure UploadConnection where
  token : Nat
  user : UserPtr
  isMCN : Bool
  /-- `FLAG_SUPPORTS_MINISLOTS` -/
  supportsMinislots : Bool := false
  slot : Option TransferSlot := none
deriving DecidableEq, Repr

namespace UploadConnection

def getSlotType (c : UploadConnection) : SlotType := TransferSlot.toType c.slot

def hasSlot (c : UploadConnection) (aType : SlotType) (aSource : Str) : Bool :=
  c.slot.any fun slot => slot.type == aType && slot.source == aSource

def hasSlotSource (c : UploadConnection) (aSource : Str) : Bool :=
  c.slot.any fun slot => slot.source == aSource

end UploadConnection

structure UploadManager where
  connections : List UploadConnection := []
  multiUploads : List (UserPtr × UInt16) := []
  runningUsers : UInt8 := 0
  mcnConnections : UInt8 := 0
  smallFileConnections : UInt8 := 0
  extra : UInt8 := 0
deriving DecidableEq, Repr

/-- What a slot depends on besides the manager: the settings, the other managers and the parsed
    request. -/
structure SlotRequest where
  /-- `getSlots()` -/
  slots : UInt8
  /-- `queue->allowUser(aUser)` -/
  allowUser : Bool := true
  lowSpeedSlotsRemaining : Bool := false
  /-- `AutoLimitUtil::getSlotsPerUser(false)` -/
  slotsPerUser : Int := 0
  /-- `SETTING(EXTRA_SLOTS)` -/
  extraSlots : Int := 3
  isOP : Bool := false
  usesSmallSlot : Bool := false
  miniSlot : Bool := false
  /-- what the hooks grant, or that one of them rejects the request -/
  hooks : Option (List (Option TransferSlot)) := some []
  /-- the stream could be opened and the upload created -/
  created : Bool := true

namespace UploadManager

def SLOT_SOURCE_STANDARD : Str := str "standard"
def SLOT_SOURCE_MCN : Str := str "mcn_small"
def SLOT_SOURCE_MINISLOT : Str := str "minislot"

def getFreeSlots (s : UploadManager) (r : SlotRequest) : Nat :=
  r.slots.toNat - s.runningUsers.toNat

def getFreeExtraSlots (s : UploadManager) (r : SlotRequest) : Int :=
  max (r.extraSlots - s.extra.toNat) 0

def standardSlotsRemaining (s : UploadManager) (r : SlotRequest) : Bool :=
  (decide (0 < s.getFreeSlots r) && r.allowUser) || r.lowSpeedSlotsRemaining

/-- `max_element`: the first of the best. -/
def parseAutoGrant (data : List (Option TransferSlot)) : Option TransferSlot :=
  match data with
  | [] => none
  | slot :: data => data.foldl (fun a b =>
      if (TransferSlot.toType a).toNat < (TransferSlot.toType b).toNat then b else a) slot

def isUploadingMCN (s : UploadManager) (aUser : UserPtr) :
    Bool := (s.multiUploads.lookup aUser).isSome

def getFreeMultiConn (s : UploadManager) (r : SlotRequest) : Int :=
  r.slots.toNat - s.runningUsers.toNat - s.mcnConnections.toNat + s.multiUploads.length

def allowNewMultiConn (s : UploadManager) (aSource : UploadConnection) (r : SlotRequest) : Bool :=
  let u := aSource.user
  let highest := ((s.multiUploads.filter fun x => x.1 ≠ u).map fun x => x.2.toNat).foldl max 0
  match s.multiUploads.lookup u with
  | some currentUserConnCount =>
    let newUserConnCount := currentUserConnCount.toNat + 1
    let hasFreeMcnSlot := decide (0 < s.getFreeMultiConn r) && r.allowUser
    if decide (highest < newUserConnCount) && !hasFreeMcnSlot then false
    else !(decide (0 < r.slotsPerUser) && decide (r.slotsPerUser < newUserConnCount))
  | none => decide (0 < s.getFreeSlots r) && r.allowUser

def parseSlotHookedThrow (s : UploadManager) (aSource : UploadConnection) (r : SlotRequest) :
    Except Unit (Option TransferSlot) := do
  -- existing permanent slot?
  if aSource.getSlotType = .userSlot then return aSource.slot
  -- existing uploader and no new connections allowed?
  if !r.usesSmallSlot && s.isUploadingMCN aSource.user && !s.allowNewMultiConn aSource r then
    return none
  let some data := r.hooks | throw ()
  let newSlot := parseAutoGrant data
  -- small file slots are not for the hooks to override
  if aSource.isMCN && r.usesSmallSlot &&
      (aSource.hasSlot .fileSlot SLOT_SOURCE_MCN || decide (s.smallFileConnections ≤ 8)) then
    return some ⟨.fileSlot, SLOT_SOURCE_MCN⟩
  if TransferSlot.toType newSlot = .userSlot then return newSlot
  if s.standardSlotsRemaining r then return some ⟨.userSlot, SLOT_SOURCE_STANDARD⟩
  if newSlot.isNone && r.miniSlot && aSource.supportsMinislots &&
      (aSource.hasSlot .fileSlot SLOT_SOURCE_MINISLOT || r.isOP ||
        decide (0 < s.getFreeExtraSlots r)) then
    return some ⟨.fileSlot, SLOT_SOURCE_MINISLOT⟩
  return newSlot

def changeMultiConnSlot (s : UploadManager) (aUser : UserPtr) (aRemove : Bool) : UploadManager :=
  match s.multiUploads.lookup aUser with
  | some count =>
    if aRemove then
      let s := { s with mcnConnections := s.mcnConnections - 1 }
      if count - 1 = 0 then
        -- no uploads to this user, remove the reserved slot
        { s with
          multiUploads := s.multiUploads.filter fun x => x.1 ≠ aUser
          runningUsers := s.runningUsers - 1 }
      else
        { s with
          multiUploads := s.multiUploads.map fun x => if x.1 = aUser then (x.1, count - 1) else x }
    else
      { s with
        multiUploads := s.multiUploads.map fun x => if x.1 = aUser then (x.1, count + 1) else x
        mcnConnections := s.mcnConnections + 1 }
  | none =>
    if aRemove then s
    else
      { s with
        multiUploads := s.multiUploads ++ [(aUser, 1)]
        runningUsers := s.runningUsers + 1
        mcnConnections := s.mcnConnections + 1 }

def removeSlot (s : UploadManager) (aSource : UploadConnection) : UploadManager :=
  match aSource.getSlotType with
  | .userSlot =>
    if aSource.isMCN then s.changeMultiConnSlot aSource.user true
    else { s with runningUsers := s.runningUsers - 1 }
  | .fileSlot =>
    if aSource.hasSlotSource SLOT_SOURCE_MINISLOT then { s with extra := s.extra - 1 }
    else if aSource.hasSlotSource SLOT_SOURCE_MCN then
      { s with smallFileConnections := s.smallFileConnections - 1 }
    else s
  | .noSlot => s

/-- The second half of `updateSlotCounts`. -/
def addSlot (s : UploadManager) (aSource : UploadConnection) : UploadManager :=
  match aSource.getSlotType with
  | .userSlot =>
    if aSource.isMCN then s.changeMultiConnSlot aSource.user false
    else { s with runningUsers := s.runningUsers + 1 }
  | .fileSlot =>
    if aSource.hasSlotSource SLOT_SOURCE_MINISLOT then { s with extra := s.extra + 1 }
    else if aSource.hasSlotSource SLOT_SOURCE_MCN then
      { s with smallFileConnections := s.smallFileConnections + 1 }
    else s
  | .noSlot => s

/-- `aSource.setSlot(slot)` -/
def setSlot (s : UploadManager) (token : Nat) (slot : Option TransferSlot) : UploadManager :=
  { s with connections := s.connections.map fun c =>
      if c.token = token then { c with slot := slot } else c }

def updateSlotCounts (s : UploadManager) (aSource : UploadConnection) (aNewSlot : TransferSlot) :
    UploadManager :=
  if aSource.getSlotType = aNewSlot.type then s
  else
    let s := s.removeSlot aSource
    let s := s.setSlot aSource.token (some aNewSlot)
    s.addSlot { aSource with slot := some aNewSlot }

/-- The slot assignment of `prepareFile`. Without a slot the request ends in an error or in the
    upload queue, and nothing is counted. -/
def prepareFile (s : UploadManager) (aSource : UploadConnection) (r : SlotRequest) :
    UploadManager :=
  match s.parseSlotHookedThrow aSource r with
  | .ok (some slot) => if r.created then s.updateSlotCounts aSource slot else s
  | _ => s

def removeConnection (s : UploadManager) (aSource : UploadConnection) : UploadManager :=
  let s := (s.removeSlot aSource).setSlot aSource.token none
  { s with connections := s.connections.filter fun c => c.token ≠ aSource.token }

/-! ## Runs -/

inductive Op
  | addConnection (conn : UploadConnection)
  | prepareFile (token : Nat) (r : SlotRequest)
  | removeConnection (token : Nat)

def find (s : UploadManager) (token : Nat) : Option UploadConnection :=
  s.connections.find? fun c => c.token == token

def next (s : UploadManager) : Op → UploadManager
  | .addConnection conn => { s with connections := s.connections ++ [conn] }
  | .prepareFile token r => (s.find token).elim s fun c => s.prepareFile c r
  | .removeConnection token => (s.find token).elim s s.removeConnection

/-- A new connection has no slot yet, and is not one of the others. -/
def Allowed (s : UploadManager) : Op → Prop
  | .addConnection conn => conn.slot = none ∧ ∀ c ∈ s.connections, c.token ≠ conn.token
  | _ => True

def system : Lib.System UploadManager Op where
  next := next
  allowed := Allowed

def Initial (s : UploadManager) : Prop := s = {}

end UploadManager
end Airdcpp
