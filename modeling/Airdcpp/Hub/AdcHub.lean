import Airdcpp.Lib.ListOps
import Airdcpp.Lib.Runs
import Airdcpp.Protocol.AdcCommand
import Airdcpp.Util.Encoder
import Airdcpp.Util.Strings

/-!
# `Hub/AdcHub` — the users of ADC hubs, and who is online

A hub tells of a user with `INF` commands and of his leaving with `QUI`. `AdcHub` keeps an
`OnlineUser` for each SID. `ClientManager` keeps the online users of all hubs in one multimap from
CIDs, and a `User` for each CID, whose flag `ONLINE` says whether there is an entry.

Objects have addresses. `Identity` is a map from two-byte names to values, where an empty value is
none. `int64_t` sums wrap around.
-/

namespace Airdcpp

/-- `CID(base32)` -/
def CID.ofBase32 (base32 : Str) : CID := TTHValue.ofBase32 (base32.takeWhile (· ≠ 0))

/-- `CID()` -/
def CID.zero : CID := Vector.replicate 24 0

namespace Hub

def int64 (i : Int) : Int := i.bmod (2 ^ 64)

structure OnlineUser where
  /-- `getUser()->getCID()` -/
  cid : CID := CID.zero
  hub : Nat := 0
  sid : SID := 0
  /-- `Identity::info` -/
  info : Str → Str := fun _ => []

namespace OnlineUser

def getBytesShared (info : Str → Str) : Int := Util.toInt64 (info (str "SS"))

def CT_HUB : Nat := 32

/-- `isClientType(CT_HUB) || isSet("HU")` -/
def isHub (info : Str → Str) : Bool :=
  ((Util.toInt (info (str "CT")) % 2 ^ 32).toNat &&& CT_HUB) == CT_HUB || info (str "HU") != []

end OnlineUser

structure AdcHub where
  /-- `SIDMap`, from SIDs to objects -/
  users : List (SID × Nat) := []
  availableBytes : Int := 0

structure ClientManager where
  hubs : Nat → AdcHub := fun _ => {}
  ous : Nat → OnlineUser := fun _ => {}
  nextAddress : Nat := 0
  /-- The values of the multimap. The key of a value is the CID of its user. -/
  onlineUsers : List Nat := []
  /-- `User::ONLINE` -/
  online : CID → Bool := fun _ => false
  /-- The objects that `UserConnected` was fired for -/
  connected : List Nat := []

namespace ClientManager

/-! ## `ClientManager` -/

def putOnline (s : ClientManager) (ou : Nat) : ClientManager :=
  { s with
    onlineUsers := ou :: s.onlineUsers
    online := Function.update s.online (s.ous ou).cid true
    connected := ou :: s.connected }

def putOffline (s : ClientManager) (ou : Nat) : ClientManager :=
  if ou ∈ s.onlineUsers then
    { s with
      onlineUsers := s.onlineUsers.erase ou
      online :=
        if s.onlineUsers.countP (fun ou2 => (s.ous ou2).cid == (s.ous ou).cid) = 1 then
          Function.update s.online (s.ous ou).cid false
        else s.online }
  else s

/-! ## `AdcHub` -/

def setHub (s : ClientManager) (hub : Nat) (h : AdcHub) : ClientManager :=
  { s with hubs := Function.update s.hubs hub h }

/-- `findUser(aSID)` -/
def findSID (s : ClientManager) (hub : Nat) (aSID : SID) : Option Nat :=
  (s.hubs hub).users.lookup aSID

/-- `findUser(aCID)` -/
def findCID (s : ClientManager) (hub : Nat) (aCID : CID) : Option Nat :=
  ((s.hubs hub).users.map Prod.snd).find? fun ou => (s.ous ou).cid == aCID

/-- A new object in `getUser`. -/
def emplaceUser (s : ClientManager) (hub : Nat) (aSID : SID) (aCID : CID) : ClientManager :=
  { s with
    ous := Function.update s.ous s.nextAddress { cid := aCID, hub, sid := aSID }
    hubs := Function.update s.hubs hub
      { s.hubs hub with users := (aSID, s.nextAddress) :: (s.hubs hub).users }
    nextAddress := s.nextAddress + 1 }

def getUser (s : ClientManager) (hub : Nat) (aSID : SID) (aCID : CID) : ClientManager × Nat :=
  match s.findSID hub aSID with
  | some ou => (s, ou)
  | none => (s.emplaceUser hub aSID aCID, s.nextAddress)

def putUser (s : ClientManager) (hub : Nat) (aSID : SID) : ClientManager :=
  match s.findSID hub aSID with
  | none => s
  | some ou =>
    let s' := s.setHub hub
      { users := (s.hubs hub).users.filter fun x => x.1 ≠ aSID
        availableBytes :=
          int64 ((s.hubs hub).availableBytes - OnlineUser.getBytesShared (s.ous ou).info) }
    -- `onUserDisconnected`
    if OnlineUser.isHub (s.ous ou).info then s' else s'.putOffline ou

def clearUsers (s : ClientManager) (hub : Nat) : ClientManager :=
  (s.hubs hub).users.foldl
    (fun s x => if x.1 ≠ AdcCommand.HUB_SID then s.putOffline x.2 else s) (s.setHub hub {})

/-- The user, and whether he is new. -/
def parseInfUser (s : ClientManager) (hub : Nat) (c : AdcCommand) :
    ClientManager × Option (Nat × Bool) :=
  match c.getParam (str "ID") 0 with
  | some cid =>
    match s.findCID hub (CID.ofBase32 cid) with
    | some u =>
      -- Same CID but different SID not allowed - buggy hub?
      if (s.ous u).sid ≠ c.«from» then (s, none) else (s, some (u, false))
    | none =>
      let got := s.getUser hub c.«from» (CID.ofBase32 cid)
      (got.1, some (got.2, true))
  | none =>
    if c.«from» = AdcCommand.HUB_SID then
      let got := s.getUser hub c.«from» CID.zero
      (got.1, some (got.2, false))
    else (s, (s.findSID hub c.«from»).map fun u => (u, false))

/-- One parameter in `updateInfUserProperties`. The supports and the flags of the `User` are not
    modelled. -/
def updateParam (x : Int × (Str → Str)) (p : Str) : Int × (Str → Str) :=
  if p.length < 2 then x
  else if p.take 2 = str "SS" then
    let info := Function.update x.2 (str "SS") (p.drop 2)
    (int64 (int64 (x.1 - OnlineUser.getBytesShared x.2) + OnlineUser.getBytesShared info), info)
  else if p.take 2 = str "SU" then x
  else (x.1, Function.update x.2 (p.take 2) (p.drop 2))

def updateInfUserProperties (s : ClientManager) (hub ou : Nat) (aParams : List Str) :
    ClientManager :=
  let updated := aParams.foldl updateParam ((s.hubs hub).availableBytes, (s.ous ou).info)
  { s with
    hubs := Function.update s.hubs hub { s.hubs hub with availableBytes := updated.1 }
    ous := Function.update s.ous ou { s.ous ou with info := updated.2 } }

def inf (s : ClientManager) (hub : Nat) (c : AdcCommand) : ClientManager :=
  if c.parameters = [] then s
  else
    match s.parseInfUser hub c with
    | (s, none) => s
    | (s, some (u, newUser)) =>
      let s := s.updateInfUserProperties hub u c.parameters
      if OnlineUser.isHub (s.ous u).info then s
      else if !newUser then s
      -- `onUserConnected`
      else s.putOnline u

def qui (s : ClientManager) (hub : Nat) (c : AdcCommand) : ClientManager :=
  s.putUser hub (AdcCommand.toSID (c.parameters.getD 0 []))

/-! ## Events -/

inductive Event
  | inf (hub : Nat) (c : AdcCommand)
  | qui (hub : Nat) (c : AdcCommand)
  | disconnected (hub : Nat)

def next (s : ClientManager) : Event → ClientManager
  | .inf hub c => s.inf hub c
  | .qui hub c => s.qui hub c
  | .disconnected hub => s.clearUsers hub

def system : Lib.System ClientManager Event where
  next := next
  allowed _ _ := True

instance (s : ClientManager) (e : Event) : Decidable (system.allowed s e) :=
  inferInstanceAs (Decidable True)

def Initial (s : ClientManager) : Prop := s = {}

end ClientManager
end Hub
end Airdcpp
