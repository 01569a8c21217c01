import Airdcpp.Connection.ConnectionQueueItem
import Airdcpp.Lib.Keyed
import Airdcpp.Lib.Threads

/-!
# `Connection/McnConnections` — one more connection to a user

A user that supports several connections gets another download item when one of his connections
begins to run (`onDownloadRunning`) or a small slot fails unused (`failDownload`). Whether he may
have one is asked under the lock (`allowNewMCNUnsafe`); the item is created by `createNewMCN`, under
the lock again.

The sections below are what runs under one acquisition. The timer takes one item at a time under
the read lock, beside which other readers run, and removes items later. Tokens of new items, answers
of the other managers and ticks come in as `Answers`.
-/

namespace Airdcpp
namespace McnConnections

open ConnectionQueueItem (State)

/-- What a section learns from outside. -/
structure Answers where
  /-- `createToken` -/
  token : Str := []
  /-- `getSlotsPerUser(true)` -/
  maxOwnConns : Int := 0
  tick : Nat := 0
  /-- `startDownload`: `hasDownload` (for the type asked for, and for `ANY`), `downloadType` and
      whether there is a `slotType` -/
  hasDownload : Bool := true
  hasAnyDownload : Bool := true
  downloadType : QueueDownloadType := .any
  slotType : Bool := true
  /-- the loop of `attemptDownloads`, and `SETTING(DOWNCONN_PER_SEC)` -/
  attempts : Nat := 0
  attemptLimit : Nat := 0
  isOnline : Bool := true
  /-- a connection with the token exists -/
  isConnected : Bool := false
  /-- `ClientManager::connect`: no error, or whether it is a protocol error -/
  connectError : Option Bool := none

/-- `UserConnection`, as far as the download items are concerned. -/
structure Source where
  user : UserPtr
  connectToken : Str
  isMCN : Bool
deriving DecidableEq

/-- `ConnectionManager`: the download items. -/
structure Manager where
  downloads : List ConnectionQueueItem := []
  nextAddress : Nat := 0

/-- Where a thread is: the section that it runs next. -/
inductive Call
  | getDownloadConnection (aUser : UserPtr) (aSmallSlot : Bool)
  | onDownloadRunning (aSource : Source)
  | createNewMCN (aUser : UserPtr)
  | failDownload (aToken : Str) (aFatalError : Bool)
  | onIdle (aSource : Source)
  | addDownloadConnection (uc : Source)
  | attemptDownload (address : Nat)
  | removeDownload (token : Str)
deriving DecidableEq

/-! ## The functions under the lock -/

/-- The loop of `allowNewMCNUnsafe`. It ends early, and may have found an item waiting (the one the
    callback is called for), or it has counted. -/
def countMCN (aUser : UserPtr) (aSmallSlot : Bool) : List ConnectionQueueItem →
    (runningNormal : Nat) → (supportMcn : Bool) → Except (Option Nat) (Nat × Bool)
  | [], runningNormal, supportMcn => .ok (runningNormal, supportMcn)
  | cqi :: rest, runningNormal, supportMcn =>
    if cqi.user ≠ aUser then countMCN aUser aSmallSlot rest runningNormal supportMcn
    else if !cqi.mcn then
      -- We already have a connection, no need to continue
      .error none
    else
      match cqi.downloadType with
      | .mcnNormal =>
        if cqi.running then countMCN aUser aSmallSlot rest (runningNormal + 1) true
        else if aSmallSlot then countMCN aUser aSmallSlot rest runningNormal true
        else .error (some cqi.address)
      | .small =>
        if aSmallSlot then .error (if cqi.running then none else some cqi.address)
        else countMCN aUser aSmallSlot rest runningNormal true
      | .any => countMCN aUser aSmallSlot rest runningNormal true

/-- The limits asked after the loop are those of the last item, of whichever user. -/
def allowNewMCNUnsafe (downloads : List ConnectionQueueItem) (maxOwnConns : Int) (aUser : UserPtr)
    (aSmallSlot : Bool) : Bool × Option Nat :=
  match countMCN aUser aSmallSlot downloads 0 false with
  | .error waiting => (false, waiting)
  | .ok (runningNormal, supportMcn) =>
    match downloads.getLast? with
    | none => (true, none)
    | some cqi =>
      (!(supportMcn && !aSmallSlot && !cqi.allowNewConnections maxOwnConns runningNormal), none)

/-- `getCQIUnsafe(aUser, CONNECTION_TYPE_DOWNLOAD)`, and what is set right after it. -/
def Manager.getCQI (m : Manager) (aUser : UserPtr) (token : Str)
    (set : ConnectionQueueItem → ConnectionQueueItem) : Manager where
  downloads := m.downloads ++
    [set { address := m.nextAddress, user := aUser, connType := .download, token := token }]
  nextAddress := m.nextAddress + 1

def Manager.modify (m : Manager) (address : Nat) (f : ConnectionQueueItem → ConnectionQueueItem) :
    Manager :=
  { m with downloads := Lib.Keyed.modify ConnectionQueueItem.address address f m.downloads }

/-- `putCQIUnsafe` -/
def Manager.putCQI (m : Manager) (address : Nat) : Manager :=
  { m with downloads := Lib.Keyed.remove ConnectionQueueItem.address address m.downloads }

/-- Token may not be synced for NMDC users. -/
def Manager.findDownload (m : Manager) (aSource : Source) : Option ConnectionQueueItem :=
  if aSource.isMCN then m.downloads.find? fun c => c.token == aSource.connectToken
  else m.downloads.find? fun c => c.user == aSource.user

/-- The item that `removeExtraMCNUnsafe` removes. -/
def findExtra (downloads : List ConnectionQueueItem) (aFailedCQI : ConnectionQueueItem) :
    Option ConnectionQueueItem :=
  if !aFailedCQI.mcn then none
  else if aFailedCQI.downloadType ≠ .mcnNormal then none
  else downloads.find? fun c => c.user == aFailedCQI.user && !c.isSmallSlot && !c.isActive &&
    c.address != aFailedCQI.address

def Manager.removeExtraMCN (m : Manager) (aFailedCQI : ConnectionQueueItem) : Manager :=
  match findExtra m.downloads aFailedCQI with
  | none => m
  | some s => m.putCQI s.address

/-- The end of `failDownload`: the item waits for the next attempt. -/
def setFailed (aFatalError : Bool) (tick : Nat) (cqi : ConnectionQueueItem) :
    ConnectionQueueItem :=
  if cqi.state = .waiting then { cqi with running := false }
  else
    { cqi with
      state := .waiting
      errors := if aFatalError then -1 else cqi.errors + 1
      lastAttempt := tick
      running := false }

/-- What a connection makes of its item in `addDownloadConnection`. -/
def setConnected (isMCN : Bool) (cqi : ConnectionQueueItem) : ConnectionQueueItem :=
  if isMCN then
    { cqi with
      state := .active
      downloadType := if cqi.isSmallSlot then .small else .mcnNormal
      mcn := true }
  else { cqi with state := .active }

/-! ## The timer -/

/-- `attemptDownloadUnsafe` and `connectUnsafe`; the second part says whether the item is to be
    removed. -/
def attemptDownloadUnsafe (downloads : List ConnectionQueueItem) (x : Answers)
    (cqi : ConnectionQueueItem) : ConnectionQueueItem × Bool :=
  let alone := downloads.all fun c => c.address == cqi.address || c.user != cqi.user
  let started :=
    if !x.hasDownload && cqi.downloadType == .small && alone then
      -- The small file finished already? Try with any type
      ({ cqi with downloadType := .any }, x.hasAnyDownload)
    else if cqi.downloadType == .any && x.downloadType == .small &&
        (downloads.all fun c => !(c.user == cqi.user && cqi.isSmallSlot)) then
      -- a Small file has been added after the CQI was created
      ({ cqi with downloadType := .small }, x.hasDownload)
    else (cqi, x.hasDownload)
  if !started.2 then (started.1, true)
  else if cqi.state = .waiting ∨
      (cqi.lastAttempt = 0 ∧ cqi.state = .connecting ∧ x.isConnected = false) then
    if x.slotType then
      match x.connectError with
      | none => ({ started.1 with state := .connecting }, false)
      | some protocolError =>
        ({ started.1 with
          state := .waiting
          errors := if protocolError then -1 else cqi.errors + 1 }, false)
    else (started.1, false)
  else (started.1, false)

/-- One turn of the loop of `attemptDownloads`. -/
def attemptDownload (downloads : List ConnectionQueueItem) (x : Answers)
    (cqi : ConnectionQueueItem) : ConnectionQueueItem × Bool :=
  if cqi.isActive then (cqi, false)
  else if !x.isOnline then (cqi, true)
  else if cqi.errors = -1 ∧ cqi.lastAttempt ≠ 0 then
    -- protocol error, don't reconnect except after a forced attempt
    (cqi, false)
  else if !cqi.allowConnect x.attempts x.attemptLimit x.tick then
    if cqi.isTimeout x.tick then ({ cqi with errors := cqi.errors + 1, state := .waiting }, false)
    else (cqi, false)
  else
    let attempted := attemptDownloadUnsafe downloads x cqi
    ({ attempted.1 with lastAttempt := x.tick }, attempted.2)

/-! ## The sections -/

def next (m : Manager) : Call → Answers → Manager × Option Call
  | .getDownloadConnection aUser aSmallSlot, x =>
    match allowNewMCNUnsafe m.downloads x.maxOwnConns aUser aSmallSlot with
    | (false, none) => (m, none)
    | (false, some waiting) =>
      -- Force in case we joined a new hub and there was a protocol error
      (m.modify waiting ConnectionQueueItem.resetFatalError, none)
    | (true, _) =>
      (m.getCQI aUser x.token fun cqi =>
        { cqi with downloadType := if aSmallSlot then .small else .any }, none)
  | .onDownloadRunning aSource, x =>
    match m.findDownload aSource with
    | none => (m, none)
    | some cqi =>
      if cqi.running then (m, none)
      else
        let m := m.modify cqi.address fun c => { c with running := true }
        if cqi.mcn && (allowNewMCNUnsafe m.downloads x.maxOwnConns cqi.user false).1 then
          (m, some (.createNewMCN aSource.user))
        else (m, none)
  | .createNewMCN aUser, x =>
    if x.hasDownload then
      (m.getCQI aUser x.token fun cqi => { cqi with downloadType := .mcnNormal, mcn := true }, none)
    else (m, none)
  | .failDownload aToken aFatalError, x =>
    match m.downloads.find? fun c => c.token == aToken with
    | none => (m, none)
    | some cqi =>
      let m := m.removeExtraMCN cqi
      let mcnUser := cqi.mcn && cqi.isSmallSlot && cqi.isActive &&
        (allowNewMCNUnsafe m.downloads x.maxOwnConns cqi.user false).1
      (m.modify cqi.address (setFailed aFatalError x.tick),
        if mcnUser then some (.createNewMCN cqi.user) else none)
  | .onIdle aSource, _ =>
    match m.findDownload aSource with
    | none => (m, none)
    | some cqi =>
      if cqi.running then
        ((m.modify cqi.address fun c => { c with running := false }).removeExtraMCN cqi, none)
      else (m, none)
  | .addDownloadConnection uc, _ =>
    match m.findDownload uc with
    | none => (m, none)
    | some cqi =>
      if cqi.isActive then (m, none)
      else (m.modify cqi.address (setConnected uc.isMCN), none)
  | .attemptDownload address, x =>
    match m.downloads.find? fun c => c.address == address with
    | none => (m, none)
    | some cqi =>
      let attempted := attemptDownload m.downloads x cqi
      (m.modify address fun _ => attempted.1,
        if attempted.2 then some (.removeDownload cqi.token) else none)
  | .removeDownload token, _ =>
    match m.downloads.find? fun c => c.token == token with
    | none => (m, none)
    | some cqi => (m.putCQI cqi.address, none)

/-- What other threads call; the timer comes to any item. -/
def Call.isEntry : Call → Bool
  | .createNewMCN _ | .removeDownload _ => false
  | _ => true

def sections : Lib.Sections Manager Call Answers where
  enters _ t := t.isEntry
  accepts _ _ _ := True
  next := next

instance (m : Manager) (t : Call) : Decidable (sections.enters m t) :=
  inferInstanceAs (Decidable (t.isEntry = true))

instance (m : Manager) (t : Call) (x : Answers) : Decidable (sections.accepts m t x) :=
  inferInstanceAs (Decidable True)

def Initial (s : Lib.Threads Manager Call) : Prop := s = ⟨{}, []⟩

end McnConnections
end Airdcpp
