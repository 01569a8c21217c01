import Airdcpp.Connection.ConnectionQueueItem
import Airdcpp.Lib.Keyed
import Airdcpp.Lib.Runs
import Airdcpp.Protocol.AdcCommand
import Airdcpp.Util.Strings

/-!
# `Connection/ConnectionTokens` — tokens of connections, from the handshake to the removal

Each item has a token that `TokenManager` knows with the type of the item. Download items get a
generated one when they are created. A connection of the other types brings its token along (for
ADC in the `TO` parameter of its `INF`), and the item is created for it at the end of the handshake.

`Op` lists what uses the tokens. The rest of a handshake (`SUP`, the nicks, the direction, the
transfers themselves) writes to the connection only, and `Op.connection` lets it write anything.
-/

namespace Airdcpp

/-- `TokenManager`: `std::unordered_map<string, ConnectionType>` -/
abbrev TokenManager := Str → Option ConnectionType

namespace TokenManager

/-- What `createToken` ends with: the text of a number that is no token yet. -/
def IsNew (tokens : TokenManager) (token : Str) : Prop := tokens token = none ∧ token ≠ []

instance (tokens : TokenManager) (token : Str) : Decidable (IsNew tokens token) :=
  inferInstanceAs (Decidable (_ ∧ _))

/-- `tokens.try_emplace` -/
def emplace (tokens : TokenManager) (token : Str) (type : ConnectionType) : TokenManager :=
  if (tokens token).isSome then tokens else Function.update tokens token (some type)

/-- Whether it was added is the second part. -/
def addToken (tokens : TokenManager) (token : Str) (type : ConnectionType) : TokenManager × Bool :=
  (tokens.emplace token type, (tokens token).isNone)

def hasToken (tokens : TokenManager) (token : Str) (type : ConnectionType) : Bool :=
  tokens token == some type

def removeToken (tokens : TokenManager) (token : Str) : TokenManager :=
  Function.update tokens token none

end TokenManager

namespace ConnectionTokens

/-- The states of a connection that the handlers below ask for. -/
inductive State
  | INF
  | KEY
  | other
deriving DecidableEq, Repr

structure UserConnection where
  state : State := .other
  /-- `FLAG_INCOMING` -/
  incoming : Bool := false
  upload : Bool := false
  download : Bool := false
  pm : Bool := false
  /-- `FLAG_ASSOCIATED` -/
  associated : Bool := false
  smallSlot : Bool := false
  mcn : Bool := false
  connectToken : Str := []
  user : Option UserPtr := none
  /-- It was removed from the manager (`putConnection`). -/
  put : Bool := false
deriving DecidableEq, Repr

structure Manager where
  tokens : TokenManager := fun _ => none
  /-- The items of all types, in the order of their creation -/
  cqis : List ConnectionQueueItem := []
  nextAddress : Nat := 0
  connections : Nat → UserConnection := fun _ => {}
  /-- Keys with the CID and the hub of the user that is expected -/
  expectedConnections : Str → Option (CID × Str) := fun _ => none
  removedDownloadTokens : List Str := []
  /-- The tokens of bundles. They are download tokens without an item. -/
  bundles : List Str := []

/-- Answers of other components. -/
structure Answers where
  /-- What `createToken` or `ValueGenerator::rand` gives -/
  token : Str := []
  /-- `findUser` finds the user -/
  found : Bool := true
  /-- `User::TLS` -/
  tls : Bool := true
  checkKeyprint : Bool := true

/-! ## Items -/

def Manager.items (s : Manager) (type : ConnectionType) : List ConnectionQueueItem :=
  s.cqis.filter fun i => i.connType == type

/-- `getCQIUnsafe`; `set` is what is written to the item right after it. -/
def Manager.getCQI (s : Manager) (aUser : UserPtr) (aConnType : ConnectionType) (aToken : Str)
    (x : Answers) (set : ConnectionQueueItem → ConnectionQueueItem) : Manager :=
  let token := if aToken ≠ [] then aToken else x.token
  { s with
    tokens := if aToken ≠ [] then s.tokens else s.tokens.emplace x.token aConnType
    cqis := s.cqis ++
      [set { address := s.nextAddress, user := aUser, connType := aConnType, token }]
    nextAddress := s.nextAddress + 1 }

/-- `putCQIUnsafe` -/
def Manager.putCQIUnsafe (s : Manager) (cqi : ConnectionQueueItem) : Manager :=
  { s with
    cqis := Lib.Keyed.remove ConnectionQueueItem.address cqi.address s.cqis
    removedDownloadTokens :=
      if cqi.connType = .download ∧ cqi.isActive = false then cqi.token :: s.removedDownloadTokens
      else s.removedDownloadTokens
    tokens := s.tokens.removeToken cqi.token }

def Manager.modify (s : Manager) (cqi : ConnectionQueueItem)
    (f : ConnectionQueueItem → ConnectionQueueItem) : Manager :=
  { s with cqis := Lib.Keyed.modify ConnectionQueueItem.address cqi.address f s.cqis }

def Manager.setConnection (s : Manager) (address : Nat) (uc : UserConnection) : Manager :=
  { s with connections := Function.update s.connections address uc }

/-! ## The end of a handshake -/

def Manager.addPMConnection (s : Manager) (address : Nat) (uc : UserConnection) (x : Answers) :
    Manager :=
  match uc.user with
  | none => s
  | some user =>
    if (s.items .pm).any fun i =>
      i.user == user then s.setConnection address { uc with put := true }
    else
      (s.getCQI user .pm uc.connectToken x fun cqi => { cqi with state := .active }).setConnection
        address { uc with associated := true }

def findDownload (s : Manager) (uc : UserConnection) : Option ConnectionQueueItem :=
  if uc.mcn then (s.items .download).find? fun i => i.token == uc.connectToken
  else (s.items .download).find? fun i => some i.user == uc.user

def Manager.addDownloadConnection (s : Manager) (address : Nat) (uc : UserConnection) : Manager :=
  match findDownload s uc with
  | none => s.setConnection address { uc with put := true }
  | some cqi =>
    if cqi.isActive then s.setConnection address { uc with put := true }
    else
      (s.modify cqi fun cqi =>
        if uc.mcn then
          { cqi with
            state := .active
            downloadType := if cqi.isSmallSlot then cqi.downloadType else .mcnNormal
            mcn := true }
        else { cqi with state := .active }).setConnection address
        -- `DownloadManager` takes it over
        { uc with
          state := .other
          smallSlot := uc.smallSlot || (uc.mcn && cqi.isSmallSlot)
          connectToken := cqi.token
          associated := true }

def Manager.addUploadConnection (s : Manager) (address : Nat) (uc : UserConnection) (x : Answers) :
    Manager :=
  match uc.user with
  | none => s
  | some user =>
    -- One connection per CID for non-mcn users
    if !uc.mcn && (s.items .upload).any (fun i => i.user == user) then
      s.setConnection address { uc with put := true }
    else
      let added := s.tokens.addToken uc.connectToken .upload
      if added.2 then
        (({ s with tokens := added.1 }).getCQI user .upload uc.connectToken x
          fun cqi => { cqi with state := .active }).setConnection address
          -- `UploadManager` takes it over
          { uc with state := .other, associated := true }
      else s.setConnection address { uc with put := true }

/-! ## Handlers -/

/-- The part of `on(INF)` for incoming connections: the token is expected, and so its user is known.
    Nothing is left where the connection is refused; the flags that were set stay. -/
def infIncoming (s : Manager) (uc : UserConnection) (cmd : AdcCommand) (x : Answers) :
    Manager × UserConnection × Bool :=
  match cmd.getParam (str "TO") 0 with
  | none => (s, { uc with put := true }, false)
  | some token =>
    let uc := { uc with connectToken := token }
    let cs := { s with expectedConnections := Function.update s.expectedConnections token none }
    match s.expectedConnections token with
    | none => (s, uc, false)
    | some (cid, hubUrl) =>
      if hubUrl = [] then (cs, uc, false)
      else if !x.found then (cs, { uc with user := none }, false)
      else if s.tokens.hasToken token .pm || cmd.hasFlag (str "PM") 0 then
        -- set the PM flag now in order to send a INF with PM1
        (cs, { uc with user := some cid, pm := true }, x.tls)
      else (cs, { uc with user := some cid }, true)

/-- The pending download of the token, if there is one. -/
def infDownload (s : Manager) (uc : UserConnection) : Option ConnectionQueueItem :=
  (s.items .download).find? fun i => i.token == uc.connectToken

/-- What `on(INF)` does with a connection whose user and token are known. -/
def Manager.infKnown (s : Manager) (address : Nat) (uc : UserConnection) (cmd : AdcCommand)
    (x : Answers) : Manager :=
  match infDownload s uc with
  | some cqi =>
    let slots := if uc.mcn then cmd.getParam (str "CO") 0 else none
    (s.modify cqi fun cqi =>
      { cqi with
        maxRemoteConns := (slots.map fun t => (Util.toInt t % 256).toNat).getD cqi.maxRemoteConns
        errors := 0 }).addDownloadConnection address { uc with download := true }
  | none =>
    if uc.connectToken ∈ s.removedDownloadTokens then s.setConnection address uc
    else if uc.download then s.addDownloadConnection address uc
    else if uc.pm then s.addPMConnection address uc x
    else if cmd.hasFlag (str "PM") 0 then
      let added := s.tokens.addToken uc.connectToken .pm
      if added.2 then
        ({ s with tokens := added.1 }).addPMConnection address { uc with pm := true } x
      else s.setConnection address uc
    else s.addUploadConnection address { uc with upload := true } x

/-- `on(INF)` -/
def Manager.inf (s : Manager) (address : Nat) (cmd : AdcCommand) (x : Answers) : Manager :=
  let uc := s.connections address
  if uc.state ≠ .INF then s
  else
    let known := if uc.incoming then infIncoming s uc cmd x else (s, uc, true)
    if known.2.2 && x.checkKeyprint then known.1.infKnown address known.2.1 cmd x
    else known.1.setConnection address known.2.1

/-- `on(Key)` -/
def Manager.key (s : Manager) (address : Nat) (x : Answers) : Manager :=
  let uc := s.connections address
  if uc.state ≠ .KEY then s
  else if uc.download then
    -- this will be synced to use CQI's random token
    s.addDownloadConnection address uc
  else s.addUploadConnection address { uc with connectToken := x.token } x

def toConnectionType (uc : UserConnection) : Option ConnectionType :=
  if uc.upload then some .upload else if uc.download then some .download
  else if uc.pm then some .pm else none

/-- The item that `putCQI` looks up. -/
def findCQI (s : Manager) (uc : UserConnection) (type : ConnectionType) :
    Option ConnectionQueueItem :=
  if type = .pm then (s.items type).find? fun i => some i.user == uc.user
  else (s.items type).find? fun i => i.token == uc.connectToken

/-- The iterator is not checked: what happens without an item is undefined, and nothing here. -/
def Manager.putCQI (s : Manager) (uc : UserConnection) : Manager :=
  match toConnectionType uc with
  | none => s
  | some type =>
    match findCQI s uc type with
    | none => s
    | some cqi => s.putCQIUnsafe cqi

/-- `failed`; a download may be kept for another attempt. -/
def Manager.failed (s : Manager) (address : Nat) (failDownload : Bool) : Manager :=
  let uc := s.connections address
  if uc.associated then
    if uc.download && failDownload then s.setConnection address { uc with put := true }
    else (s.putCQI uc).setConnection address { uc with put := true }
  else s.setConnection address { uc with put := true }

/-! ## Operations -/

inductive Op
  /-- `getDownloadConnection`, `createNewMCN` -/
  | getDownload (aUser : UserPtr) (x : Answers)
  /-- `putCQIUnsafe` of a download item, by the timer or for another item of the user -/
  | putDownload (address : Nat)
  /-- Attempts to connect, and failures, change the state of a download item. -/
  | setState (address : Nat) (state : ConnectionQueueItem.State)
  /-- `PrivateChat::startCC` -/
  | startCC (token : Str)
  | addBundle (token : Str)
  | removeBundle (token : Str)
  | adcExpect (aToken : Str) (aCID : CID) (aHubUrl : Str)
  /-- `adcConnect` -/
  | adcConnect (address : Nat) (aUser : UserPtr) (aToken : Str)
  | connection (address : Nat) (uc : UserConnection)
  | inf (address : Nat) (cmd : AdcCommand) (x : Answers)
  | key (address : Nat) (x : Answers)
  | failed (address : Nat) (failDownload : Bool)
  /-- The timer forgets removed tokens. -/
  | expire (aToken : Str)

def next (s : Manager) : Op → Manager
  | .getDownload aUser x => s.getCQI aUser .download [] x fun cqi => cqi
  | .putDownload address =>
    match (s.items .download).find? fun i => i.address == address with
    | none => s
    | some cqi => s.putCQIUnsafe cqi
  | .setState address state =>
    { s with
      cqis := Lib.Keyed.modify ConnectionQueueItem.address address
        (fun cqi => { cqi with state := state }) s.cqis }
  | .startCC token => { s with tokens := s.tokens.emplace token .pm }
  | .addBundle token =>
    let added := s.tokens.addToken token .download
    if added.2 then { s with tokens := added.1, bundles := token :: s.bundles } else s
  | .removeBundle token =>
    { s with tokens := s.tokens.removeToken token, bundles := s.bundles.erase token }
  | .adcExpect aToken aCID aHubUrl =>
    if (s.expectedConnections aToken).isSome then s
    else { s with
      expectedConnections := Function.update s.expectedConnections aToken (some (aCID, aHubUrl)) }
  | .adcConnect address aUser aToken =>
    s.setConnection address
      { connectToken := aToken, user := some aUser, pm := s.tokens.hasToken aToken .pm }
  | .connection address uc => s.setConnection address uc
  | .inf address cmd x => s.inf address cmd x
  | .key address x => s.key address x
  | .failed address failDownload => s.failed address failDownload
  | .expire aToken =>
    { s with removedDownloadTokens := s.removedDownloadTokens.filter (· ≠ aToken) }

/-- Generated tokens are new. A bundle releases the token that it has. -/
def Allowed (s : Manager) : Op → Prop
  | .getDownload _ x | .inf _ _ x => s.tokens.IsNew x.token
  | .key _ x => x.token ≠ []
  | .startCC token => s.tokens.IsNew token
  | .removeBundle token => token ∈ s.bundles
  | _ => True

instance (s : Manager) (o : Op) : Decidable (Allowed s o) := by
  cases o <;> simp only [Allowed] <;> infer_instance

def system : Lib.System Manager Op where
  next := next
  allowed := Allowed

instance (s : Manager) (o : Op) : Decidable (system.allowed s o) :=
  inferInstanceAs (Decidable (Allowed s o))

def Initial (s : Manager) : Prop := s = {}

end ConnectionTokens
end Airdcpp
