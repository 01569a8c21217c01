import Airdcpp.Util.NumberText
import Airdcpp.Util.Positions

/-!
# `Hub/NmdcHub` — what a hub says, line by line

`NmdcHub::onLine` takes the commands of a hub apart with positions it finds in them and offsets from
these. Each handler gives what it does with the pieces, or `none` where a position is out of range.

What the handlers ask of the hub and of other components is in `NmdcState`. How the client goes on
with a piece (the users it keeps, the answers it sends) is not followed.
-/

namespace Airdcpp

/-- What the handlers know about a user. -/
structure NmdcUser where
  /-- `User::PASSIVE` -/
  passive : Bool := false
  /-- `User::NAT_TRAVERSAL` -/
  natTraversal : Bool := false

structure NmdcState where
  locale : Locale
  encoding : Str := []
  stateNormal : Bool := true
  /-- `getConnectState() == STATE_PROTOCOL` -/
  stateProtocol : Bool := false
  isActive : Bool := true
  localIp : Str := []
  /-- `SearchManager::getPort` -/
  searchPort : Str := []
  myNick : Str := []
  /-- `CryptoManager::TLSOk` -/
  tlsOk : Bool := false
  findUser : Str → Option NmdcUser := fun _ => none
  checkIncomingSearch : Str → Bool := fun _ => true
  checkIncomingCTM : Str → Bool := fun _ => true

inductive NmdcNatRole
  | none
  | client
  | server
deriving DecidableEq, Repr

/-- What `updateFromTag` writes. -/
structure NmdcTag where
  fields : List (Str × Str) := []
  passive : Option Bool := none
deriving DecidableEq, Repr

/-- What `$MyINFO` says about a user. The handler may return before it has all. -/
structure NmdcInfo where
  tag : Option NmdcTag := none
  description : Option Str := none
  connection : Option Str := none
  status : Option UInt8 := none
  email : Option Str := none
  bytesShared : Option Str := none
deriving DecidableEq, Repr

/-- What a handler does with its pieces. -/
inductive NmdcEvent
  | noReconnect
  | statusMessage (text : Str)
  | chatMessage (nick text : Str) (thirdPerson : Bool)
  | respond (seeker : Str) (sizeMode : Nat) (size type : Int) (terms : Str) (isPassive : Bool)
  | myInfo (nick : Str) (info : NmdcInfo)
  | quit (nick : Str)
  | nmdcConnect (server port : Str) (secure : Bool) (natRole : NmdcNatRole)
  | connectToMe (nick : Str) (secure : Bool)
  | revConnectToMe (nick : Str)
  | searchResult (line : Str)
  | hubName (name description : Str)
  | supports (features : List Str)
  | userCommand (type ctx : Int) (name command : Str)
  | key (lock : Str)
  | hello (nick : Str)
  | redirect (url : Str)
  | hubFull
  | nickTaken
  | userIp (nick ip : Str)
  | nickList (nicks : List Str)
  | opList (nicks : List Str)
  | privateMessage (fromNick replyNick text : Str) (thirdPerson : Bool)
  | password
  | clearPassword
  | zipMode
  | hubTopic (text : Str)
deriving DecidableEq, Repr

namespace NmdcHub

/-- `validateMessage` in reverse -/
def unescape (tmp : Str) : Str :=
  let tmp := replaceLoop (str "&#36;") (str "$") 1 (tmp.length + 1) tmp 0
  let tmp := replaceLoop (str "&#124;") (str "|") 1 (tmp.length + 1) tmp 0
  replaceLoop (str "&amp;") (str "&") 1 (tmp.length + 1) tmp 0

def toUtf8 (h : NmdcState) (s : Str) : Str :=
  if s.isEmpty || Text.validateUtf8 s then s
  else if Util.stricmp h.locale (h.encoding.length + 1) h.encoding Text.utf8 = 0 then []
  else Text.toUtf8 h.locale s h.encoding

/-! ## Tags -/

/-- The numbers of hubs: as a normal user, registered, and as an operator. -/
def hubFields : List Str → List (Str × Str)
  | [n, r, o] => [(str "HN", n), (str "HR", r), (str "HO", o)]
  | _ => []

/-- One part of a tag. -/
def updateFromToken (tag : NmdcTag) (i : Str) : Option NmdcTag :=
  if i.length < 2 then some tag
  else if (str "H:").isPrefixOf i then do
    let hubs ← substrFrom i 2
    some { tag with fields := tag.fields ++ hubFields (tokens hubs (str "/") true) }
  else if (str "S:").isPrefixOf i then do
    let slots ← substrFrom i 2
    some { tag with fields := tag.fields ++ [(str "SL", slots)] }
  else
    match find i (str "V:") 0 with
    | some j => do
      let name ← (if 2 < j then (substr i 0 (j - 1)).map fun n => [(str "AP", n)] else some [])
      let version ← eraseRange i 0 (j + 2)
      some { tag with fields := tag.fields ++ name ++ [(str "VE", version)] }
    | none =>
      if (str "M:").isPrefixOf i then
        if i.length = 3 then do
          let mode ← charAt i 2
          some { tag with passive := some (mode != chr 'A') }
        else some tag
      else
        match find i (str "L:") 0 with
        | some j => do
          let limit ← eraseRange i j (j + 2)
          some { tag with
            fields := tag.fields ++ [(str "US", Util.toString (Util.toInt limit * 1024))] }
        | none => some tag

def updateFromTag (tag : Str) : Option NmdcTag := do
  let updated ← (tokens tag (str ",") false).foldlM updateFromToken { fields := [(str "US", [])] }
  some { updated with fields := updated.fields ++ [(str "TA", str "<" ++ tag ++ str ">")] }

/-! ## Chat -/

/-- `/me` is taken from the beginning of a text. -/
def thirdPerson (h : NmdcState) (text : Str) : Option (Str × Bool) :=
  if Util.strnicmp h.locale (text.length + 1) text (str "/me ") 4 = 0 then
    (substrFrom text 4).map fun text => (text, true)
  else some (text, false)

/-- Kicks are no chat. -/
def isKick (line : Str) : Bool :=
  (find line (str "Hub-Security") 0).isSome && (find line (str "was kicked by") 0).isSome ||
    (find line (str "is kicking") 0).isSome && (find line (str "because:") 0).isSome

/-- A line that is no command, in UTF-8. -/
def onChatLine (h : NmdcState) (line : Str) : Option (List NmdcEvent) := do
  let first ← charAt line 0
  if first ≠ chr '<' then some [.statusMessage (unescape line)]
  else
    match find line (str ">") 2 with
    | none => some [.statusMessage (unescape line)]
    | some i => do
      let nick ← substr line 1 (i - 1)
      let next ← (if i < subSizeT line.length 1 then charAt line (i + 1) else some 0)
      if next = chr ' ' then do
        let message ← substrFrom line (i + 2)
        if isKick line then some [.statusMessage (unescape line)]
        else do
          let (text, third) ← thirdPerson h (unescape message)
          some [.chatMessage nick text third]
      else some [.statusMessage (unescape line)]

/-! ## Commands -/

/-- An own search, or one from somebody who searches too much. -/
def ignoreSearch (h : NmdcState) (seeker : Str) (isPassive : Bool) : Bool :=
  let target := if isPassive then seeker.drop 4 else seeker
  (if h.isActive && !isPassive then seeker == h.localIp ++ str ":" ++ h.searchPort
    else isPassive &&
      Util.stricmp h.locale (seeker.length + 1) (seeker.drop 4) h.myNick == 0) ||
    !h.checkIncomingSearch target

/-- Whether the search is answered. -/
def respondsTo (h : NmdcState) (seeker : Str) (isPassive : Bool) : Bool :=
  !isPassive || (h.findUser (seeker.drop 4)).any fun u => h.isActive || u.natTraversal

/-- `$Search` behind the size mode. -/
def searchTerms (h : NmdcState) (param seeker : Str) (isPassive : Bool) (a i : Nat) :
    Option (List NmdcEvent) :=
  match find param (str "?") i with
  | none => some []
  | some j =>
    if i = j then some []
    else do
      let size ← substr param i (j - i)
      match find param (str "?") (j + 1) with
      | none => some []
      | some k =>
        if j + 1 = k then some []
        else do
          let type ← substr param (j + 1) (k - (j + 1))
          let terms ← substrFrom param (k + 1)
          if unescape terms ≠ [] ∧ respondsTo h seeker isPassive then
            some [.respond seeker a (Util.toInt64 size) (Util.toInt type - 1) (unescape terms)
              isPassive]
          else some []

/-- The seeker of a passive search is a nick. -/
def isPassiveSeeker (seeker : Str) : Bool :=
  decide (4 < seeker.length) && (str "Hub:").isPrefixOf seeker

def onSearch (h : NmdcState) (param : Str) : Option (List NmdcEvent) :=
  if !h.stateNormal then some []
  else
    match find param (str " ") 0 with
    | none => some []
    | some 0 => some []
    | some j => do
      let seeker ← substr param 0 j
      let isPassive := isPassiveSeeker seeker
      if ignoreSearch h seeker isPassive then some []
      else do
        let c ← charAt param (j + 1)
        let a ← (if c = chr 'F' then some 0 else
          (charAt param (j + 1 + 2)).map fun c => if c = chr 'F' then 1 else 2)
        searchTerms h param seeker isPassive a (j + 1 + 4)

/-- The description, and the tag at its end. -/
def splitTag (tmpDesc : Str) : Option (Option NmdcTag × Str) := do
  let last ← (if 0 < tmpDesc.length then charBack tmpDesc else some 0)
  if last = chr '>' then
    match rfindLast tmpDesc (str "<") with
    | none => some (none, tmpDesc)
    | some x => do
      let tag ← substr tmpDesc (x + 1) (subSizeT (subSizeT tmpDesc.length x) 2)
      let updated ← updateFromTag tag
      let description ← eraseFrom tmpDesc x
      some (some updated, description)
  else some (none, tmpDesc)

/-- `$MyINFO` behind the description. -/
def onMyInfoRest (param : Str) (info : NmdcInfo) (i : Nat) : Option NmdcInfo :=
  match find param (str "$") i with
  | none => some info
  | some j => do
    let connection ← (if i = j then some [] else substr param i (subSizeT (j - i) 1))
    let status ← charAt param (subSizeT j 1)
    match find param (str "$") (j + 1) with
    | none => some { info with connection := some connection, status := some status }
    | some k => do
      let email ← substr param (j + 1) (k - (j + 1))
      let email := unescape email
      match find param (str "$") (k + 1) with
      | none =>
        some { info with connection := some connection, status := some status, email := some email }
      | some l => do
        let bytesShared ← substr param (k + 1) (l - (k + 1))
        some { info with
          connection := some connection
          status := some status
          email := some email
          bytesShared := some bytesShared }

def onMyInfo (param : Str) : Option (List NmdcEvent) :=
  match find param (str " ") 5 with
  | none => some []
  | some j =>
    if j = 5 then some []
    else do
      let nick ← substr param 5 (j - 5)
      if nick.isEmpty then some []
      else
        match find param (str "$") (j + 1) with
        | none => some [.myInfo nick {}]
        | some k => do
          let tmpDesc ← substr param (j + 1) (k - (j + 1))
          let (tag, description) ← splitTag (unescape tmpDesc)
          let info ← onMyInfoRest param { tag, description := some description } (k + 3)
          some [.myInfo nick info]

/-- The end of `$ConnectToMe`: connect, and how. -/
def connectWith (server senderNick senderPort : Str) (connectSecure : Bool) :
    Option (List NmdcEvent) := do
  let last ← charBack senderPort
  if last = chr 'N' then
    if senderNick.isEmpty then some []
    else do
      let senderPort ← eraseFrom senderPort (subSizeT senderPort.length 1)
      some [.nmdcConnect server senderPort connectSecure .client,
        .connectToMe senderNick connectSecure]
  else if last = chr 'R' then do
    let senderPort ← eraseFrom senderPort (subSizeT senderPort.length 1)
    some [.nmdcConnect server senderPort connectSecure .server]
  else if senderPort.isEmpty then some []
  else some [.nmdcConnect server senderPort connectSecure .none]

/-- `$ConnectToMe` with its pieces. -/
def connectToMe (h : NmdcState) (server senderNick senderPort : Str) : Option (List NmdcEvent) := do
  let last ← charBack senderPort
  let (senderPort, connectSecure) ← (if last = chr 'S' then
      (eraseFrom senderPort (subSizeT senderPort.length 1)).map fun port => (port, h.tlsOk)
    else some (senderPort, false))
  if !h.checkIncomingCTM server then some []
  else connectWith server senderNick senderPort connectSecure

/-- The port begins at `j`; the nick of the sender may follow. -/
def onSenderPort (h : NmdcState) (param server : Str) (j : Nat) : Option (List NmdcEvent) :=
  match find param (str " ") j with
  | none => do
    let senderPort ← substrFrom param j
    connectToMe h server [] senderPort
  | some k => do
    let senderNick ← substrFrom param (k + 1)
    let senderPort ← substr param j (k - j)
    connectToMe h server senderNick senderPort

def onConnectToMe (h : NmdcState) (param : Str) : Option (List NmdcEvent) :=
  if !h.stateNormal then some []
  else
    match find param (str " ") 0 with
    | none => some []
    | some i =>
      if param.length ≤ i + 1 then some []
      else
        match find param (str ":") (i + 1) with
        | none => some []
        | some j => do
          let server ← substr param (i + 1) (j - (i + 1))
          if param.length ≤ j + 1 then some []
          else onSenderPort h param server (j + 1)

def onRevConnectToMe (h : NmdcState) (param : Str) : Option (List NmdcEvent) :=
  if !h.stateNormal then some []
  else
    match find param (str " ") 0 with
    | none => some []
    | some j => do
      let nick ← substr param 0 j
      match h.findUser nick with
      | none => some []
      | some u =>
        if h.isActive then some [.connectToMe nick false]
        else if u.natTraversal then some [.connectToMe nick h.tlsOk]
        else if u.passive then some []
        else some [.revConnectToMe nick]

/-- The name, and the rest as the description. The parameter has no line breaks left. -/
def splitName (param : Str) : Option (List NmdcEvent) :=
  match find param (str " - ") 0 with
  | some i => do
    let name ← substr param 0 i
    let description ← substrFrom param (i + 3)
    some [.hubName (unescape name) (unescape description)]
  | none =>
    match find param (str " ") 0 with
    | none => some [.hubName (unescape param) []]
    | some i => do
      let name ← substr param 0 i
      let description ← substrFrom param (i + 1)
      some [.hubName (unescape name) (unescape description)]

def onHubName (param : Str) : Option (List NmdcEvent) :=
  splitName (replaceLoop (str "\r\n") (str " ") 0 (param.length + 1) param 0)

/-- `UserCommand::TYPE_SEPARATOR` and `TYPE_CLEAR` -/
def isHubCommand (type : Int) : Bool := type == 0 || type == 255

/-- `UserCommand::TYPE_RAW` and `TYPE_RAW_ONCE` -/
def isRawCommand (type : Int) : Bool := type == 1 || type == 2

/-- NMDC separates with a backslash, everything else with a slash. -/
def commandName (name : Str) : Str :=
  Util.replace (str "\\") (str "/") (Util.replace (str "/") (str "//") (unescape name))

def onUserCommand (param : Str) : Option (List NmdcEvent) :=
  match find param (str " ") 0 with
  | none => some []
  | some j => do
    let type ← substr param 0 j
    if isHubCommand (Util.toInt type) then do
      let ctx ← substrFrom param (j + 1)
      some [.userCommand (Util.toInt type) (Util.toInt ctx) [] []]
    else if isRawCommand (Util.toInt type) then
      match find param (str " ") (j + 1) with
      | none => some []
      | some k => do
        let ctx ← substrFrom param (j + 1)
        -- looked for from the beginning
        match find param (str "$") 0 with
        | none => some []
        | some l => do
          let name ← substr param (k + 1) (subSizeT l (k + 1))
          let command ← substr param (l + 1) (subSizeT param.length (l + 1))
          some [.userCommand (Util.toInt type) (Util.toInt ctx) (commandName name)
            (unescape command)]
    else some []

def onLock (h : NmdcState) (aLine : Str) : Option (List NmdcEvent) :=
  if !h.stateProtocol ∨ aLine.length < 6 then some []
  else do
    -- the parameter is not converted
    let param ← substrFrom aLine 6
    if param.isEmpty then some []
    else
      match find param (str " Pk=") 0 with
      | some j => do
        let lock ← substr param 0 j
        let _ ← substrFrom param (j + 4)
        some [.key lock]
      | none =>
        match find param (str " ") 0 with
        | some j => do
          let lock ← substr param 0 j
          some [.key lock]
        | none => some [.key param]

def onUserIpToken (h : NmdcState) (it : Str) : Option (List NmdcEvent) :=
  match find it (str " ") 0 with
  | none => some []
  | some j =>
    if j + 1 = it.length then some []
    else do
      let nick ← substr it 0 j
      if (h.findUser nick).isNone then some []
      else do
        let ip ← substrFrom it (j + 1)
        some [.userIp nick ip]

def onUserIp (h : NmdcState) (param : Str) : Option (List NmdcEvent) :=
  (tokens param (str "$$") true).foldlM (fun done it => (onUserIpToken h it).map (done ++ ·)) []

def onTo (h : NmdcState) (param : Str) : Option (List NmdcEvent) :=
  match find param (str "From:") 0 with
  | none => some []
  | some i =>
    match find param (str "$") (i + 6) with
    | none => some []
    | some j => do
      let rtNick ← substr param (i + 6) (subSizeT (subSizeT j 1) (i + 6))
      if rtNick.isEmpty ∨ param.length < j + 1 + 3 then some []
      else do
        let c ← charAt param (j + 1)
        if c ≠ chr '<' then some []
        else
          match find param (str ">") (j + 1) with
          | none => some []
          | some k => do
            let fromNick ← substr param (j + 2) (subSizeT (subSizeT k (j + 1)) 1)
            if fromNick.isEmpty ∨ param.length < k + 2 then some []
            else do
              let message ← substrFrom param (k + 2)
              let (text, third) ← thirdPerson h (unescape message)
              some [.privateMessage fromNick rtNick text third]

/-- The command of a line, and what follows the first space. -/
def splitCommand (h : NmdcState) (aLine : Str) : Option (Str × Str) :=
  match find aLine (str " ") 0 with
  | none => (substrFrom aLine 1).map fun cmd => (cmd, [])
  | some x => do
    let cmd ← substr aLine 1 (subSizeT x 1)
    let param ← substrFrom aLine (x + 1)
    some (cmd, toUtf8 h param)

def onCommand (h : NmdcState) (aLine cmd param : Str) : Option (List NmdcEvent) :=
  if cmd = str "Search" then onSearch h param
  else if cmd = str "MyINFO" then onMyInfo param
  else if cmd = str "Quit" then some (if param.isEmpty then [] else [.quit param])
  else if cmd = str "ConnectToMe" then onConnectToMe h param
  else if cmd = str "RevConnectToMe" then onRevConnectToMe h param
  else if cmd = str "SR" then some [.searchResult aLine]
  else if cmd = str "HubName" then onHubName param
  else if cmd = str "Supports" then some [.supports (tokens param (str " ") true)]
  else if cmd = str "UserCommand" then onUserCommand param
  else if cmd = str "Lock" then onLock h aLine
  else if cmd = str "Hello" then some (if param.isEmpty then [] else [.hello param])
  else if cmd = str "ForceMove" then some [.redirect param]
  else if cmd = str "HubIsFull" then some [.hubFull]
  else if cmd = str "ValidateDenide" then some [.nickTaken]
  else if cmd = str "UserIP" then if param.isEmpty then some [] else onUserIp h param
  else if cmd = str "NickList" then
    some (if param.isEmpty then [] else [.nickList (tokens param (str "$$") false)])
  else if cmd = str "OpList" then
    some (if param.isEmpty then [] else [.opList (tokens param (str "$$") false)])
  else if cmd = str "To:" then onTo h param
  else if cmd = str "GetPass" then some [.password]
  else if cmd = str "BadPass" then some [.clearPassword]
  else if cmd = str "ZOn" then some [.zipMode]
  else if cmd = str "HubTopic" then some [.hubTopic param]
  else some []

def onLine (h : NmdcState) (aLine : Str) : Option (List NmdcEvent) :=
  if aLine.isEmpty then some []
  else do
    let first ← charAt aLine 0
    if first ≠ chr '$' then do
      -- check if we're being banned
      let banned := !h.stateNormal && (Util.findSubString h.locale aLine (str "banned")).isSome
      let line := toUtf8 h aLine
      let events ← (if line.isEmpty then some [] else onChatLine h line)
      some ((if banned then [.noReconnect] else []) ++ events)
    else do
      let (cmd, param) ← splitCommand h aLine
      onCommand h aLine cmd param

end NmdcHub
end Airdcpp
