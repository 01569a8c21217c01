import Airdcpp.FileList.ADLSearch
import Airdcpp.Hub.AdcHub
import Airdcpp.Protocol.AdcCommand
import Airdcpp.Search.NmdcResult
import Airdcpp.Search.SearchInstance
import Airdcpp.Util.NumberText

/-!
# `Search/SharedResult` — results of the own share on their way

A result is sent as text to an NMDC hub (`toSR`) and as a command to an ADC client (`toRES`). The
text has no escapes: it is taken apart by `NmdcResult.onSR`. The command has named parameters, which
`onRES` collects in whatever order they come.
-/

namespace Airdcpp

open DirectoryListing

def NMDC_SEPARATOR : UInt8 := chr '\\'

/-- `PathUtil::toAdcFile` -/
def Util.toAdcFile (file : Str) : Str :=
  if file = str "files.xml.bz2" ∨ file = str "files.xml" then file
  else (ADC_SEPARATOR :: file).map fun c => if c = NMDC_SEPARATOR then ADC_SEPARATOR else c

/-- A `SearchResult` of the own share, as far as it is sent. -/
structure SharedResult where
  type : SearchResult.SearchType
  path : Str
  size : Int
  freeSlots : UInt8
  totalSlots : UInt8
  tth : TTHValue
  date : Int
  /-- `contentInfo.files` -/
  files : Int
  /-- `contentInfo.directories` -/
  directories : Int
deriving DecidableEq, Repr

namespace SharedResult

/-- `toSR`, for a client with this nick and address and the identity as its encoding. -/
def toSR (r : SharedResult) (myNick ipPort : Str) : Str :=
  let acpFile := Util.toNmdcFile r.path
  str "$SR " ++ myNick ++ str " " ++
    (match r.type with
      | .file => acpFile ++ [5] ++ Util.toString r.size
      | .directory => acpFile.dropLast) ++
    str " " ++ Util.toString r.freeSlots.toNat ++ str "/" ++ Util.toString r.totalSlots.toNat ++
      [5] ++
    (str "TTH:" ++ r.tth.toBase32) ++ str " (" ++ ipPort ++ str ")|"

/-- `toRES` -/
def toRES (r : SharedResult) (aType : UInt8) : AdcCommand :=
  { type := aType, cmd0 := chr 'R', cmd1 := chr 'E', cmd2 := chr 'S'
    parameters :=
      [str "SI" ++ Util.toString r.size, str "SL" ++ Util.toString r.freeSlots.toNat,
        str "FN" ++ r.path] ++
      (match r.type with
        | .file => [str "TR" ++ r.tth.toBase32]
        | .directory => []) ++
      [str "DM" ++ Util.toString r.date] ++
      (match r.type with
        | .file => []
        | .directory =>
          [str "FI" ++ Util.toString r.files, str "FO" ++ Util.toString r.directories]) }

end SharedResult

/-! ## `SearchManager::onSR` -/

namespace NmdcResult

/-- The path of the `SearchResult`. -/
def adcPath (x : NmdcResult) : Str := Util.toAdcFile x.file

/-- The TTH of the `SearchResult`. -/
def tthValue (x : NmdcResult) : TTHValue := TTHValue.ofBase32 x.tth

end NmdcResult

/-! ## By UDP -/

/-- `toString(CID)` -/
def AdcCommand.toUdpString (c : AdcCommand) (aCID : CID) : Str :=
  [c.type] ++ c.cmdChar ++ str " " ++ TTHValue.toBase32 aCID ++ c.getParamString false

/-- `UDPServer::handle(RES)`: the command that goes on to `onRES`, without the CID in front. -/
def UDPServer.handleRES (findUser : CID → Bool) (c : AdcCommand) : Option AdcCommand :=
  match c.parameters with
  | [] => none
  | cid :: parameters =>
    if cid.length ≠ 39 then none
    else if !findUser (CID.ofBase32 cid) then none
    else some { c with parameters }

/-! ## `SearchManager::onRES` -/

/-- The locals of `onRES`. -/
structure ResParams where
  freeSlots : Int := -1
  size : Int := -1
  adcPath : Str := []
  tth : Str := []
  token : Str := []
  date : Int := 0
  files : Int := -1
  folders : Int := -1
deriving DecidableEq, Repr

namespace ResParams

/-- One parameter. What has another name is left out. -/
def read (p : ResParams) (param : Str) : ResParams :=
  let name := param.take 2
  let value := param.drop 2
  if name = str "FN" then { p with adcPath := value }
  else if name = str "SL" then { p with freeSlots := Util.toInt value }
  else if name = str "SI" then { p with size := Util.toInt64 value }
  else if name = str "TR" then { p with tth := value }
  else if name = str "TO" then { p with token := value }
  else if name = str "DM" then { p with date := parseRemoteFileItemDate value }
  else if name = str "FI" then { p with files := Util.toInt value }
  else if name = str "FO" then { p with folders := Util.toInt value }
  else p

end ResParams

/-- What the `ClientManager` adds to a result. -/
structure ConnectedResult where
  hubUrl : Str
  connection : Str
  slots : UInt8
deriving DecidableEq, Repr

/-- A `SearchResult` that is fired. -/
structure AdcResult where
  client : ConnectedResult
  type : SearchResult.SearchType
  freeSlots : UInt8
  size : Int
  path : Str
  tth : TTHValue
  token : Str
  date : Int
  folders : Int
  files : Int
deriving DecidableEq, Repr

/-- `onRES`. The parameters are `connectADCSearchResult`, of the token, and `generateDirectoryTTH`,
    and the hooks, which may reject the result. -/
def AdcResult.onRES (connectADCSearchResult : Str → Option ConnectedResult)
    (generateDirectoryTTH : Str → Int → TTHValue) (runHooks : AdcResult → Bool) (cmd : AdcCommand) :
    Option AdcResult :=
  let p := cmd.parameters.foldl ResParams.read {}
  if p.freeSlots = -1 ∨ p.size = -1 ∨ p.adcPath = [] then none
  else
    let type :=
      if p.adcPath.getLast? = some ADC_SEPARATOR then SearchResult.SearchType.directory else .file
    if type = .file ∧ p.tth = [] then none
    else do
      let client ← connectADCSearchResult p.token
      let th := match type with
        | .directory => generateDirectoryTTH (PathUtil.getLastDir p.adcPath) p.size
        | .file => TTHValue.ofBase32 p.tth
      let sr : AdcResult :=
        { client, type, freeSlots := (p.freeSlots % 256).toNat.toUInt8, size := p.size,
          path := p.adcPath
          tth := th, token := p.token, date := p.date, folders := p.folders, files := p.files }
      if runHooks sr then some sr else none

end Airdcpp
