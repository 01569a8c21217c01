import Airdcpp.Lib.Keyed
import Airdcpp.Protocol.AdcCommand
import Airdcpp.Queue.QueueItem
import Airdcpp.Util.NumberText

/-!
# `Transfer/UBNBundle` — what the users that upload a bundle are told about it

An info object belongs to one bundle. It knows the running connections of each user that uploads
the bundle (`uploadReports`), and tells each of these users, by UDP commands, which of his
connections belong to the bundle, and whether he is the only one (*single user mode*). Where there
are several, they get the speed and the progress of the whole bundle instead.

A function returns the commands that it sends, in order, beside the object.
-/

namespace Airdcpp

/-- `UserConnection`, as far as the info objects are concerned. -/
structure UBNConnection where
  connectToken : Str
  user : UserPtr
  /-- `getSupports().includes(FEATURE_ADC_UBN1)` -/
  supportsUBN : Bool := true
deriving DecidableEq, Repr

/-- What an info object asks of its bundle. -/
structure UBNProgress where
  name : Str := []
  size : Int := 0
  downloadedBytes : Int := 0

abbrev UBNMessage := UserPtr × AdcCommand

namespace UploadBundleInfo

def CMD_UBD (parameters : List Str) : AdcCommand :=
  { AdcCommand.header AdcCommand.TYPE_UDP (chr 'U') (chr 'B') (chr 'D') with parameters }

def CMD_UBN (parameters : List Str) : AdcCommand :=
  { AdcCommand.header AdcCommand.TYPE_UDP (chr 'U') (chr 'B') (chr 'N') with parameters }

/-- What the receiver's loops over the parameters keep: the last one of a name. -/
def lastParam (name : Str) (parameters : List Str) : Option Str :=
  (parameters.reverse.find? fun p => p.take 2 == name).map fun p => p.drop 2

end UploadBundleInfo

/-- `UBNBundle` -/
structure UBNBundle where
  /-- The bundle, by its token -/
  bundle : QueueToken
  singleUser : Bool := true
  lastSpeed : Int := 0
  lastDownloaded : Int := 0
  /-- Users with the tokens of their connections -/
  uploadReports : List (UserPtr × List Str) := []

namespace UBNBundle

open UploadBundleInfo (CMD_UBD)

def getStringToken (o : UBNBundle) : Str := Util.natText o.bundle

/-! ## Commands -/

def getBundleFinishedCommand (o : UBNBundle) : AdcCommand :=
  CMD_UBD [str "BU" ++ o.getStringToken, str "FI1"]

def getRemoveCommand (aConnectionToken : Str) : AdcCommand :=
  CMD_UBD [str "TO" ++ aConnectionToken, str "RM1"]

def getUserModeCommand (o : UBNBundle) (b : UBNProgress) : AdcCommand :=
  CMD_UBD ([str "BU" ++ o.getStringToken, str "UD1"] ++
    if o.singleUser then [str "SU1", str "DL" ++ Util.toString b.downloadedBytes]
    else [str "MU1"])

def getAddCommand (o : UBNBundle) (b : UBNProgress) (aConnectionToken : Str) (aNewBundle : Bool) :
    AdcCommand :=
  CMD_UBD ([str "TO" ++ aConnectionToken, str "BU" ++ o.getStringToken] ++
    if aNewBundle then
      [str "SI" ++ Util.toString b.size, str "NA" ++ b.name,
        str "DL" ++ Util.toString b.downloadedBytes, if o.singleUser then str "SU1" else str "MU1",
        str "AD1"]
    else [str "CH1"])

/-! ## Reports -/

/-- It goes to one user, for there is only one whenever it is called. -/
def setUserMode (o : UBNBundle) (b : UBNProgress) (aSetSingleUser : Bool) :
    UBNBundle × List UBNMessage :=
  let o := if aSetSingleUser then { o with lastSpeed := 0, lastDownloaded := 0, singleUser := true }
    else { o with singleUser := false }
  (o, o.uploadReports.head?.toList.map fun report => (report.1, o.getUserModeCommand b))

/-- `uploadReports[aUser].insert(aToken)` -/
def insertReport (aUser : UserPtr) (aToken : Str) (reports : List (UserPtr × List Str)) :
    List (UserPtr × List Str) :=
  if aUser ∈ reports.map Prod.fst then
    Lib.Keyed.modify Prod.fst aUser (fun report => (report.1, report.2.insert aToken)) reports
  else (aUser, [aToken]) :: reports

def addRunningUser (o : UBNBundle) (b : UBNProgress) (aSource : UBNConnection) :
    UBNBundle × List UBNMessage :=
  let newBundle := decide (aSource.user ∉ o.uploadReports.map Prod.fst)
  let mode := if newBundle && o.uploadReports.length == 1 then o.setUserMode b false else (o, [])
  let o := { mode.1 with
    uploadReports := insertReport aSource.user aSource.connectToken mode.1.uploadReports }
  let add := (aSource.user, o.getAddCommand b aSource.connectToken newBundle)
  (if newBundle then { o with lastSpeed := 0, lastDownloaded := 0 } else o, mode.2 ++ [add])

/-- The last part says whether no report remains. -/
def removeRunningUser (o : UBNBundle) (b : UBNProgress) (aSource : UBNConnection)
    (aSendRemove : Bool) : UBNBundle × List UBNMessage × Bool :=
  match o.uploadReports.lookup aSource.user with
  | none => (o, [], o.uploadReports.isEmpty)
  | some tokens =>
    let finished := (tokens.erase aSource.connectToken).isEmpty
    let reports :=
      if finished then Lib.Keyed.remove Prod.fst aSource.user o.uploadReports
      else Lib.Keyed.modify Prod.fst aSource.user
        (fun report => (report.1, report.2.erase aSource.connectToken)) o.uploadReports
    let o := { o with uploadReports := reports }
    let mode := if finished && reports.length == 1 then o.setUserMode b true else (o, [])
    let command :=
      if finished then [(aSource.user, mode.1.getBundleFinishedCommand)]
      else if aSendRemove then [(aSource.user, getRemoveCommand aSource.connectToken)]
      else []
    (mode.1, mode.2 ++ command, reports.isEmpty)

end UBNBundle
end Airdcpp
