import Airdcpp.Core.Types
import Airdcpp.Core.Segment

/-!
# `Queue/QueueItem` — one queued file

The record behind a `QueueItemPtr`, and the functions of `QueueItem` that read or change only
that record. Items and bundles point at each other, so both are named by *pointers*
(`QueueItemPtr`, `BundlePtr`: positions in the heap of `Queue/Heap`), and two pointers are
equal exactly when they name the same object.

`addFinishedSegment` is the one function here with a loop. It walks the ordered set `done`
while erasing from it and inserting into it, and reports to the item's bundle how many bytes
are new. The walk is kept as the source has it: the iterator is the part of the set it has
still to visit (`iter`), `--prev` is `OrderedSet.pred?`, and the set is edited in place. The
bytes reported come back as the second component; `Queue/Bundle` hands them to the bundle.
-/

namespace Airdcpp

open Lib

abbrev QueueItemPtr := Nat
abbrev BundlePtr := Nat
abbrev QueueToken := Nat

namespace QueueItem

/-- `QueueItem::Status`, in the order its comparisons use. -/
inductive Status
  | new
  | queued
  | downloaded
  | validationRunning
  | validationError
  | completed
deriving DecidableEq, Repr, Inhabited

/-- The enumerator's value. -/
def Status.toNat : Status → Nat
  | new => 0
  | queued => 1
  | downloaded => 2
  | validationRunning => 3
  | validationError => 4
  | completed => 5

/-! ## Sources -/

def FLAG_FILE_NOT_AVAILABLE : MaskType := 0x01
def FLAG_REMOVED : MaskType := 0x04
def FLAG_NO_NEED_PARTS : MaskType := 0x80
def FLAG_PARTIAL : MaskType := 0x100

/-- `QueueItem::Source` — a user the file can be downloaded from, and why it may not be. -/
structure Source where
  user : HintedUser
  flags : MaskType
  partsInfo : List Nat
deriving DecidableEq, Repr

/-- `Source(aUser)` -/
def Source.ofUser (aUser : HintedUser) : Source := ⟨aUser, 0, []⟩

end QueueItem

open QueueItem in
structure QueueItem where
  target : Str
  size : Int
  priority : Priority
  autoPriority : Bool
  timeAdded : Int
  timeFinished : Int
  token : QueueToken
  flags : MaskType
  tthRoot : TTHValue
  tempTarget : Str
  done : SegmentSet
  maxSegments : Nat
  bundle : Option BundlePtr
  lastSource : Str
  status : Status
  sources : List QueueItem.Source
  badSources : List QueueItem.Source
deriving DecidableEq

namespace QueueItem

/-! ## Construction -/

def FLAG_USER_LIST : MaskType := 0x01
def FLAG_CLIENT_VIEW : MaskType := 0x04

/-- `getMaxSegments` -/
def getMaxSegments (st : Settings) (aFileSize : Int) : Nat :=
  if st.segmentsManual then min (st.numberOfSegments % 256) 10
  else if aFileSize ≥ 2 * 1048576 ∧ aFileSize < 15 * 1048576 then 2
  else if aFileSize ≥ 15 * 1048576 ∧ aFileSize < 30 * 1048576 then 3
  else if aFileSize ≥ 30 * 1048576 ∧ aFileSize < 60 * 1048576 then 4
  else if aFileSize ≥ 60 * 1048576 ∧ aFileSize < 120 * 1048576 then 5
  else if aFileSize ≥ 120 * 1048576 ∧ aFileSize < 240 * 1048576 then 6
  else if aFileSize ≥ 240 * 1048576 ∧ aFileSize < 480 * 1048576 then 7
  else if aFileSize ≥ 480 * 1048576 ∧ aFileSize < 960 * 1048576 then 8
  else if aFileSize ≥ 960 * 1048576 ∧ aFileSize < 1920 * 1048576 then 9
  else if aFileSize ≥ 1920 * 1048576 then 10
  else 1

/-- The priority an item without one of its own gets from its size, and whether it is
    automatic. -/
def defaultPriority (st : Settings) (aSize : Int) : Priority × Bool :=
  if aSize ≤ st.prioHighestSize * 1024 then (.highest, false)
  else if aSize ≤ st.prioHighSize * 1024 then (.high, false)
  else if aSize ≤ st.prioNormalSize * 1024 then (.normal, false)
  else if aSize ≤ st.prioLowSize * 1024 then (.low, false)
  else if st.prioLowest then (.lowest, false)
  else if st.autoPriorityDefault then (.low, true)
  else (.normal, false)

/-- The constructor. Items without a bundle are always at the highest priority. -/
def create (st : Settings) (aTarget : Str) (aSize : Int) (aPriority : Priority)
    (aFlag : MaskType) (aAdded : Int) (tth : TTHValue) (aTempTarget : Str) (token : QueueToken) :
    QueueItem :=
  let noBundle := isSet aFlag FLAG_USER_LIST || isSet aFlag FLAG_CLIENT_VIEW
  let prio :=
    if noBundle then (.highest, false)
    else if aPriority = .default then defaultPriority st aSize
    else (aPriority, false)
  { target := aTarget, size := aSize, priority := prio.1, autoPriority := prio.2
    timeAdded := aAdded, timeFinished := 0, token := token, flags := aFlag, tthRoot := tth
    tempTarget := aTempTarget, done := OrderedSet.empty
    maxSegments := if noBundle then 1 else getMaxSegments st aSize
    bundle := none, lastSource := [], status := .new, sources := [], badSources := [] }

/-- A new file of a given size. -/
def sample (size : Int) : QueueItem :=
  create {} (str "/dl/file") size .normal 0 0 (Vector.replicate 24 0) [] 1

/-! ## Sources of an item -/

/-- `find(sources.begin(), sources.end(), aUser)` -/
def getSource (q : QueueItem) (aUser : UserPtr) : Option Source :=
  q.sources.find? fun s => s.user.user == aUser

def getBadSource (q : QueueItem) (aUser : UserPtr) : Option Source :=
  q.badSources.find? fun s => s.user.user == aUser

def isSource (q : QueueItem) (aUser : UserPtr) : Bool := (q.getSource aUser).isSome

def isBadSource (q : QueueItem) (aUser : UserPtr) : Bool := (q.getBadSource aUser).isSome

/-- A user that has been a source before comes back with what was known about it. -/
def addSource (q : QueueItem) (aUser : HintedUser) : QueueItem :=
  match q.getBadSource aUser.user with
  | some i =>
    { q with
      sources := q.sources ++ [i]
      badSources := q.badSources.eraseP fun s => s.user.user == aUser.user }
  | none => { q with sources := q.sources ++ [Source.ofUser aUser] }

def removeSource (q : QueueItem) (aUser : UserPtr) (reason : MaskType) : QueueItem :=
  match q.getSource aUser with
  | some i =>
    { q with
      badSources := q.badSources ++ [{ i with flags := setFlag i.flags reason }]
      sources := q.sources.eraseP fun s => s.user.user == aUser }
  | none => q

/-! ## Status and downloaded bytes -/

def isDownloaded (q : QueueItem) : Bool := decide (Status.downloaded.toNat ≤ q.status.toNat)

def isCompleted (q : QueueItem) : Bool := decide (Status.completed.toNat ≤ q.status.toNat)

/-- All of the file is one finished segment. -/
def segmentsDone (q : QueueItem) : Bool := q.done.toList == [⟨0, q.size⟩]

/-- The bytes of the finished segments. -/
def getDownloadedSegments (q : QueueItem) : Int := SegmentSet.total q.done.toList

/-! ## Finished segments -/

/-- The loop of `addFinishedSegment`. `iter` is what is left to visit, `done` the set as it is
    now, and `added` the bytes the first merge reported, if there was one: later merges report
    nothing. -/
def consolidate (aSegment : Segment) (done : SegmentSet) (added : Option Int) :
    List Segment → SegmentSet × Option Int
  | [] => (done, added)
  | i :: iter =>
    match done.pred? i with
    | none => consolidate aSegment done added iter
    | some prev =>
      if prev.getEnd ≥ i.start then
        let big := Segment.between prev.start i.getEnd
        -- minus the part that has been counted before
        let newBytes := big.size - (if prev = aSegment then i.size else prev.size)
        consolidate aSegment (((done.erase prev).erase i).insert big) (added <|> some newBytes)
          iter
      else consolidate aSegment done added iter

/-- The item with `aSegment` among its finished segments, and the bytes reported to the
    bundle. The walk starts at the second element. -/
def addFinishedSegment (q : QueueItem) (aSegment : Segment) : QueueItem × Int :=
  let done := q.done.insert aSegment
  let (done', added) := consolidate aSegment done none done.toList.tail
  ({ q with done := done' }, added.getD aSegment.size)

end QueueItem

end Airdcpp
