import Airdcpp.Lib.Runs
import Airdcpp.Queue.PartsInfo
import Airdcpp.Queue.SourceUpdates

/-!
# `Queue/QueueOperations` — what the queue manager does to the items and their sources

Items come and go, are finished and queued again, and change their priorities, and users become
sources and stop being sources. Each of these takes an item out of the lists before its record
changes, and puts it back afterwards where it is still waiting for its download.
-/

namespace Airdcpp

open Lib ListMap

namespace QueueItem

def FLAG_NO_TREE : MaskType := 0x40
def FLAG_TTH_INCONSISTENCY : MaskType := 0x200

/-- `Source::FLAG_MASK` -/
def FLAG_MASK : MaskType := 0x01 ||| 0x04 ||| 0x10 ||| 0x20 ||| 0x40 ||| 0x200 ||| 0x400

def MAX_SIZE_WO_TREE : Int := 20 * 1024 * 1024

/-- Whether the user may not be added again is the first component, and the second whether it has
    been a source before. -/
def isBadSourceExcept (q : QueueItem) (aUser : UserPtr) (aExceptions : MaskType) : Bool × Bool :=
  match q.getBadSource aUser with
  | some i => (isAnySet i.flags (aExceptions ^^^ FLAG_MASK), true)
  | none => (false, false)

/-- Change the source of a user. -/
def modifySource (f : Source → Source) (aUser : UserPtr) (l : List Source) : List Source :=
  l.map fun i => if i.user.user == aUser then f i else i

end QueueItem

namespace SourceQueues

/-! ## Items -/

/-- `FileQueue::add` of an item that is not in the queue. -/
def addFile (s : SourceQueues) (q : QueueItemPtr) (v : QueueItem) : SourceQueues :=
  { s with heap := s.heap.setItem q v, fileQueue := s.fileQueue ++ [q] }

/-- `FileQueue::remove` -/
def removeFile (s : SourceQueues) (q : QueueItemPtr) : SourceQueues :=
  { s with fileQueue := s.fileQueue.erase q }

def addBundleItem (s : SourceQueues) (q : QueueItemPtr) (b : BundlePtr) : SourceQueues :=
  { s with heap := s.heap.joinBundle b q ((s.bundle b).addQueue s.item q) }

def removeBundleItem (s : SourceQueues) (q : QueueItemPtr) (aFinished : Bool) : SourceQueues :=
  match (s.item q).bundle with
  | some b => s.setBundle b ((s.bundle b).removeQueue s.item q aFinished)
  | none => s

/-- A new file of a bundle. The highest priority would not be started in a paused bundle. -/
def addBundleFile (s : SourceQueues) (q : QueueItemPtr) (v : QueueItem) (aBundle : BundlePtr) :
    SourceQueues :=
  let v :=
    if (s.bundle aBundle).priority = .paused ∧ v.priority = .highest then
      { v with priority := .high }
    else v
  (s.addFile q v).addBundleItem q aBundle

/-- `removeQI` of the queue manager -/
def removeItem (s : SourceQueues) (q : QueueItemPtr) : SourceQueues :=
  let s := if !(s.item q).isDownloaded then s.removeQIs q else s
  (s.removeFile q).removeBundleItem q false

/-- The items of a bundle are removed with it. -/
def removeBundleItems (s : SourceQueues) (aBundle : BundlePtr) : SourceQueues :=
  ((s.bundle aBundle).finishedFiles ++ (s.bundle aBundle).queueItems).foldl removeItem s

variable (locale : Locale) (st : Settings)

/-! ## Sources -/

/-- `getBundle()->setDirty()` -/
def setDirty (s : SourceQueues) (q : QueueItemPtr) : SourceQueues :=
  { s with heap := s.heap.onBundle q Bundle.setDirty }

/-- `none` when an exception is thrown. -/
def addValidatedSource (s : SourceQueues) (qi : QueueItemPtr) (aUser : HintedUser)
    (aAddBad : MaskType) (rand : Nat) : Option SourceQueues :=
  let v := s.item qi
  if v.isDownloaded then none
  else if v.isSource aUser.user then
    if isSet v.flags QueueItem.FLAG_USER_LIST then some s else none
  else
    let bad := v.isBadSourceExcept aUser.user aAddBad
    if bad.1 then none
    else
      some (((s.setItem qi (v.addSource aUser)).addQI locale st qi aUser bad.2 rand).setDirty qi)

/-- A user that has some parts of a file. Nothing is done for a user that has none that are needed,
    unless its parts are known already. -/
def addPartialSource (s : SourceQueues) (qi : QueueItemPtr) (aUser : HintedUser)
    (aInPartialInfo : PartsInfo) (blockSize : Int) (rand : Nat) : SourceQueues :=
  let v := s.item qi
  let setParts := QueueItem.modifySource (fun i => { i with partsInfo := aInPartialInfo }) aUser.user
  if v.isSource aUser.user then s.setItem qi { v with sources := setParts v.sources }
  else
    let bad := v.getBadSource aUser.user
    if bad.any fun i => isSet i.flags QueueItem.FLAG_TTH_INCONSISTENCY then s
    else if v.isNeededPart aInPartialInfo blockSize then
      let w := v.addSource aUser
      let setPartial := QueueItem.modifySource
        (fun i => { i with flags := setFlag i.flags QueueItem.FLAG_PARTIAL }) aUser.user
      let s :=
        (s.setItem qi { w with sources := setPartial w.sources }).addQI locale st qi aUser false rand
      s.setItem qi { s.item qi with sources := setParts (s.item qi).sources }
    else if bad.isSome then s.setItem qi { v with badSources := setParts v.badSources }
    else s

/-- A file list is removed from the queue with its source. A small file does not need its tree. -/
def removeFileSource (s : SourceQueues) (q : QueueItemPtr) (aUser : UserPtr) (aReason : MaskType) :
    SourceQueues :=
  let v := s.item q
  let marked :=
    { v with
      sources := QueueItem.modifySource (fun i => { i with flags := setFlag i.flags aReason }) aUser
        v.sources }
  if !v.isSource aUser then s
  else if v.isDownloaded then s
  else if isSet v.flags QueueItem.FLAG_USER_LIST then (s.setItem q marked).removeItem q
  else if aReason = QueueItem.FLAG_NO_TREE ∧ v.size < QueueItem.MAX_SIZE_WO_TREE then
    s.setItem q marked
  else
    let v := if aReason = QueueItem.FLAG_NO_TREE then marked else v
    let s := (s.setItem q v).removeQI q aUser aReason
    (s.setItem q ((s.item q).removeSource aUser aReason)).setDirty q

/-- What `getDownload` does with a partial source that has no needed parts. -/
def removePartialSource (s : SourceQueues) (q : QueueItemPtr) (user : UserPtr) : SourceQueues :=
  let s := s.removeQI q user 0
  s.setItem q ((s.item q).removeSource user QueueItem.FLAG_NO_NEED_PARTS)

/-! ## Finished items -/

/-- All segments of the file are there. -/
def finishFile (s : SourceQueues) (q : QueueItemPtr) (time : Int) : SourceQueues :=
  if (s.item q).isDownloaded then s
  else
    let s := s.setItem q { s.item q with timeFinished := time, status := .downloaded }
    let s := s.removeQIs q
    if (s.item q).bundle.isNone then s.removeFile q else s.removeBundleItem q true

/-- `handleFailedRecheckItems`, for one of the items. -/
def requeue (s : SourceQueues) (q : QueueItemPtr) (b : BundlePtr) (rand : UserPtr → Nat) :
    SourceQueues :=
  let s := s.removeBundleItem q false
  let s := s.setItem q { s.item q with status := .queued, bundle := none, timeFinished := 0 }
  (s.addBundleItem q b).addQIs locale st q rand

/-! ## Priorities and orders -/

/-- `setBundlePriority` of the queue manager, for a priority that is not the default one. -/
def changeBundlePriority (s : SourceQueues) (aBundle : BundlePtr) (p : Priority)
    (aKeepAutoPrio : Bool) (aResumeTime : Int) (rand : UserPtr → Nat) : SourceQueues :=
  let b := s.bundle aBundle
  if b.status = .recheck then s
  else if b.priority = p then s.setBundle aBundle { b with resumeTime := aResumeTime }
  else if b.isDownloaded then s
  else
    let s := s.setBundlePriority aBundle p
    let b := s.bundle aBundle
    let s := s.setBundle aBundle
      { b with autoPriority := aKeepAutoPrio && b.autoPriority, resumeTime := aResumeTime }
    match (s.bundle aBundle).fileBundle, (s.bundle aBundle).queueItems with
    | true, qi :: _ =>
      let s := s.setQIPriority locale st qi p rand
      s.setItem qi { s.item qi with autoPriority := (s.bundle aBundle).autoPriority }
    | _, _ => s

/-- `setQIPriority` of the queue manager, for a priority that is not the default one. Items without
    a bundle always use the highest one. -/
def changeItemPriority (s : SourceQueues) (q : QueueItemPtr) (p : Priority) (aKeepAutoPrio : Bool)
    (rand : UserPtr → Nat) : SourceQueues :=
  match (s.item q).bundle with
  | none => s
  | some b =>
    if (s.bundle b).fileBundle then s.changeBundlePriority locale st b p false 0 rand
    else
      let s :=
        if (s.item q).priority ≠ p ∧ (s.item q).isDownloaded = false then
          let s := s.setItem q
            { s.item q with autoPriority := aKeepAutoPrio && (s.item q).autoPriority }
          s.setQIPriority locale st q p rand
        else s
      s.setDirty q

def onUseSeqOrder (s : SourceQueues) (b : BundlePtr) (rand : QueueItemPtr → UserPtr → Nat) :
    SourceQueues :=
  let s := s.setBundle b { s.bundle b with seqOrder := !(s.bundle b).seqOrder }
  (s.bundle b).queueItems.foldl (fun s q =>
    if (s.item q).isPausedPrio (some (s.bundle b).priority) then s
    else (s.removeQIs q).addQIs locale st q (rand q)) s

/-- A failed download of a file goes to the end of the user's list. -/
def rotate (s : SourceQueues) (q : QueueItemPtr) (aUser : UserPtr) : SourceQueues :=
  match (s.item q).bundle with
  | some b => s.setBundle b ((s.bundle b).rotateUserQueue s.item q aUser)
  | none => s

end SourceQueues
end Airdcpp
