import Airdcpp.Lib.ListOps
import Airdcpp.Queue.QueueItem

/-!
# `Queue/Bundle` — a group of queued files

The record behind a `BundlePtr` and the methods of `Bundle`. A bundle holds pointers to its
items, so a method that reads an item's fields takes the items as a function `item` from
pointers to records (the item half of `Queue/Heap`); no method of `Bundle` changes an item.

What is here keeps three redundant views of the same items in step, each by its own methods:
the lists `queueItems` and `finishedFiles` with the byte counters `size` and
`finishedSegments`; the download queues `userQueue`, per priority and user; and the per-user
statistics `sources` and `badSources`. The invariants that tie them together are proved in
`Queue/BundleAccounting` and `Queue/SourceQueues`.

`userQueue` is an array of hash maps that are only ever looked up by key, so it is a function
from a priority and a user to the deque stored there, if one is.
-/

namespace Airdcpp

open Lib

namespace Bundle

/-- `Bundle::Status`, in the order its comparisons use. -/
inductive Status
  | new
  | queued
  | downloadError
  | recheck
  | downloaded
  | validationRunning
  | validationError
  | completed
  | shared
deriving DecidableEq, Repr, Inhabited

/-- The enumerator's value. -/
def Status.toNat : Status → Nat
  | new => 0
  | queued => 1
  | downloadError => 2
  | recheck => 3
  | downloaded => 4
  | validationRunning => 5
  | validationError => 6
  | completed => 7
  | shared => 8

def FLAG_UPDATE_SIZE : MaskType := 0x01

/-- `Bundle::BundleSource` — a user, and how many files and bytes it is a source of. -/
structure BundleSource where
  user : HintedUser
  size : Int
  files : Int
  flags : MaskType
deriving DecidableEq, Repr

/-- `BundleSource(aUser, aSize, aFlags)` — it starts out with one file. -/
def BundleSource.ofUser (aUser : HintedUser) (aSize : Int) (aFlags : MaskType) : BundleSource :=
  ⟨aUser, aSize, 1, aFlags⟩

end Bundle

structure Bundle where
  target : Str
  size : Int
  priority : Priority
  autoPriority : Bool
  timeAdded : Int
  token : QueueToken
  flags : MaskType
  status : Bundle.Status
  bundleDate : Int
  resumeTime : Int
  seqOrder : Bool
  addedByAutoSearch : Bool
  fileBundle : Bool
  dirty : Bool
  recent : Bool
  finishedSegments : Int
  queueItems : List QueueItemPtr
  finishedFiles : List QueueItemPtr
  sources : List Bundle.BundleSource
  badSources : List Bundle.BundleSource
  userQueue : Priority → UserPtr → Option (List QueueItemPtr)

namespace Bundle

/-- A directory bundle without files. -/
def sample : Bundle :=
  { target := str "/dl/", size := 0, priority := .normal, autoPriority := false, timeAdded := 0
    token := 1, flags := 0, status := .queued, bundleDate := 0, resumeTime := 0, seqOrder := true
    addedByAutoSearch := false, fileBundle := false, dirty := false, recent := false
    finishedSegments := 0, queueItems := [], finishedFiles := [], sources := [], badSources := []
    userQueue := fun _ _ => none }

variable (item : QueueItemPtr → QueueItem)

/-! ## Sizes -/

/-- Bundles that are still being added are not saved. -/
def setDirty (b : Bundle) : Bundle :=
  if b.status ≠ .new then { b with dirty := true } else b

def increaseSize (b : Bundle) (aSize : Int) : Bundle := { b with size := b.size + aSize }

def decreaseSize (b : Bundle) (aSize : Int) : Bundle := { b with size := b.size - aSize }

def addFinishedSegment (b : Bundle) (aSize : Int) : Bundle :=
  setDirty { b with finishedSegments := b.finishedSegments + aSize }

def removeFinishedSegment (b : Bundle) (aSize : Int) : Bundle :=
  { b with finishedSegments := b.finishedSegments - aSize }

/-! ## Items -/

/-- All items of the bundle, queued and finished. -/
def items (b : Bundle) : List QueueItemPtr := b.queueItems ++ b.finishedFiles

def isEmpty (b : Bundle) : Bool := b.queueItems.isEmpty && b.finishedFiles.isEmpty

def filesCompleted (b : Bundle) : Bool :=
  b.queueItems.isEmpty && b.finishedFiles.all fun q => (item q).isCompleted

def isDownloaded (b : Bundle) : Bool := decide (Status.downloaded.toNat ≤ b.status.toNat)

def addFinishedItem (b : Bundle) (qi : QueueItemPtr) (aFinished : Bool) : Bundle :=
  let b := { b with finishedFiles := b.finishedFiles ++ [qi] }
  if !aFinished then
    (b.increaseSize (item qi).size).addFinishedSegment (item qi).size
  else b

def removeFinishedItem (b : Bundle) (aQI : QueueItemPtr) : Bundle :=
  if aQI ∈ b.finishedFiles then
    let b := (b.decreaseSize (item aQI).size).removeFinishedSegment (item aQI).getDownloadedSegments
    { b with finishedFiles := swapRemove aQI b.finishedFiles }
  else b

def addQueue (b : Bundle) (qi : QueueItemPtr) : Bundle :=
  if (item qi).isDownloaded then b.addFinishedItem item qi false
  else
    let b := { b with queueItems := b.queueItems ++ [qi] }
    (b.increaseSize (item qi).size).addFinishedSegment (item qi).getDownloadedSegments

def removeQueue (b : Bundle) (aQI : QueueItemPtr) (aFileCompleted : Bool) : Bundle :=
  if !aFileCompleted && (item aQI).isDownloaded then b.removeFinishedItem item aQI
  else
    let b :=
      if aQI ∈ b.queueItems then { b with queueItems := swapRemove aQI b.queueItems } else b
    if !aFileCompleted then
      let b :=
        if (item aQI).getDownloadedSegments > 0 then
          b.removeFinishedSegment (item aQI).getDownloadedSegments
        else b
      let b := b.decreaseSize (item aQI).size
      { b with flags := setFlag b.flags FLAG_UPDATE_SIZE }
    else b.addFinishedItem item aQI true

end Bundle

end Airdcpp
