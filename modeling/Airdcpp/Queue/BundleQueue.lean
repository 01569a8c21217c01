import Airdcpp.Lib.SortedVector
import Airdcpp.Queue.Heap
import Airdcpp.Queue.PathWalk

/-!
# `Queue/BundleQueue` — the bundles of the queue and their directories

The bundle queue knows the bundles by token, the sum of the sizes that are still to be
downloaded, and for every directory of a directory bundle how many files are below it
(`PathInfo`). The directories are found in two ways: by the bundle's target (`bundlePaths`) and
by their own name (`dirNameMap`).

A `PathInfo` lives in the vector of its bundle; `dirNameMap` refers to it by what its
`operator==` compares, the bundle and the path. Both maps ignore case. `foldCase` is what
`Util::stricmp` compares strings by, and a parameter here: nothing depends on which characters
it identifies.

The counters are `size_t`. They are integers here, so that a counter that is decremented below
zero is seen to be negative where the source wraps around to the largest number; neither is
zero, so `forEachPath` treats them alike.

`searchQueue`, the other member of the bundle queue, has a model of its own in
`Queue/PrioritySearchQueue`.
-/

namespace Airdcpp

open Lib
open PathUtil

namespace BundleQueue

/-- The members of a `PathInfo` that a `PathInfoHandler` can change. -/
structure PathCounts where
  queuedFiles : Int := 0
  finishedFiles : Int := 0
  size : Int := 0
deriving DecidableEq, Repr

structure PathInfo where
  path : Str
  bundle : BundlePtr
  count : PathCounts
deriving DecidableEq, Repr

/-- `PathInfo::List` -/
abbrev PathInfos := SortedVector PathInfo.path

end BundleQueue

open BundleQueue in
structure BundleQueue where
  dirNameMap : Str → List (BundlePtr × Str)
  bundlePaths : Str → Option PathInfos
  bundles : QueueToken → Option BundlePtr
  queueSize : Int

namespace BundleQueue

def empty : BundleQueue := ⟨fun _ => [], fun _ => none, fun _ => none, 0⟩

variable (foldCase : Str → Str)

/-! ## Path infos -/

/-- `bundlePaths[&aTarget]`, which is empty for a target that is not there. -/
def pathInfos (bq : BundleQueue) (aTarget : Str) : PathInfos :=
  (bq.bundlePaths (foldCase aTarget)).getD SortedVector.empty

/-- Look up a directory of a bundle. -/
def findPathInfo (bq : BundleQueue) (aTarget aPath : Str) : Option PathInfo :=
  (bq.pathInfos foldCase aTarget).find aPath

def addPathInfo (bq : BundleQueue) (aPath : Str) (aBundle : BundlePtr) (aTarget : Str) :
    BundleQueue :=
  let name := foldCase (getLastDir aPath)
  { bq with
    dirNameMap := Function.update bq.dirNameMap name (bq.dirNameMap name ++ [(aBundle, aPath)])
    bundlePaths := Function.update bq.bundlePaths (foldCase aTarget)
      (some ((bq.pathInfos foldCase aTarget).insert ⟨aPath, aBundle, {}⟩)) }

/-- A vector that is empty afterwards is removed as well. -/
def removePathInfo (bq : BundleQueue) (aTarget : Str) (aPathInfo : PathInfo) : BundleQueue :=
  let name := foldCase (getLastDir aPathInfo.path)
  let pathInfos := (bq.pathInfos foldCase aTarget).erase aPathInfo.path
  { bq with
    dirNameMap := Function.update bq.dirNameMap name
      ((bq.dirNameMap name).erase (aPathInfo.bundle, aPathInfo.path))
    bundlePaths := Function.update bq.bundlePaths (foldCase aTarget)
      (if pathInfos.toList.isEmpty then none else some pathInfos) }

/-- `aHandler(*info)` -/
def handlePathInfo (bq : BundleQueue) (aTarget aPath : Str) (aHandler : PathCounts → PathCounts) :
    BundleQueue :=
  { bq with
    bundlePaths := Function.update bq.bundlePaths (foldCase aTarget)
      (some ((bq.pathInfos foldCase aTarget).modify aPath
        (fun info => { info with count := aHandler info.count }) fun _ => rfl)) }

/-- One round of the loop of `forEachPath`. -/
def visitPath (aBundle : BundlePtr) (aTarget : Str) (aHandler : PathCounts → PathCounts)
    (bq : BundleQueue) (currentPath : Str) : BundleQueue :=
  let bq :=
    if (bq.findPathInfo foldCase aTarget currentPath).isNone then
      bq.addPathInfo foldCase currentPath aBundle aTarget
    else bq
  let bq := bq.handlePathInfo foldCase aTarget currentPath aHandler
  match bq.findPathInfo foldCase aTarget currentPath with
  | some info =>
    if info.count.finishedFiles = 0 ∧ info.count.queuedFiles = 0 then
      bq.removePathInfo foldCase aTarget info
    else bq
  | none => bq

/-- Handle each directory from the file's own up to the bundle's target; `none` if the loop does
    not end. -/
def forEachPath (bq : BundleQueue) (aBundle : BundlePtr) (aTarget aFilePath : Str)
    (aHandler : PathCounts → PathCounts) : Option BundleQueue :=
  (pathsUp aTarget (getFilePath aFilePath)).map fun paths =>
    paths.foldl (visitPath foldCase aBundle aTarget aHandler) bq

/-! ## Items -/

/-- The handler of `addBundleItem`. -/
def countAdded (aQI : QueueItem) (aInfo : PathCounts) : PathCounts :=
  let aInfo :=
    if aQI.isDownloaded then { aInfo with finishedFiles := aInfo.finishedFiles + 1 }
    else { aInfo with queuedFiles := aInfo.queuedFiles + 1 }
  { aInfo with size := aInfo.size + aQI.size }

/-- The handler of `removeBundleItem`. -/
def countRemoved (aQI : QueueItem) (aDownloadFinished : Bool) (aInfo : PathCounts) : PathCounts :=
  let aInfo :=
    if aQI.isDownloaded then { aInfo with finishedFiles := aInfo.finishedFiles - 1 }
    else { aInfo with queuedFiles := aInfo.queuedFiles - 1 }
  if !aDownloadFinished then { aInfo with size := aInfo.size - aQI.size } else aInfo

def addBundleItem (h : Heap) (bq : BundleQueue) (aQI : QueueItemPtr) (aBundle : BundlePtr) :
    Option (Heap × BundleQueue) :=
  let h := h.joinBundle aBundle aQI ((h.bundle aBundle).addQueue h.item aQI)
  let walked :=
    if (h.bundle aBundle).fileBundle then some bq
    else
      bq.forEachPath foldCase aBundle (h.bundle aBundle).target (h.item aQI).target
        (countAdded (h.item aQI))
  walked.map fun bq =>
    (h, if (h.item aQI).isDownloaded then bq
      else { bq with queueSize := bq.queueSize + (h.item aQI).size })

/-- `b` is the item's bundle. -/
def removeBundleItem (h : Heap) (bq : BundleQueue) (aQI : QueueItemPtr) (b : BundlePtr)
    (aDownloadFinished : Bool) : Option (Heap × BundleQueue) :=
  let h := h.setBundle b ((h.bundle b).removeQueue h.item aQI aDownloadFinished)
  let walked :=
    if (h.bundle b).fileBundle then some bq
    else
      bq.forEachPath foldCase b (h.bundle b).target (h.item aQI).target
        (countRemoved (h.item aQI) aDownloadFinished)
  walked.map fun bq =>
    (h, if aDownloadFinished || !(h.item aQI).isDownloaded then
        { bq with queueSize := bq.queueSize - (h.item aQI).size }
      else bq)

/-! ## Bundles -/

def addBundle (h : Heap) (bq : BundleQueue) (aBundle : BundlePtr) : Heap × BundleQueue :=
  let b := h.bundle aBundle
  let status :=
    if b.filesCompleted h.item then Bundle.Status.completed else Bundle.Status.queued
  (h.setBundle aBundle { b with status := status },
    { bq with bundles := Function.update bq.bundles b.token (some aBundle) })

/-- Bundles that were never added are not there to remove. -/
def removeBundle (h : Heap) (bq : BundleQueue) (aBundle : BundlePtr) : BundleQueue :=
  let b := h.bundle aBundle
  if b.status = Bundle.Status.new then bq
  else
    let infos := (bq.pathInfos foldCase b.target).toList
    let bq := infos.foldl (fun bq info => bq.removePathInfo foldCase b.target info) bq
    { bq with bundles := Function.update bq.bundles b.token none }

end BundleQueue

end Airdcpp
