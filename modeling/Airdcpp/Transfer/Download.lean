import Airdcpp.Hash.MerkleCheckOutputStream
import Airdcpp.Queue.QueueItem

/-!
# `Transfer/Download` — a file download, from its first byte to the finished segment

A `Download` of a part of a file (`TYPE_FILE`) after `open`: its segment, the trusted tree, and
the stack of output streams, a limit on the number of bytes over the check against the tree
over whatever writes the file. `onData` is what one piece of received data does to it. The
download runs until the limit is used up, which ends it through `endData`, or until an
exception ends it through `failDownload`; either way `putDownloadHooked` hands a segment to
`QueueItem::addFinishedSegment`, and `Put.recorded` is that segment.

The item is looked up when the download is put back, so it is a parameter: it may have been
removed (`none`) or finished by another download in the meantime.
-/

namespace Airdcpp

open Lib

structure Download (V σ : Type*) where
  path : Str
  tempTarget : Str
  segment : Segment
  tt : MerkleTree V
  output : Option (LimitedOutputStream (MerkleCheckOutputStream V σ))
  /-- bytes written to the file -/
  pos : Int
  /-- bytes received -/
  actual : Int

/-- What `putDownloadHooked` leaves of the item, and the segment it has added to it. -/
structure Put where
  q : Option QueueItem
  recorded : Option Segment

inductive Outcome (V σ : Type*)
  | running (d : Download V σ)
  | completed (put : Put)
  | failed (e : Exception) (put : Put)

/-- The segment a completed download has recorded as finished. -/
def Outcome.recorded {V σ : Type*} : Outcome V σ → Option Segment
  | completed put => put.recorded
  | _ => none

/-! ## `QueueManager` -/

namespace QueueManager

variable {V σ : Type*}

/-- `onFileDownloadCompleted`, at time `now` from a user known as `nicks`. -/
def onFileDownloadCompleted (now : Int) (nicks : Str) (aQI : QueueItem)
    (aDownload : Download V σ) : Put :=
  let q := (aQI.addFinishedSegment aDownload.segment).1
  { q := if q.segmentsDone then
      some { q with timeFinished := now, status := .downloaded, lastSource := nicks }
    else some q
    recorded := some aDownload.segment }

/-- `onDownloadFailed`: what was written counts up to the last complete block. -/
def onDownloadFailed (aQI : QueueItem) (aDownload : Download V σ) : Put :=
  let downloaded := aDownload.pos - aDownload.pos % aDownload.tt.blockSize
  if downloaded > 0 then
    let segment : Segment := ⟨aDownload.segment.start, downloaded⟩
    { q := some (aQI.addFinishedSegment segment).1, recorded := some segment }
  else { q := some aQI, recorded := none }

def putDownloadHooked (q : Option QueueItem) (now : Int) (nicks : Str)
    (aDownload : Download V σ) (aFinished : Bool) : Put :=
  match q with
  | none => { q := none, recorded := none }
  | some q =>
    if q.isDownloaded then { q := some q, recorded := none }
    else if !aFinished then onDownloadFailed q aDownload
    else onFileDownloadCompleted now nicks q aDownload

end QueueManager

namespace Download

variable {V σ : Type*} [Inhabited V] [DecidableEq V]

/-! ## `Download` -/

/-- A download of `aSegment` after `open`, with the file's stream at the bottom of the stack. -/
def opened (path tempTarget : Str) (aSegment : Segment) (aTree : MerkleTree V) (file : σ) :
    Download V σ :=
  { path := path, tempTarget := tempTarget, segment := aSegment, tt := aTree
    output := some
      { s := MerkleCheckOutputStream.create aTree file aSegment.start.toNat
        maxBytes := aSegment.size.toNat }
    pos := 0, actual := 0 }

variable (h : Hasher V) (os : OutputStream σ)

/-- An exception of the streams ends here. -/
def flush (d : Download V σ) : Download V σ :=
  match d.output with
  | none => d
  | some output =>
    if d.actual > 0 then
      { d with output := some (output.flushBuffers (MerkleCheckOutputStream.ops h os) false).2 }
    else d

theorem flush_segment (d : Download V σ) : (flush h os d).segment = d.segment := by
  unfold flush
  cases d.output with
  | none => rfl
  | some output =>
    simp only
    split <;> rfl

def close (d : Download V σ) : Download V σ := { d with output := none }

/-! ## `DownloadManager` -/

variable (q : Option QueueItem) (now : Int) (nicks : Str)

def removeDownload (d : Download V σ) : Download V σ := flush h os d

def failDownload (d : Download V σ) (e : Exception) : Outcome V σ :=
  .failed e (QueueManager.putDownloadHooked q now nicks (removeDownload h os d).close false)

def endData (d : Download V σ) : Outcome V σ :=
  .completed (QueueManager.putDownloadHooked q now nicks (removeDownload h os d).close true)

/-- `on(Data)` -/
def onData (d : Download V σ) (aData : Str) : Outcome V σ :=
  match d.output with
  | none => .running d
  | some output =>
    match output.write (MerkleCheckOutputStream.ops h os) aData with
    | (.error e, output) => failDownload h os q now nicks { d with output := some output } e
    | (.ok n, output) =>
      let d := { d with
        output := some output, pos := d.pos + n, actual := d.actual + aData.length }
      if output.eof then endData h os q now nicks d else .running d

/-- Data arrives until the download ends. -/
def run (d : Download V σ) : List Str → Outcome V σ
  | [] => .running d
  | aData :: rest =>
    match onData h os q now nicks d aData with
    | .running d => run d rest
    | ended => ended

end Download

end Airdcpp
