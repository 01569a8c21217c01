import Airdcpp.Lib.CountMap
import Airdcpp.Lib.Runs
import Airdcpp.Lib.SortedVector
import Airdcpp.Util.NoCase
import Airdcpp.Util.PathUtil

/-!
# `Hash/Hasher` — the queue of one hasher

Files are queued in the order of their paths; the hasher's thread takes the first one, reads it and
takes the lock again to finish it. Meanwhile files can be queued, a directory can be withdrawn, and
`stop` throws the whole queue away.

`totalBytesLeft` is an `atomic<int64_t>`. What the file system answers (sizes, chunks, the end of a
file, an exception) comes with the operations. The check of `stopping` before an item is taken is
made without the lock, so it excludes nothing here.
-/

namespace Airdcpp
namespace HashManager

/-- `int64_t` arithmetic. -/
def int64 (n : Int) : Int := n.bmod (2 ^ 64)

structure WorkItem where
  filePath : Str
  fileSize : Int
  deviceId : Int
  filePathLower : Str
deriving DecidableEq, Repr

/-- `PathSortOrderInt` of the `NameLower`: by directory first. -/
def WorkItem.order (a : WorkItem) : Str ×ₗ Str :=
  toLex (PathUtil.getFilePath a.filePathLower, a.filePathLower)

/-- Where `hashFile(wi)` is. -/
inductive HashStage
  | taken
  | reading
  | returned
deriving DecidableEq, Repr

/-- The item being hashed; `cleared` records that the queue was thrown away meanwhile. -/
structure Hashing where
  wi : WorkItem
  sizeLeft : Int
  stage : HashStage := .taken
  cleared : Bool := false
deriving DecidableEq, Repr

structure Hasher where
  w : Lib.SortedVector WorkItem.order := .empty
  devices : Int → Option Nat := fun _ => none
  totalBytesLeft : Int := 0
  stopping : Bool := false
  hashing : Option Hashing := none

namespace Hasher

inductive Op
  | hashFile (fileName filePathLower : Str) (size : Int) (aDeviceId : Int)
  | stopHashing (aBaseDir : Str)
  | clear
  | stop
  | popFront
  | openFile (size : Int)
  | readChunk (n : Nat)
  | endOfFile
  | throwFileException
  | finish
  | leaveQueue

/-- `removeDevice` -/
def removeDevice (h : Hasher) (aDevice : Int) : Hasher :=
  { h with devices := Lib.CountMap.drop h.devices aDevice }

/-- `clear`, with `clearStats` -/
def clear (h : Hasher) : Hasher :=
  { h with
    w := .empty
    devices := fun _ => none
    totalBytesLeft := 0
    hashing := h.hashing.map fun c => { c with cleared := true } }

/-- One item leaves the queue; the loop takes it out of `w`. -/
def eraseItem (h : Hasher) (i : WorkItem) : Hasher :=
  removeDevice { h with totalBytesLeft := int64 (h.totalBytesLeft - i.fileSize) } i.deviceId

def eraseItems (h : Hasher) (stopped : WorkItem → Bool) : Hasher :=
  { (h.w.toList.filter stopped).foldl eraseItem h with w := h.w.filter fun i => !stopped i }

def stopHashing (locale : Locale) (h : Hasher) (aBaseDir : Str) : Hasher :=
  h.eraseItems fun i => Util.isParentOrExact locale aBaseDir i.filePath PathUtil.PATH_SEPARATOR

/-- The callback of the reader. -/
def readChunk (h : Hasher) (c : Hashing) (n : Nat) : Hasher :=
  { h with
    totalBytesLeft :=
      if 0 < h.totalBytesLeft then int64 (h.totalBytesLeft - n) else h.totalBytesLeft
    hashing := some { c with
      sizeLeft := c.sizeLeft - n
      stage := if h.stopping then .returned else .reading } }

/-- The last section of `processQueue`: with an empty queue the statistics are cleared. -/
def finish (h : Hasher) (c : Hashing) : Hasher :=
  { removeDevice h c.wi.deviceId with
    totalBytesLeft := if h.w.toList = [] then 0 else h.totalBytesLeft
    hashing := none }

def next (locale : Locale) (h : Hasher) : Op → Hasher
  | .hashFile fileName filePathLower size aDeviceId =>
    let wi : WorkItem := ⟨fileName, size, aDeviceId, filePathLower⟩
    if (h.w.find wi.order).isSome then h
    else
      { h with
        w := h.w.insert wi
        devices := Lib.CountMap.bump h.devices aDeviceId
        totalBytesLeft := int64 (h.totalBytesLeft + size) }
  | .stopHashing aBaseDir => stopHashing locale h aBaseDir
  | .clear => clear h
  | .stop => { clear h with stopping := true }
  | .popFront =>
    match h.w.toList with
    | [] => h
    | wi :: _ => { h with w := h.w.popFront, hashing := some { wi := wi, sizeLeft := wi.fileSize } }
  | .openFile size =>
    match h.hashing with
    | none => h
    | some c =>
      -- size changed since adding?
      { h with
        totalBytesLeft := int64 (h.totalBytesLeft + int64 (size - c.wi.fileSize))
        hashing := some { c with sizeLeft := size, stage := .reading } }
  | .readChunk n =>
    match h.hashing with
    | none => h
    | some c => readChunk h c n
  | .endOfFile => { h with hashing := h.hashing.map fun c => { c with stage := .returned } }
  | .throwFileException =>
    match h.hashing with
    | none => h
    | some c =>
      { h with
        totalBytesLeft := int64 (h.totalBytesLeft - c.sizeLeft)
        hashing := some { c with stage := .returned } }
  | .finish =>
    match h.hashing with
    | none => h
    | some c => finish h c
  | .leaveQueue => { h with stopping := false }

/-- `hashFile(wi)` is at one of these stages. -/
def isAt (h : Hasher) (stages : List HashStage) : Bool :=
  match h.hashing with
  | none => false
  | some c => c.stage ∈ stages

/-- When each can happen. Queued sizes are those of files; an open file's size is -1 where the
    system does not tell it. -/
def Allowed (h : Hasher) : Op → Prop
  | .hashFile _ _ size _ => 0 ≤ size ∧ size < 2 ^ 63
  | .stopHashing _ | .clear | .stop => True
  | .popFront => h.hashing = none ∧ h.w.toList ≠ []
  | .openFile size => h.isAt [.taken] = true ∧ -1 ≤ size ∧ size < 2 ^ 63
  | .readChunk _ => h.isAt [.reading] = true
  | .endOfFile => h.isAt [.reading] = true
  | .throwFileException => h.isAt [.taken, .reading] = true
  | .finish => h.isAt [.returned] = true
  | .leaveQueue => h.hashing = none

def system (locale : Locale) : Lib.System Hasher Op where
  next := next locale
  allowed := Allowed

def Initial (h : Hasher) : Prop := h = {}

/-! ## What the counters stand for -/

/-- The devices of what is queued or being hashed. -/
def queuedDevices (h : Hasher) : List Int :=
  h.hashing.toList.map (fun c => c.wi.deviceId) ++ h.w.toList.map (·.deviceId)

def queuedBytes (h : Hasher) : Int := (h.w.toList.map (·.fileSize)).sum

/-- The unread part of the item being hashed, unless the queue was cleared since. -/
def unread (h : Hasher) : Int :=
  match h.hashing with
  | none => 0
  | some c => if c.cleared ∨ c.stage = .returned then 0 else c.sizeLeft

structure Accounted (h : Hasher) : Prop where
  devices : ∀ d, h.devices d =
    if h.queuedDevices.count d = 0 then none else some (h.queuedDevices.count d)
  bytes : h.totalBytesLeft = h.queuedBytes + h.unread
  nonneg : 0 ≤ h.totalBytesLeft

/-- Nothing interferes with the item being hashed: the queue is not thrown away meanwhile, its file
    has a size, keeps it and is read to the end; and the sizes add up to an `int64_t`. -/
def Undisturbed (h : Hasher) : Op → Prop
  | .hashFile _ _ size _ => h.queuedBytes + h.unread + size < 2 ^ 63
  | .clear | .stop => h.hashing = none
  | .openFile size => 0 ≤ size ∧ h.queuedBytes + size < 2 ^ 63
  | .readChunk n => ∀ c ∈ h.hashing, n ≤ c.sizeLeft ∧ (h.stopping = true → n = c.sizeLeft)
  | .endOfFile => ∀ c ∈ h.hashing, c.sizeLeft = 0
  | _ => True

end Hasher
end HashManager
end Airdcpp
