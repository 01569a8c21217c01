import Airdcpp.Lib.Runs
import Airdcpp.Queue.FinishedSegments
import Airdcpp.Queue.Heap

/-!
# `Queue/BundleAccounting` — the byte counters of a bundle over whole runs

`Bundle::size` and `Bundle::finishedSegments` are maintained by six operations that each add or
subtract what they think changed. `Counts` is the identity they are meant to keep: the counters
are the sums of the items' sizes and of their finished bytes.

The runs are those of the six operations, used as the queue uses them (`allowed`): an item is
added to one bundle at a time, an item that is already downloaded when it is added is complete,
an item is completed only while it is queued, and segments are segments of the file. Two further
steps change what the operations look at: an item's status, and an item that left its bundle
forgetting it.

One of the operations gets its share wrong. `addFinishedSegment` reports the bytes of the first
merge only, and all bytes of a segment that was there already; `Miscounts` is the exact
condition, `addFinishedSegment_bytes_iff` says so, and `accounting_of_counted` is the identity
in every run that never meets it.
-/

namespace Airdcpp

open Lib
open SegmentSet

/-! ## Which segments are reported wrong -/

namespace QueueItem

/-- The segment is there already, or it touches the finished segment below it and overlaps the
    one above. -/
def Miscounts (q : QueueItem) (s : Segment) : Prop :=
  s ∈ q.done ∨ ∃ l ∈ q.done.toList, ∃ r ∈ q.done.toList,
    l < s ∧ s < r ∧ s.start ≤ l.getEnd ∧ r.start < s.getEnd

instance (q : QueueItem) (s : Segment) : Decidable (q.Miscounts s) :=
  inferInstanceAs (Decidable (_ ∨ ∃ l ∈ q.done.toList, ∃ r ∈ q.done.toList, _))

theorem Merged.bytes_iff {s : Segment} {below above done : List Segment} {n : Int}
    (hm : Merged s below above done n) (hc : IsCanonical (below ++ above))
    (hbelow : ∀ l ∈ below, l < s) (habove : ∀ r ∈ above, s < r) :
    n = total done - total (below ++ above) ↔
      ¬ ∃ l ∈ below ++ above, ∃ r ∈ below ++ above,
        l < s ∧ s < r ∧ s.start ≤ l.getEnd ∧ r.start < s.getEnd := by
  have hside : ∀ l ∈ below ++ above, l < s → l ∈ below := by
    intro l hl hlt
    rcases List.mem_append.mp hl with h | h
    · exact h
    · exact absurd (habove l h) hlt.asymm
  have hside' : ∀ r ∈ below ++ above, s < r → r ∈ above := by
    intro r hr hlt
    rcases List.mem_append.mp hr with h | h
    · exact absurd (hbelow r h) hlt.asymm
    · exact h
  cases hm with
  | apart hl hr =>
    refine iff_of_true (by simp only [total_append, total_cons]; omega) ?_
    rintro ⟨l, hl', r, -, hls, -, hle, -⟩
    exact absurd hle (not_le.mpr (hl l (hside l hl' hls)))
  | @left init _ l hl hr =>
    refine iff_of_true ?_ ?_
    · simp only [total_append, total_cons, total_nil, Segment.between_size, Segment.getEnd]
      omega
    · rintro ⟨-, -, r, hr', -, hsr, -, hlt⟩
      exact absurd hlt (not_lt.mpr (hr r (hside' r hr' hsr)).le)
  | @right _ rest r hl hr =>
    refine iff_of_true ?_ ?_
    · simp only [total_append, total_cons, Segment.between_size, Segment.getEnd]
      omega
    · rintro ⟨l, hl', -, -, hls, -, hle, -⟩
      exact absurd hle (not_le.mpr (hl l (hside l hl' hls)))
  | @both init rest l r hl hr =>
    -- the bytes from the start of `r` to the end of `s` are reported twice
    have hsum : s.getEnd - l.getEnd =
        total (init ++ Segment.between l.start r.getEnd :: rest) -
          total (init ++ [l] ++ r :: rest) ↔ ¬ r.start < s.getEnd := by
      simp only [total_append, total_cons, total_nil, Segment.between_size, Segment.getEnd] at *
      omega
    rw [hsum]
    refine not_congr ⟨fun hlt => ⟨l, by simp, r, by simp, hbelow l (by simp), habove r (by simp),
      hl, hlt⟩, ?_⟩
    rintro ⟨-, -, r', hr', -, hsr, -, hlt⟩
    rcases List.mem_cons.mp (hside' r' hr' hsr) with rfl | hmem
    · exact hlt
    · obtain ⟨hrpos, _, hrest⟩ := canonical_cons.mp (canonical_append.mp hc).2.1
      exact lt_trans (lt_trans hrpos (hrest r' hmem)) hlt

/-- **The bytes reported are the bytes added exactly when the segment is not miscounted.** -/
theorem addFinishedSegment_bytes_iff {q : QueueItem} {s : Segment}
    (hq : IsCanonical q.done.toList) (hpos : 0 < s.size) :
    (q.addFinishedSegment s).2 =
      (q.addFinishedSegment s).1.getDownloadedSegments - q.getDownloadedSegments ↔
      ¬ q.Miscounts s := by
  by_cases hmem : s ∈ q.done
  · rw [addFinishedSegment_of_mem hq hmem]
    refine iff_of_false ?_ (not_not.mpr (Or.inl hmem))
    simp only [sub_self]
    omega
  · obtain ⟨below, above, hsplit, hbelow, habove, hm⟩ := addFinishedSegment_merged hq hmem
    rw [Miscounts, or_iff_right hmem, getDownloadedSegments, getDownloadedSegments, hsplit]
    exact hm.bytes_iff (hsplit ▸ hq) hbelow habove

end QueueItem

/-! ## The counters of one bundle -/

section Counters

variable {item : QueueItemPtr → QueueItem} {b : Bundle} {q : QueueItemPtr}

/-- The sum of the sizes of some items. -/
def totalSize (item : QueueItemPtr → QueueItem) (l : List QueueItemPtr) : Int :=
  (l.map fun q => (item q).size).sum

/-- The sum of their finished bytes. -/
def totalDownloaded (item : QueueItemPtr → QueueItem) (l : List QueueItemPtr) : Int :=
  (l.map fun q => (item q).getDownloadedSegments).sum

/-- The counters of a bundle are the sums over its items. -/
structure Counts (item : QueueItemPtr → QueueItem) (b : Bundle) : Prop where
  size_eq : b.size = totalSize item b.items
  segments_eq : b.finishedSegments = totalDownloaded item b.items

theorem totalSize_perm (item : QueueItemPtr → QueueItem) {l l' : List QueueItemPtr}
    (h : l.Perm l') :
    totalSize item l = totalSize item l' := (h.map _).sum_eq

theorem totalDownloaded_perm (item : QueueItemPtr → QueueItem) {l l' : List QueueItemPtr}
    (h : l.Perm l') : totalDownloaded item l = totalDownloaded item l' := (h.map _).sum_eq

@[simp] theorem totalSize_cons (l : List QueueItemPtr) :
    totalSize item (q :: l) = (item q).size + totalSize item l := by simp [totalSize]

@[simp] theorem totalDownloaded_cons (l : List QueueItemPtr) :
    totalDownloaded item (q :: l) = (item q).getDownloadedSegments + totalDownloaded item l := by
  simp [totalDownloaded]

namespace Bundle

@[simp] theorem setDirty_size (b : Bundle) : b.setDirty.size = b.size := by
  unfold setDirty; split <;> rfl
@[simp] theorem setDirty_finishedSegments (b : Bundle) :
    b.setDirty.finishedSegments = b.finishedSegments := by unfold setDirty; split <;> rfl
@[simp] theorem setDirty_queueItems (b : Bundle) : b.setDirty.queueItems = b.queueItems := by
  unfold setDirty; split <;> rfl
@[simp] theorem setDirty_finishedFiles (b : Bundle) :
    b.setDirty.finishedFiles = b.finishedFiles := by unfold setDirty; split <;> rfl
@[simp] theorem setDirty_items (b : Bundle) : b.setDirty.items = b.items := by simp [items]

/-- A complete item has all its bytes. -/
theorem getDownloadedSegments_of_segmentsDone {v : QueueItem} (h : v.segmentsDone) :
    v.getDownloadedSegments = v.size := by
  rw [QueueItem.segmentsDone, beq_iff_eq] at h
  rw [QueueItem.getDownloadedSegments, h]
  simp

/-! The items after each operation, up to order. -/

theorem addFinishedItem_items (aFinished : Bool) :
    (b.addFinishedItem item q aFinished).items = b.items ++ [q] := by
  cases aFinished <;> simp [addFinishedItem, increaseSize, addFinishedSegment, items]

theorem addQueue_items (item : QueueItemPtr → QueueItem) (b : Bundle) (q : QueueItemPtr) :
    (b.addQueue item q).items.Perm (q :: b.items) := by
  unfold addQueue
  split
  · rw [addFinishedItem_items]
    exact List.perm_append_singleton q b.items
  · show (setDirty _).items.Perm _
    rw [setDirty_items]
    show (b.queueItems ++ [q] ++ b.finishedFiles).Perm (q :: (b.queueItems ++ b.finishedFiles))
    rw [List.append_assoc]
    exact List.perm_middle

theorem removeFinishedItem_items (item : QueueItemPtr → QueueItem) (h : q ∈ b.finishedFiles) :
    (q :: (b.removeFinishedItem item q).items).Perm b.items := by
  have hperm : (q :: (b.queueItems ++ swapRemove q b.finishedFiles)).Perm
      (b.queueItems ++ b.finishedFiles) := by
    refine List.perm_middle.symm.trans ?_
    exact (swapRemove_perm h).append_left b.queueItems
  simpa [removeFinishedItem, h, items, decreaseSize, removeFinishedSegment] using hperm

/-! Each operation keeps the counters right. -/

theorem counts_addFinishedItem (hc : Counts item b) (hdone : (item q).segmentsDone) :
    Counts item (b.addFinishedItem item q false) := by
  have hitems : (b.addFinishedItem item q false).items.Perm (q :: b.items) := by
    rw [addFinishedItem_items]; exact List.perm_append_singleton q b.items
  refine ⟨?_, ?_⟩
  · rw [totalSize_perm _ hitems, totalSize_cons, ← hc.size_eq]
    simp [addFinishedItem, increaseSize, addFinishedSegment, add_comm]
  · rw [totalDownloaded_perm _ hitems, totalDownloaded_cons, ← hc.segments_eq,
      getDownloadedSegments_of_segmentsDone hdone]
    simp [addFinishedItem, increaseSize, addFinishedSegment, add_comm]

theorem counts_removeFinishedItem (hc : Counts item b) :
    Counts item (b.removeFinishedItem item q) := by
  by_cases h : q ∈ b.finishedFiles
  · have hitems := removeFinishedItem_items item h
    have hsize := totalSize_perm item hitems
    have hsegs := totalDownloaded_perm item hitems
    rw [totalSize_cons] at hsize
    rw [totalDownloaded_cons] at hsegs
    have h₁ : (b.removeFinishedItem item q).size = b.size - (item q).size := by
      simp [removeFinishedItem, h, decreaseSize, removeFinishedSegment]
    have h₂ : (b.removeFinishedItem item q).finishedSegments =
        b.finishedSegments - (item q).getDownloadedSegments := by
      simp [removeFinishedItem, h, decreaseSize, removeFinishedSegment]
    refine ⟨?_, ?_⟩
    · rw [h₁, hc.size_eq, ← hsize]; omega
    · rw [h₂, hc.segments_eq, ← hsegs]; omega
  · rw [removeFinishedItem, if_neg h]; exact hc

theorem counts_addQueue (hc : Counts item b)
    (hdone : (item q).isDownloaded → (item q).segmentsDone) :
    Counts item (b.addQueue item q) := by
  have hitems := addQueue_items item b q
  by_cases hd : (item q).isDownloaded
  · rw [addQueue, if_pos hd]
    exact counts_addFinishedItem hc (hdone hd)
  · refine ⟨?_, ?_⟩
    · rw [totalSize_perm _ hitems, totalSize_cons, ← hc.size_eq]
      simp [addQueue, hd, increaseSize, addFinishedSegment, add_comm]
    · rw [totalDownloaded_perm _ hitems, totalDownloaded_cons, ← hc.segments_eq]
      simp [addQueue, hd, increaseSize, addFinishedSegment, add_comm]

/-- A queued item that is taken out of the bundle. -/
theorem removeQueue_eq_of_queued (hd : (item q).isDownloaded = false) (hq : q ∈ b.queueItems) :
    (b.removeQueue item q false).queueItems = swapRemove q b.queueItems ∧
      (b.removeQueue item q false).finishedFiles = b.finishedFiles ∧
      (b.removeQueue item q false).size = b.size - (item q).size ∧
      (b.removeQueue item q false).finishedSegments = b.finishedSegments -
        (if (item q).getDownloadedSegments > 0 then (item q).getDownloadedSegments else 0) := by
  unfold removeQueue
  simp only [hd, Bool.and_false, Bool.false_eq_true, if_false, Bool.not_false, if_true, if_pos hq]
  split <;> simp [decreaseSize, removeFinishedSegment]

/-- A queued item that is completed moves to the finished files. -/
theorem removeQueue_eq_of_completed (item : QueueItemPtr → QueueItem) (hq : q ∈ b.queueItems) :
    (b.removeQueue item q true).queueItems = swapRemove q b.queueItems ∧
      (b.removeQueue item q true).finishedFiles = b.finishedFiles ++ [q] ∧
      (b.removeQueue item q true).size = b.size ∧
      (b.removeQueue item q true).finishedSegments = b.finishedSegments := by
  simp [removeQueue, addFinishedItem, hq]

theorem removeQueue_items_of_queued (hd : (item q).isDownloaded = false) (hq : q ∈ b.queueItems) :
    (q :: (b.removeQueue item q false).items).Perm b.items := by
  obtain ⟨hqueue, hfin, _, _⟩ := removeQueue_eq_of_queued hd hq
  rw [items, hqueue, hfin, items]
  exact (swapRemove_perm hq).append_right b.finishedFiles

theorem removeQueue_items_of_completed (item : QueueItemPtr → QueueItem)
    (hq : q ∈ b.queueItems) :
    (b.removeQueue item q true).items.Perm b.items := by
  obtain ⟨hqueue, hfin, _, _⟩ := removeQueue_eq_of_completed item hq
  rw [items, hqueue, hfin, items, ← List.append_assoc]
  refine (List.perm_append_singleton q _).trans ?_
  exact (swapRemove_perm hq).append_right b.finishedFiles

theorem counts_removeQueue_queued (hc : Counts item b) (hd : (item q).isDownloaded = false)
    (hq : q ∈ b.queueItems) (hnn : 0 ≤ (item q).getDownloadedSegments) :
    Counts item (b.removeQueue item q false) := by
  obtain ⟨_, _, hsize, hsegs⟩ := removeQueue_eq_of_queued hd hq
  have hitems := removeQueue_items_of_queued hd hq
  have h₁ := totalSize_perm item hitems
  have h₂ := totalDownloaded_perm item hitems
  rw [totalSize_cons] at h₁
  rw [totalDownloaded_cons] at h₂
  refine ⟨?_, ?_⟩
  · rw [hsize, hc.size_eq, ← h₁]; omega
  · rw [hsegs, hc.segments_eq, ← h₂]
    split <;> omega

theorem counts_removeQueue_completed (hc : Counts item b) (hq : q ∈ b.queueItems) :
    Counts item (b.removeQueue item q true) := by
  obtain ⟨_, _, hsize, hsegs⟩ := removeQueue_eq_of_completed item hq
  have hitems := removeQueue_items_of_completed item hq
  refine ⟨?_, ?_⟩
  · rw [hsize, hc.size_eq, totalSize_perm _ hitems]
  · rw [hsegs, hc.segments_eq, totalDownloaded_perm _ hitems]

/-! The finished files after each operation. -/

theorem mem_finishedFiles_addQueue {x : QueueItemPtr}
    (hx : x ∈ (b.addQueue item q).finishedFiles) :
    x ∈ b.finishedFiles ∨ x = q ∧ (item q).isDownloaded := by
  unfold addQueue at hx
  split at hx
  · rename_i hd
    simp only [addFinishedItem, increaseSize, addFinishedSegment, Bool.not_false, if_true,
      setDirty_finishedFiles, List.mem_append, List.mem_singleton] at hx
    exact hx.imp_right fun h => ⟨h, hd⟩
  · simp only [increaseSize, addFinishedSegment, setDirty_finishedFiles] at hx
    exact Or.inl hx

theorem mem_finishedFiles_removeFinishedItem {x : QueueItemPtr}
    (hx : x ∈ (b.removeFinishedItem item q).finishedFiles) : x ∈ b.finishedFiles := by
  unfold removeFinishedItem at hx
  split at hx
  · rename_i hq
    exact (swapRemove_perm hq).subset (List.mem_cons_of_mem q hx)
  · exact hx

end Bundle

end Counters

/-! ## The runs -/

/-- The operations, and the two steps around them. -/
inductive AccountOp
  /-- `aBundle->addQueue(aQI); aQI->setBundle(aBundle);` -/
  | addQueue (b : BundlePtr) (q : QueueItemPtr)
  | removeQueue (b : BundlePtr) (q : QueueItemPtr) (aFileCompleted : Bool)
  /-- `addFinishedItem(qi, false)`; with `true` it is a part of `removeQueue`. -/
  | addFinishedItem (b : BundlePtr) (q : QueueItemPtr)
  | removeFinishedItem (b : BundlePtr) (q : QueueItemPtr)
  | addFinishedSegment (q : QueueItemPtr) (s : Segment)
  | resetDownloaded (q : QueueItemPtr)
  | setStatus (q : QueueItemPtr) (status : QueueItem.Status)
  /-- `q->setBundle(nullptr)` -/
  | clearBundle (q : QueueItemPtr)

namespace Heap

def accountNext (h : Heap) : AccountOp → Heap
  | .addQueue b q => h.joinBundle b q ((h.bundle b).addQueue h.item q)
  | .removeQueue b q aFileCompleted =>
    h.setBundle b ((h.bundle b).removeQueue h.item q aFileCompleted)
  | .addFinishedItem b q => h.joinBundle b q ((h.bundle b).addFinishedItem h.item q false)
  | .removeFinishedItem b q => h.setBundle b ((h.bundle b).removeFinishedItem h.item q)
  | .addFinishedSegment q s => h.addFinishedSegment q s
  | .resetDownloaded q => h.resetDownloaded q
  | .setStatus q status => h.setItem q { h.item q with status := status }
  | .clearBundle q => h.setItem q { h.item q with bundle := none }

/-- The item is one of its bundle's. -/
def InOwnBundle (h : Heap) (q : QueueItemPtr) : Prop :=
  ∀ b, (h.item q).bundle = some b → q ∈ (h.bundle b).items

def accountAllowed (h : Heap) : AccountOp → Prop
  | .addQueue _ q =>
    (h.item q).bundle = none ∧ ((h.item q).isDownloaded → (h.item q).segmentsDone)
  | .removeQueue b q aFileCompleted =>
    if aFileCompleted then q ∈ (h.bundle b).queueItems ∧ (h.item q).isDownloaded
    else q ∈ (h.bundle b).items
  | .addFinishedItem _ q =>
    (h.item q).bundle = none ∧ (h.item q).isDownloaded ∧ (h.item q).segmentsDone
  | .removeFinishedItem _ _ => True
  | .addFinishedSegment q s =>
    h.InOwnBundle q ∧ 0 < s.size ∧ 0 ≤ s.start ∧ s.getEnd ≤ (h.item q).size
  | .resetDownloaded q => h.InOwnBundle q
  | .setStatus q status =>
    ∀ b, q ∈ (h.bundle b).finishedFiles → QueueItem.Status.downloaded.toNat ≤ status.toNat
  | .clearBundle q => ∀ b, q ∉ (h.bundle b).items

/-- The accounting operations on the heap. -/
def accounting : System Heap AccountOp := ⟨accountNext, accountAllowed⟩

/-- No segment is added that is reported wrong. -/
def Counted (h : Heap) : AccountOp → Prop
  | .addFinishedSegment q s => ¬ (h.item q).Miscounts s
  | _ => True

/-- Bundles without items, and items of any kind that no bundle has yet. -/
structure Fresh (h : Heap) : Prop where
  items : ∀ b, (h.bundle b).items = []
  size : ∀ b, (h.bundle b).size = 0
  segments : ∀ b, (h.bundle b).finishedSegments = 0
  bundle : ∀ q, (h.item q).bundle = none
  canonical : ∀ q, IsCanonical (h.item q).done.toList
  inside : ∀ q, Inside (h.item q).size (h.item q).done.toList
  nonneg : ∀ q, 0 ≤ (h.item q).size

/-- The counters are the sums over the items, and the finished bytes are within the size. -/
def Accounting (h : Heap) : Prop :=
  ∀ b, (h.bundle b).size = totalSize h.item (h.bundle b).items ∧
    (h.bundle b).finishedSegments = totalDownloaded h.item (h.bundle b).items ∧
    0 ≤ (h.bundle b).finishedSegments ∧ (h.bundle b).finishedSegments ≤ (h.bundle b).size

/-- What the runs keep: the counters, and what they rest on. -/
structure Accounted (h : Heap) : Prop where
  counts : ∀ b, Counts h.item (h.bundle b)
  owned : ∀ b, ∀ q ∈ (h.bundle b).items, (h.item q).bundle = some b
  nodup : ∀ b, (h.bundle b).items.Nodup
  finished : ∀ b, ∀ q ∈ (h.bundle b).finishedFiles, (h.item q).isDownloaded
  canonical : ∀ q, IsCanonical (h.item q).done.toList
  inside : ∀ q, Inside (h.item q).size (h.item q).done.toList
  nonneg : ∀ q, 0 ≤ (h.item q).size

variable {h : Heap}

theorem Fresh.accounted (hf : h.Fresh) : h.Accounted where
  counts b := ⟨by simp [hf.size b, hf.items b, totalSize],
    by simp [hf.segments b, hf.items b, totalDownloaded]⟩
  owned b q hq := absurd hq (by simp [hf.items b])
  nodup b := by simp [hf.items b]
  finished b q hq := by
    have hmem : q ∈ (h.bundle b).items := List.mem_append_right _ hq
    exact absurd hmem (by simp [hf.items b])
  canonical := hf.canonical
  inside := hf.inside
  nonneg := hf.nonneg

namespace Accounted

/-- The finished bytes of an item are within its size. -/
theorem downloaded_bounds (ha : h.Accounted) (q : QueueItemPtr) :
    0 ≤ (h.item q).getDownloadedSegments ∧
      (h.item q).getDownloadedSegments ≤ (h.item q).size := by
  have hb := total_le_of_canonical (ha.canonical q) (ha.nonneg q) (ha.inside q)
  rw [sub_zero] at hb
  exact hb

theorem accounting (ha : h.Accounted) : h.Accounting := by
  intro b
  refine ⟨(ha.counts b).size_eq, (ha.counts b).segments_eq, ?_, ?_⟩
  · rw [(ha.counts b).segments_eq]
    apply List.sum_nonneg
    intro x hx
    obtain ⟨q, _, rfl⟩ := List.mem_map.mp hx
    exact (ha.downloaded_bounds q).1
  · rw [(ha.counts b).segments_eq, (ha.counts b).size_eq]
    apply List.sum_le_sum
    intro q _
    exact (ha.downloaded_bounds q).2

/-- An item is in one bundle only. -/
theorem notMem_of_ne (ha : h.Accounted) {b c : BundlePtr} {q : QueueItemPtr}
    (hq : (h.item q).bundle = some b) (hne : c ≠ b) : q ∉ (h.bundle c).items := by
  intro hmem
  have hc := ha.owned c q hmem
  rw [hq, Option.some.injEq] at hc
  exact hne hc.symm

/-- The counters of a bundle do not see a change to an item it does not have. -/
theorem counts_of_notMem {v : Bundle} {q : QueueItemPtr} {w : QueueItem} (hc : Counts h.item v)
    (hq : q ∉ v.items) : Counts (h.setItem q w).item v where
  size_eq := by
    rw [hc.size_eq]
    refine (sum_map_of_notMem hq fun x hx => ?_).symm
    rw [setItem_item_ne h w hx]
  segments_eq := by
    rw [hc.segments_eq]
    refine (sum_map_of_notMem hq fun x hx => ?_).symm
    rw [setItem_item_ne h w hx]

/-- The counters of a bundle do not see a change that keeps an item's size and finished set. -/
theorem counts_of_same {v : Bundle} {q : QueueItemPtr} {w : QueueItem} (hc : Counts h.item v)
    (hsize : w.size = (h.item q).size) (hdone : w.done = (h.item q).done) :
    Counts (h.setItem q w).item v where
  size_eq := by
    rw [hc.size_eq, totalSize, totalSize]
    congr 1
    apply List.map_congr_left
    intro x _
    rcases eq_or_ne x q with rfl | hx
    · rw [setItem_item_self, hsize]
    · rw [setItem_item_ne h w hx]
  segments_eq := by
    rw [hc.segments_eq, totalDownloaded, totalDownloaded]
    congr 1
    apply List.map_congr_left
    intro x _
    rcases eq_or_ne x q with rfl | hx
    · rw [setItem_item_self, QueueItem.getDownloadedSegments, QueueItem.getDownloadedSegments,
        hdone]
    · rw [setItem_item_ne h w hx]

/-- A step that only changes an item's status or forgets the bundle it is not in. -/
theorem of_setItem (ha : h.Accounted) {q : QueueItemPtr} {w : QueueItem}
    (hsize : w.size = (h.item q).size) (hdone : w.done = (h.item q).done)
    (howned : ∀ b, q ∈ (h.bundle b).items → w.bundle = some b)
    (hfin : ∀ b, q ∈ (h.bundle b).finishedFiles → w.isDownloaded) :
    (h.setItem q w).Accounted where
  counts b := counts_of_same (ha.counts b) hsize hdone
  owned b := setItem_forall (P := fun x v => x ∈ (h.bundle b).items → v.bundle = some b)
    (ha.owned b) (howned b)
  nodup := ha.nodup
  finished b := setItem_forall (P := fun x v => x ∈ (h.bundle b).finishedFiles → v.isDownloaded)
    (ha.finished b) (hfin b)
  canonical := setItem_forall (P := fun _ v => IsCanonical v.done.toList) ha.canonical
    (hdone ▸ ha.canonical q)
  inside := setItem_forall (P := fun _ v => Inside v.size v.done.toList) ha.inside
    (hdone ▸ hsize ▸ ha.inside q)
  nonneg := setItem_forall (P := fun _ v => 0 ≤ v.size) ha.nonneg (hsize ▸ ha.nonneg q)

/-- A step that rearranges the items of a bundle or takes some out. -/
theorem of_setBundle (ha : h.Accounted) {b : BundlePtr} {v : Bundle} (hc : Counts h.item v)
    (hnodup : v.items.Nodup) (hsub : ∀ x ∈ v.items, x ∈ (h.bundle b).items)
    (hfin : ∀ x ∈ v.finishedFiles, (h.item x).isDownloaded) :
    (h.setBundle b v).Accounted where
  counts := setBundle_forall (P := fun _ u => Counts h.item u) (fun c _ => ha.counts c) hc
  owned := setBundle_forall (P := fun c u => ∀ x ∈ u.items, (h.item x).bundle = some c)
    (fun c _ => ha.owned c) fun x hx => ha.owned b x (hsub x hx)
  nodup := setBundle_forall (P := fun _ u => u.items.Nodup) (fun c _ => ha.nodup c) hnodup
  finished := setBundle_forall (P := fun _ u => ∀ x ∈ u.finishedFiles, (h.item x).isDownloaded)
    (fun c _ => ha.finished c) hfin
  canonical := ha.canonical
  inside := ha.inside
  nonneg := ha.nonneg

/-- A step in which an item joins a bundle. -/
theorem of_joinBundle (ha : h.Accounted) {b : BundlePtr} {q : QueueItemPtr} {v : Bundle}
    (hq : (h.item q).bundle = none) (hc : Counts h.item v)
    (hitems : v.items.Perm (q :: (h.bundle b).items))
    (hfin : ∀ x ∈ v.finishedFiles,
      x ∈ (h.bundle b).finishedFiles ∨ x = q ∧ (h.item q).isDownloaded) :
    (h.joinBundle b q v).Accounted := by
  have hnot : ∀ c, q ∉ (h.bundle c).items := by
    intro c hmem
    have hc := ha.owned c q hmem
    rw [hq] at hc
    exact absurd hc (by simp)
  have hother : ∀ c, c ≠ b → ∀ x ∈ (h.bundle c).items, x ≠ q := by
    intro c _ x hx e
    exact hnot c (e ▸ hx)
  have hjoined : (h.joinBundle b q v).item q = { h.item q with bundle := some b } :=
    setItem_item_self ..
  have hsame : ∀ x, x ≠ q → (h.joinBundle b q v).item x = h.item x := fun x hx =>
    setItem_item_ne _ _ hx
  constructor
  case counts =>
    refine setBundle_forall (P := fun _ u => Counts (h.joinBundle b q v).item u)
      (fun c _ => ?_) ?_
    · exact counts_of_same (h := h.setBundle b v) (ha.counts c) rfl rfl
    · exact counts_of_same (h := h.setBundle b v) hc rfl rfl
  case owned =>
    refine setBundle_forall
      (P := fun c u => ∀ x ∈ u.items, ((h.joinBundle b q v).item x).bundle = some c)
      (fun c hne x hx => ?_) (fun x hx => ?_)
    · rw [hsame x (hother c hne x hx)]; exact ha.owned c x hx
    · rcases eq_or_ne x q with rfl | hxq
      · rw [hjoined]
      · rw [hitems.mem_iff, List.mem_cons] at hx
        rw [hsame x hxq]; exact ha.owned b x (hx.resolve_left hxq)
  case nodup =>
    refine setBundle_forall (P := fun _ u => u.items.Nodup) (fun c _ => ha.nodup c) ?_
    rw [hitems.nodup_iff, List.nodup_cons]
    exact ⟨hnot b, ha.nodup b⟩
  case finished =>
    have hdown : ∀ x, ((h.joinBundle b q v).item x).isDownloaded = (h.item x).isDownloaded := by
      intro x
      rcases eq_or_ne x q with rfl | hxq
      · rw [hjoined]; rfl
      · rw [hsame x hxq]
    refine setBundle_forall
      (P := fun _ u => ∀ x ∈ u.finishedFiles, ((h.joinBundle b q v).item x).isDownloaded)
      (fun c _ x hx => ?_) (fun x hx => ?_)
    · rw [hdown]; exact ha.finished c x hx
    · rw [hdown]
      rcases hfin x hx with hx | ⟨rfl, hd⟩
      · exact ha.finished b x hx
      · exact hd
  case canonical =>
    exact setItem_forall (P := fun _ v => IsCanonical v.done.toList) ha.canonical (ha.canonical q)
  case inside =>
    exact setItem_forall (P := fun _ v => Inside v.size v.done.toList) ha.inside (ha.inside q)
  case nonneg => exact setItem_forall (P := fun _ v => 0 ≤ v.size) ha.nonneg (ha.nonneg q)

/-- A step that changes an item's finished set and reports `n` bytes to its bundle, where `n` is
    what the set gained. -/
theorem of_report (ha : h.Accounted) {q : QueueItemPtr} {w : QueueItem} {f : Bundle → Bundle}
    (hq : h.InOwnBundle q) (hw : w = { h.item q with done := w.done })
    (hcanon : IsCanonical w.done.toList) (hin : Inside w.size w.done.toList)
    (hf : ∀ v, (f v).size = v.size ∧ (f v).queueItems = v.queueItems ∧
      (f v).finishedFiles = v.finishedFiles ∧
      (f v).finishedSegments = v.finishedSegments +
        (w.getDownloadedSegments - (h.item q).getDownloadedSegments)) :
    ((h.onBundle q f).setItem q w).Accounted := by
  have hsize : w.size = (h.item q).size := by rw [hw]
  have hbundle : w.bundle = (h.item q).bundle := by rw [hw]
  have hdown : w.isDownloaded = (h.item q).isDownloaded := by rw [hw]; rfl
  have hfitems : ∀ v, (f v).items = v.items := fun v => by
    rw [Bundle.items, Bundle.items, (hf v).2.1, (hf v).2.2.1]
  -- the bundles: only the item's own changes, and only in its counter
  have hitems : ∀ c, ((h.onBundle q f).bundle c).items = (h.bundle c).items := by
    unfold onBundle
    cases hb : (h.item q).bundle with
    | none => intro c; rfl
    | some b =>
      exact setBundle_forall (P := fun c u => u.items = (h.bundle c).items) (fun c _ => rfl)
        (hfitems _)
  have hfinished : ∀ c, ((h.onBundle q f).bundle c).finishedFiles = (h.bundle c).finishedFiles := by
    unfold onBundle
    cases hb : (h.item q).bundle with
    | none => intro c; rfl
    | some b =>
      exact setBundle_forall (P := fun c u => u.finishedFiles = (h.bundle c).finishedFiles)
        (fun c _ => rfl) (hf _).2.2.1
  have hsizes : ∀ l, totalSize (h.setItem q w).item l = totalSize h.item l := by
    intro l
    rw [totalSize, totalSize]
    congr 1
    apply List.map_congr_left
    intro x _
    exact setItem_forall (P := fun x v => v.size = (h.item x).size) (fun _ => rfl) hsize x
  have hcounts : ∀ c, Counts (h.setItem q w).item ((h.onBundle q f).bundle c) := by
    unfold onBundle
    cases hb : (h.item q).bundle with
    | none =>
      intro c
      refine counts_of_notMem (ha.counts c) fun hmem => ?_
      have hown := ha.owned c q hmem
      rw [hb] at hown
      exact absurd hown (by simp)
    | some b =>
      refine setBundle_forall (P := fun _ u => Counts (h.setItem q w).item u)
        (fun c hne => counts_of_notMem (ha.counts c) (ha.notMem_of_ne hb hne)) ⟨?_, ?_⟩
      · rw [(hf _).1, hfitems, hsizes, (ha.counts b).size_eq]
      · rw [(hf _).2.2.2, hfitems, (ha.counts b).segments_eq, totalDownloaded, totalDownloaded]
        have hsum := sum_map_of_eq_off
          (f := fun x => (h.item x).getDownloadedSegments)
          (g := fun x => ((h.setItem q w).item x).getDownloadedSegments) (ha.nodup b) (hq b hb)
          fun x hx => by simp only [setItem_item_ne h w hx]
        simp only [setItem_item_self] at hsum
        exact hsum.symm
  have hset : ((h.onBundle q f).setItem q w).item = (h.setItem q w).item := by
    rw [setItem, setItem, onBundle_item]
  constructor
  case counts => intro c; rw [hset, setItem_bundle]; exact hcounts c
  case owned =>
    intro c x hx
    rw [setItem_bundle, hitems] at hx
    rw [hset]
    exact setItem_forall (P := fun x v => x ∈ (h.bundle c).items → v.bundle = some c) (ha.owned c)
      (fun hmem => by rw [hbundle]; exact ha.owned c q hmem) x hx
  case nodup => intro c; rw [setItem_bundle, hitems]; exact ha.nodup c
  case finished =>
    intro c x hx
    rw [setItem_bundle, hfinished] at hx
    rw [hset]
    exact setItem_forall (P := fun x v => x ∈ (h.bundle c).finishedFiles → v.isDownloaded)
      (ha.finished c) (fun hmem => by rw [hdown]; exact ha.finished c q hmem) x hx
  case canonical =>
    rw [hset]
    exact setItem_forall (P := fun _ v => IsCanonical v.done.toList) ha.canonical hcanon
  case inside =>
    rw [hset]
    exact setItem_forall (P := fun _ v => Inside v.size v.done.toList) ha.inside hin
  case nonneg =>
    rw [hset]
    exact setItem_forall (P := fun _ v => 0 ≤ v.size) ha.nonneg (hsize ▸ ha.nonneg q)

/-! ### One step -/

theorem addFinishedSegment (ha : h.Accounted) {q : QueueItemPtr} {s : Segment}
    (hq : h.InOwnBundle q) (hpos : 0 < s.size) (hs : 0 ≤ s.start ∧ s.getEnd ≤ (h.item q).size)
    (hcount : ¬ (h.item q).Miscounts s) : (h.addFinishedSegment q s).Accounted := by
  have hbytes := (QueueItem.addFinishedSegment_bytes_iff (ha.canonical q) hpos).mpr hcount
  have heq : h.addFinishedSegment q s =
      (h.onBundle q fun b => b.addFinishedSegment ((h.item q).addFinishedSegment s).2).setItem q
        ((h.item q).addFinishedSegment s).1 := by
    unfold Heap.addFinishedSegment
    exact setItem_onBundle rfl
  rw [heq]
  refine ha.of_report hq rfl (QueueItem.addFinishedSegment_isCanonical (ha.canonical q) hpos)
    (QueueItem.addFinishedSegment_inside (ha.canonical q) (ha.inside q) hs) fun v => ?_
  refine ⟨?_, ?_, ?_, ?_⟩
  · rw [Bundle.addFinishedSegment, Bundle.setDirty_size]
  · rw [Bundle.addFinishedSegment, Bundle.setDirty_queueItems]
  · rw [Bundle.addFinishedSegment, Bundle.setDirty_finishedFiles]
  · rw [Bundle.addFinishedSegment, Bundle.setDirty_finishedSegments, hbytes]

theorem resetDownloaded (ha : h.Accounted) {q : QueueItemPtr} (hq : h.InOwnBundle q) :
    (h.resetDownloaded q).Accounted := by
  rw [Heap.resetDownloaded]
  simp only [onBundle_item]
  refine ha.of_report hq rfl Canonical.nil (by intro s hs; exact absurd hs (by simp)) fun v => ?_
  refine ⟨rfl, rfl, rfl, ?_⟩
  simp [Bundle.removeFinishedSegment, QueueItem.getDownloadedSegments, sub_eq_add_neg]

theorem addQueue (ha : h.Accounted) {b : BundlePtr} {q : QueueItemPtr}
    (hq : (h.item q).bundle = none) (hdone : (h.item q).isDownloaded → (h.item q).segmentsDone) :
    (h.joinBundle b q ((h.bundle b).addQueue h.item q)).Accounted :=
  ha.of_joinBundle hq (Bundle.counts_addQueue (ha.counts b) hdone)
    (Bundle.addQueue_items h.item (h.bundle b) q) fun _ => Bundle.mem_finishedFiles_addQueue

theorem addFinishedItem (ha : h.Accounted) {b : BundlePtr} {q : QueueItemPtr}
    (hq : (h.item q).bundle = none) (hd : (h.item q).isDownloaded)
    (hdone : (h.item q).segmentsDone) :
    (h.joinBundle b q ((h.bundle b).addFinishedItem h.item q false)).Accounted := by
  have heq : (h.bundle b).addFinishedItem h.item q false = (h.bundle b).addQueue h.item q := by
    rw [Bundle.addQueue, if_pos hd]
  rw [heq]
  exact ha.addQueue hq fun _ => hdone

theorem removeFinishedItem (ha : h.Accounted) {b : BundlePtr} {q : QueueItemPtr} :
    (h.setBundle b ((h.bundle b).removeFinishedItem h.item q)).Accounted := by
  have hc := Bundle.counts_removeFinishedItem (q := q) (ha.counts b)
  have hfin : ∀ x ∈ ((h.bundle b).removeFinishedItem h.item q).finishedFiles,
      (h.item x).isDownloaded := fun x hx =>
    ha.finished b x (Bundle.mem_finishedFiles_removeFinishedItem hx)
  by_cases hq : q ∈ (h.bundle b).finishedFiles
  · have hitems := Bundle.removeFinishedItem_items h.item hq
    refine ha.of_setBundle hc ?_ ?_ hfin
    · exact (List.nodup_cons.mp (hitems.nodup_iff.mpr (ha.nodup b))).2
    · exact fun x hx => hitems.subset (List.mem_cons_of_mem q hx)
  · rw [Bundle.removeFinishedItem, if_neg hq] at hc hfin ⊢
    exact ha.of_setBundle hc (ha.nodup b) (fun _ hx => hx) hfin

/-- An item of the bundle that is not downloaded is queued. -/
theorem queued_of_not_downloaded (ha : h.Accounted) {b : BundlePtr} {q : QueueItemPtr}
    (hq : q ∈ (h.bundle b).items) (hd : (h.item q).isDownloaded = false) :
    q ∈ (h.bundle b).queueItems := by
  rcases List.mem_append.mp hq with hq | hq
  · exact hq
  · have hdown := ha.finished b q hq
    rw [hd] at hdown
    exact absurd hdown (by simp)

theorem removeQueue (ha : h.Accounted) {b : BundlePtr} {q : QueueItemPtr} {aFileCompleted : Bool}
    (hq : h.accountAllowed (.removeQueue b q aFileCompleted)) :
    (h.setBundle b ((h.bundle b).removeQueue h.item q aFileCompleted)).Accounted := by
  cases aFileCompleted with
  | true =>
    -- the item moves to the finished files and the counters stay
    obtain ⟨hq, hd⟩ := hq
    obtain ⟨_, hfin, _, _⟩ := Bundle.removeQueue_eq_of_completed h.item hq
    have hitems := Bundle.removeQueue_items_of_completed h.item hq
    refine ha.of_setBundle (Bundle.counts_removeQueue_completed (ha.counts b) hq) ?_ ?_ ?_
    · exact hitems.nodup_iff.mpr (ha.nodup b)
    · exact fun x hx => hitems.subset hx
    · intro x hx
      rw [hfin, List.mem_append, List.mem_singleton] at hx
      rcases hx with hx | rfl
      · exact ha.finished b x hx
      · exact hd
  | false =>
    cases hd : (h.item q).isDownloaded with
    | true =>
      have heq : (h.bundle b).removeQueue h.item q false =
          (h.bundle b).removeFinishedItem h.item q := by simp [Bundle.removeQueue, hd]
      rw [heq]
      exact ha.removeFinishedItem
    | false =>
      have hqueued := ha.queued_of_not_downloaded hq hd
      obtain ⟨_, hfin, _, _⟩ := Bundle.removeQueue_eq_of_queued hd hqueued
      have hitems := Bundle.removeQueue_items_of_queued hd hqueued
      refine ha.of_setBundle (Bundle.counts_removeQueue_queued (ha.counts b) hd hqueued
        (ha.downloaded_bounds q).1) ?_ ?_ ?_
      · exact (List.nodup_cons.mp (hitems.nodup_iff.mpr (ha.nodup b))).2
      · exact fun x hx => hitems.subset (List.mem_cons_of_mem q hx)
      · rw [hfin]; exact ha.finished b

end Accounted

/-- **One step.** Every operation keeps the counters, a segment that is reported right
    included. -/
theorem preserves_accounted : (accounting.restrict Counted).Preserves Accounted := by
  intro h o ha ho
  obtain ⟨ho, hc⟩ := ho
  cases o with
  | addQueue b q => exact ha.addQueue ho.1 ho.2
  | removeQueue b q aFileCompleted => exact ha.removeQueue ho
  | addFinishedItem b q => exact ha.addFinishedItem ho.1 ho.2.1 ho.2.2
  | removeFinishedItem b q => exact ha.removeFinishedItem
  | addFinishedSegment q s => exact ha.addFinishedSegment ho.1 ho.2.1 ho.2.2 hc
  | resetDownloaded q => exact ha.resetDownloaded ho
  | setStatus q status =>
    refine ha.of_setItem rfl rfl (fun b hq => ha.owned b q hq) fun b hq => ?_
    simpa [QueueItem.isDownloaded] using ho b hq
  | clearBundle q =>
    refine ha.of_setItem rfl rfl (fun b hq => absurd hq (ho b)) fun b hq => ?_
    exact absurd (List.mem_append_right _ hq) (ho b)

/-- **The counters in every run.** As long as no segment is added that is reported wrong, the
    counters of every bundle are the sums over its items. -/
theorem accounting_of_counted {s : Heap} (hs : Reaches (accounting.restrict Counted) Fresh s) :
    s.Accounting :=
  (hs.invariant (fun _ hf => hf.accounted) preserves_accounted).accounting

/-! ## Three blocks, the last one overlapped -/

/-- Empty bundles, and files of three blocks. -/
def sample : Heap := ⟨fun _ => QueueItem.sample 3072, fun _ => Bundle.sample⟩

theorem sample_fresh : sample.Fresh where
  items _ := rfl
  size _ := rfl
  segments _ := rfl
  bundle _ := rfl
  canonical _ := Canonical.nil
  inside _ s hs := absurd hs (by simp [sample, QueueItem.sample, QueueItem.create])
  nonneg _ := (by decide : (0 : Int) ≤ 3072)

/-- The first block is finished, and a second download of the last block as well. -/
def sampleOverlapped : Heap :=
  accounting.run sample
    [.addQueue 0 0, .addFinishedSegment 0 ⟨0, 1024⟩, .addFinishedSegment 0 ⟨2048, 1024⟩]

theorem inOwnBundle_of_mem {h : Heap} {b : BundlePtr} {q : QueueItemPtr}
    (hq : (h.item q).bundle = some b) (hmem : q ∈ (h.bundle b).items) : h.InOwnBundle q := by
  intro c hc
  rw [hq, Option.some.injEq] at hc
  exact hc ▸ hmem

theorem sampleOverlapped_reached : Reaches (accounting.restrict Counted) Fresh sampleOverlapped :=
  Reaches.run (Reaches.start sample_fresh)
    ⟨⟨⟨rfl, fun h => absurd h (by decide)⟩, trivial⟩,
      ⟨⟨inOwnBundle_of_mem rfl (by decide), by decide⟩, by unfold Counted; decide⟩,
      ⟨⟨inOwnBundle_of_mem rfl (by decide), by decide⟩, by unfold Counted; decide⟩, trivial⟩

theorem accounting_overlapped : sampleOverlapped.Accounting :=
  accounting_of_counted sampleOverlapped_reached

/-- The download of the last two blocks ends: the three blocks are counted as four. -/
theorem accounting_miscounted : ¬ ∀ s, Reaches accounting Fresh s → s.Accounting := by
  intro h
  have hreached : Reaches accounting Fresh
      (accounting.run sampleOverlapped [.addFinishedSegment 0 ⟨1024, 2048⟩]) :=
    Reaches.run sampleOverlapped_reached.of_restrict
      ⟨⟨inOwnBundle_of_mem rfl (by decide), by decide⟩, trivial⟩
  exact absurd (h _ hreached 0).2.2.2 (by decide)

end Heap

end Airdcpp
