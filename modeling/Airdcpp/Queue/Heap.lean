import Airdcpp.Queue.Bundle

/-!
# `Queue/Heap` — the items and bundles, and what they do to each other

Every `QueueItemPtr` and every `BundlePtr` points at a record of the heap. Here are the
operations that touch both: `QueueItem::addFinishedSegment` and `QueueItem::resetDownloaded`
change the item and report to the bundle it points at.
-/

namespace Airdcpp

open Lib

/-- What the pointers point at. -/
structure Heap where
  item : QueueItemPtr → QueueItem
  bundle : BundlePtr → Bundle

namespace Heap

def setItem (h : Heap) (q : QueueItemPtr) (v : QueueItem) : Heap :=
  { h with item := Function.update h.item q v }

def setBundle (h : Heap) (b : BundlePtr) (v : Bundle) : Heap :=
  { h with bundle := Function.update h.bundle b v }

@[simp] theorem setItem_item_self (h : Heap) (q : QueueItemPtr) (v : QueueItem) :
    (h.setItem q v).item q = v := Function.update_self ..

@[simp] theorem setItem_item_ne (h : Heap) {p q : QueueItemPtr} (v : QueueItem) (hne : p ≠ q) :
    (h.setItem q v).item p = h.item p := Function.update_of_ne hne ..

@[simp] theorem setItem_bundle (h : Heap) (q : QueueItemPtr) (v : QueueItem) :
    (h.setItem q v).bundle = h.bundle := rfl

@[simp] theorem setBundle_bundle_self (h : Heap) (b : BundlePtr) (v : Bundle) :
    (h.setBundle b v).bundle b = v := Function.update_self ..

@[simp] theorem setBundle_bundle_ne (h : Heap) {c b : BundlePtr} (v : Bundle) (hne : c ≠ b) :
    (h.setBundle b v).bundle c = h.bundle c := Function.update_of_ne hne ..

@[simp] theorem setBundle_item (h : Heap) (b : BundlePtr) (v : Bundle) :
    (h.setBundle b v).item = h.item := rfl

/-- What holds of every item holds of every item after one of them is replaced. -/
theorem setItem_forall {h : Heap} {q : QueueItemPtr} {v : QueueItem}
    {P : QueueItemPtr → QueueItem → Prop} (hp : ∀ x, P x (h.item x)) (hv : P q v) :
    ∀ x, P x ((h.setItem q v).item x) := by
  intro x
  rcases eq_or_ne x q with rfl | hne
  · rw [setItem_item_self]; exact hv
  · rw [setItem_item_ne h v hne]; exact hp x

/-- What holds of every other bundle and of the new one holds of every bundle after one of them
    is replaced. -/
theorem setBundle_forall {h : Heap} {b : BundlePtr} {v : Bundle} {P : BundlePtr → Bundle → Prop}
    (hp : ∀ c, c ≠ b → P c (h.bundle c)) (hv : P b v) :
    ∀ c, P c ((h.setBundle b v).bundle c) := by
  intro c
  rcases eq_or_ne c b with rfl | hne
  · rw [setBundle_bundle_self]; exact hv
  · rw [setBundle_bundle_ne h v hne]; exact hp c hne

/-- `aQI->setBundle(b)` for an item that joins `b`, whose record becomes `v`. -/
def joinBundle (h : Heap) (b : BundlePtr) (q : QueueItemPtr) (v : Bundle) : Heap :=
  (h.setBundle b v).setItem q { h.item q with bundle := some b }

section Join

variable {h : Heap} {b : BundlePtr} {q : QueueItemPtr} {v : Bundle}

@[simp] theorem joinBundle_bundle_self : (h.joinBundle b q v).bundle b = v :=
  setBundle_bundle_self h b v

@[simp] theorem joinBundle_bundle_ne {c : BundlePtr} (hne : c ≠ b) :
    (h.joinBundle b q v).bundle c = h.bundle c := setBundle_bundle_ne h v hne

@[simp] theorem joinBundle_item_self :
    (h.joinBundle b q v).item q = { h.item q with bundle := some b } := setItem_item_self ..

@[simp] theorem joinBundle_item_ne {x : QueueItemPtr} (hne : x ≠ q) :
    (h.joinBundle b q v).item x = h.item x := setItem_item_ne _ _ hne

end Join

/-- Change the bundle an item points at, where it points at one. -/
def onBundle (h : Heap) (q : QueueItemPtr) (f : Bundle → Bundle) : Heap :=
  match (h.item q).bundle with
  | some b => h.setBundle b (f (h.bundle b))
  | none => h

theorem setItem_onBundle {h : Heap} {q : QueueItemPtr} {w : QueueItem} {f : Bundle → Bundle}
    (hw : w.bundle = (h.item q).bundle) :
    (h.setItem q w).onBundle q f = (h.onBundle q f).setItem q w := by
  unfold onBundle
  rw [setItem_item_self, hw]
  cases (h.item q).bundle <;> rfl

@[simp] theorem onBundle_item (h : Heap) (q : QueueItemPtr) (f : Bundle → Bundle) :
    (h.onBundle q f).item = h.item := by
  unfold onBundle; cases (h.item q).bundle <;> rfl

/-- `QueueItem::addFinishedSegment` — the bytes of the item's first merge, or of the whole
    segment if there was none, go to its bundle. -/
def addFinishedSegment (h : Heap) (q : QueueItemPtr) (aSegment : Segment) : Heap :=
  let added := (h.item q).addFinishedSegment aSegment
  (h.setItem q added.1).onBundle q fun b => b.addFinishedSegment added.2

/-- `QueueItem::resetDownloaded` -/
def resetDownloaded (h : Heap) (q : QueueItemPtr) : Heap :=
  let h' := h.onBundle q fun b => b.removeFinishedSegment (h.item q).getDownloadedSegments
  h'.setItem q { h'.item q with done := OrderedSet.empty }

end Heap

end Airdcpp
