import Airdcpp.Lib.Runs
import Airdcpp.Queue.PathStatistics

/-!
# `Queue/DirectoryStatistics` — the directories of the bundles over whole runs

The runs are those of the bundle queue as `QueueManager` uses it: `allowed` are its callers'
checks and the assertions. Three things its callers do break the statistics, and `Sound` leaves
them out: an item of a directory bundle is completed (its status is changed first, so
`removeBundleItem` takes a finished file away instead of a queued one); an item is added that is
not in its bundle's directory; a second bundle gets items while another one has the same target.

What an item's coming or going does to the path infos is one step of its own, `Walked`.
-/

namespace Airdcpp

open Lib
open PathUtil

/-! ## Items in their bundles -/

namespace Bundle

variable {item : QueueItemPtr → QueueItem} {v : Bundle} {q : QueueItemPtr}

/-- A bundle's items are filed by whether they are downloaded. -/
structure Filed (item : QueueItemPtr → QueueItem) (v : Bundle) : Prop where
  nodup : v.items.Nodup
  queued : ∀ q ∈ v.queueItems, (item q).isDownloaded = false
  finished : ∀ q ∈ v.finishedFiles, (item q).isDownloaded = true

theorem Filed.congr {item' : QueueItemPtr → QueueItem} (h : Filed item v)
    (hsame : ∀ x ∈ v.items, (item' x).isDownloaded = (item x).isDownloaded) : Filed item' v where
  nodup := h.nodup
  queued x hx := (hsame x (List.mem_append_left _ hx)).trans (h.queued x hx)
  finished x hx := (hsame x (List.mem_append_right _ hx)).trans (h.finished x hx)

/-- Same directory, same kind. -/
def SamePlace (v w : Bundle) : Prop := w.target = v.target ∧ w.fileBundle = v.fileBundle

theorem setDirty_samePlace (v : Bundle) : v.SamePlace v.setDirty := by
  unfold setDirty
  split
  · exact ⟨rfl, rfl⟩
  · exact ⟨rfl, rfl⟩

theorem addQueue_samePlace (item : QueueItemPtr → QueueItem) (v : Bundle) (q : QueueItemPtr) :
    v.SamePlace (v.addQueue item q) := by
  unfold addQueue
  split
  · exact setDirty_samePlace _
  · exact setDirty_samePlace _

theorem removeFinishedItem_samePlace (item : QueueItemPtr → QueueItem) (v : Bundle)
    (q : QueueItemPtr) : v.SamePlace (v.removeFinishedItem item q) := by
  unfold removeFinishedItem
  split
  · exact ⟨rfl, rfl⟩
  · exact ⟨rfl, rfl⟩

theorem removeQueue_samePlace (item : QueueItemPtr → QueueItem) (v : Bundle) (q : QueueItemPtr)
    (aFileCompleted : Bool) : v.SamePlace (v.removeQueue item q aFileCompleted) := by
  unfold removeQueue
  split
  · exact removeFinishedItem_samePlace item v q
  · cases aFileCompleted with
    | true => by_cases hq : q ∈ v.queueItems <;> simp [SamePlace, hq, addFinishedItem]
    | false =>
      by_cases hq : q ∈ v.queueItems <;>
        by_cases hpos : (item q).getDownloadedSegments > 0 <;>
          simp [SamePlace, hq, hpos, decreaseSize, removeFinishedSegment]

theorem Filed.addQueue (h : Filed item v) (hq : q ∉ v.items) : Filed item (v.addQueue item q) where
  nodup := by
    rw [(addQueue_items item v q).nodup_iff]
    exact List.nodup_cons.mpr ⟨hq, h.nodup⟩
  queued x hx := by
    unfold Bundle.addQueue at hx
    split at hx
    · simp only [addFinishedItem, increaseSize, addFinishedSegment, Bool.not_false, if_true,
        setDirty_queueItems] at hx
      exact h.queued x hx
    · rename_i hd
      simp only [increaseSize, addFinishedSegment, setDirty_queueItems, List.mem_append,
        List.mem_singleton] at hx
      rcases hx with hx | rfl
      · exact h.queued x hx
      · exact Bool.not_eq_true _ ▸ hd
  finished x hx := by
    rcases mem_finishedFiles_addQueue hx with hx | ⟨rfl, hd⟩
    · exact h.finished x hx
    · exact hd

/-- An item that is taken out. -/
theorem Filed.removeQueue (h : Filed item v) (hq : q ∈ v.items) :
    Filed item (v.removeQueue item q false) ∧
      (q :: (v.removeQueue item q false).items).Perm v.items := by
  cases hd : (item q).isDownloaded with
  | true =>
    have hfin : q ∈ v.finishedFiles := by
      rcases List.mem_append.mp hq with hq | hq
      · exact absurd (h.queued q hq) (by simp [hd])
      · exact hq
    have heq : v.removeQueue item q false = v.removeFinishedItem item q := by
      simp [Bundle.removeQueue, hd]
    have hperm := removeFinishedItem_items item hfin
    rw [heq]
    refine ⟨⟨(List.nodup_cons.mp (hperm.nodup_iff.mpr h.nodup)).2, ?_, ?_⟩, hperm⟩
    · intro x hx
      have hsame : (v.removeFinishedItem item q).queueItems = v.queueItems := by
        simp [removeFinishedItem, hfin, decreaseSize, removeFinishedSegment]
      exact h.queued x (hsame ▸ hx)
    · intro x hx
      exact h.finished x (mem_finishedFiles_removeFinishedItem hx)
  | false =>
    have hqueue : q ∈ v.queueItems := by
      rcases List.mem_append.mp hq with hq | hq
      · exact hq
      · exact absurd (h.finished q hq) (by simp [hd])
    obtain ⟨hitems, hfin, -, -⟩ := removeQueue_eq_of_queued hd hqueue
    have hperm := removeQueue_items_of_queued hd hqueue
    refine ⟨⟨(List.nodup_cons.mp (hperm.nodup_iff.mpr h.nodup)).2, ?_, ?_⟩, hperm⟩
    · intro x hx
      rw [hitems] at hx
      exact h.queued x ((swapRemove_perm hqueue).subset (List.mem_cons_of_mem q hx))
    · intro x hx
      rw [hfin] at hx
      exact h.finished x hx

/-- A queued item that is completed: its status has changed, and it changes sides. -/
theorem Filed.complete (h : Filed item v) (hq : q ∈ v.queueItems)
    {item' : QueueItemPtr → QueueItem} (hdone : (item' q).isDownloaded = true)
    (hsame : ∀ x, x ≠ q → item' x = item x) : Filed item' (v.removeQueue item' q true) := by
  obtain ⟨hitems, hfin, -, -⟩ := removeQueue_eq_of_completed item' hq
  have hperm := removeQueue_items_of_completed item' hq
  refine ⟨hperm.nodup_iff.mpr h.nodup, ?_, ?_⟩
  · intro x hx
    rw [hitems] at hx
    have hout : (q :: swapRemove q v.queueItems).Nodup :=
      (swapRemove_perm hq).nodup_iff.mpr (List.Nodup.of_append_left h.nodup)
    have hne : x ≠ q := fun e => (List.nodup_cons.mp hout).1 (e ▸ hx)
    rw [hsame x hne]
    exact h.queued x ((swapRemove_perm hq).subset (List.mem_cons_of_mem q hx))
  · intro x hx
    rw [hfin, List.mem_append, List.mem_singleton] at hx
    by_cases hxq : x = q
    · rw [hxq]; exact hdone
    · rw [hsame x hxq]
      exact h.finished x (hx.resolve_right hxq)

end Bundle

/-! ## The runs -/

namespace BundleQueue

/-- What is done to the bundle queue, and to the items it has. -/
inductive BundleQueueOp
  | addBundle (b : BundlePtr)
  | addBundleItem (q : QueueItemPtr) (b : BundlePtr)
  /-- `removeBundleItem(q, false)` -/
  | removeBundleItem (q : QueueItemPtr) (b : BundlePtr)
  /-- `q->setStatus(STATUS_DOWNLOADED); … removeBundleItem(q, true);` -/
  | completeItem (q : QueueItemPtr) (b : BundlePtr)
  | removeBundle (b : BundlePtr)
  | setStatus (q : QueueItemPtr) (status : QueueItem.Status)
  /-- `q->setBundle(nullptr)` -/
  | clearBundle (q : QueueItemPtr)

abbrev QueueState := Heap × BundleQueue

/-- The item's status is changed. -/
def withStatus (h : Heap) (q : QueueItemPtr) (status : QueueItem.Status) : Heap :=
  h.setItem q { h.item q with status := status }

variable (foldCase : Str → Str)

/-- The call that walks up from the item's directory, if the operation has one. -/
def walk (s : QueueState) : BundleQueueOp → Option QueueState
  | .addBundleItem q b => addBundleItem foldCase s.1 s.2 q b
  | .removeBundleItem q b => removeBundleItem foldCase s.1 s.2 q b false
  | .completeItem q b => removeBundleItem foldCase (withStatus s.1 q .downloaded) s.2 q b true
  | _ => some s

def bundleQueueNext (s : QueueState) : BundleQueueOp → QueueState
  | .addBundle b => addBundle s.1 s.2 b
  | .removeBundle b => (s.1, removeBundle foldCase s.1 s.2 b)
  | .setStatus q status => (withStatus s.1 q status, s.2)
  | .clearBundle q => (s.1.setItem q { s.1.item q with bundle := none }, s.2)
  | o => (walk foldCase s o).getD s

/-- What the callers check before a call and the assertions of the code. There is a next state
    only if the call returns. -/
def bundleQueueAllowed (s : QueueState) (o : BundleQueueOp) : Prop :=
  (walk foldCase s o).isSome ∧
    match o with
    | .addBundle b => (s.1.bundle b).items ≠ []
    | .addBundleItem q _ => (s.1.item q).bundle = none
    | .removeBundleItem q b => q ∈ (s.1.bundle b).items
    | .completeItem q b => q ∈ (s.1.bundle b).queueItems
    | .removeBundle b => (s.1.bundle b).items = []
    | .setStatus q status =>
      ({ s.1.item q with status := status } : QueueItem).isDownloaded = (s.1.item q).isDownloaded ∨
        ∀ b, q ∉ (s.1.bundle b).items
    | .clearBundle q => ∀ b, q ∉ (s.1.bundle b).items

def bundleQueueSystem : System QueueState BundleQueueOp :=
  ⟨bundleQueueNext foldCase, bundleQueueAllowed foldCase⟩

/-- The bundle is in the queue, or has items already. -/
def Known (s : QueueState) (b : BundlePtr) : Prop :=
  (∃ token, s.2.bundles token = some b) ∨ (s.1.bundle b).items ≠ []

/-- Two targets with the same infos: they are the same key, and a path can be below both. -/
def SharesPaths (v w : Bundle) : Prop :=
  foldCase v.target = foldCase w.target ∧ (v.target <+: w.target ∨ w.target <+: v.target)

/-- The steps that count right. -/
def Sound (s : QueueState) : BundleQueueOp → Prop
  | .addBundleItem q b => (s.1.bundle b).fileBundle = false →
      (s.1.bundle b).target <+: getFilePath (s.1.item q).target ∧
        ∀ c, c ≠ b → (s.1.bundle c).fileBundle = false → Known s c →
          ¬ SharesPaths foldCase (s.1.bundle b) (s.1.bundle c)
  | .completeItem _ b => (s.1.bundle b).fileBundle = true
  | .removeBundle b => ∀ c, c ≠ b → (s.1.bundle c).fileBundle = false →
      (s.1.bundle c).items ≠ [] → foldCase (s.1.bundle c).target ≠ foldCase (s.1.bundle b).target
  | _ => True

/-- Nothing is queued. The target of a directory bundle is a directory, by its constructor. -/
structure Fresh (s : QueueState) : Prop where
  queue : s.2 = empty
  items : ∀ b, (s.1.bundle b).items = []
  bundle : ∀ q, (s.1.item q).bundle = none
  target : ∀ b, (s.1.bundle b).fileBundle = false → isDirectoryPath (s.1.bundle b).target = true

/-- The item is one of a bundle's and not downloaded. -/
def Waiting (h : Heap) (q : QueueItemPtr) : Prop :=
  (∃ b, q ∈ (h.bundle b).items) ∧ (h.item q).isDownloaded = false

/-- `n` is the sum of the sizes of what is waiting. -/
def WaitingSum (h : Heap) (n : Int) : Prop :=
  ∃ waiting : List QueueItemPtr, waiting.Nodup ∧ (∀ q, q ∈ waiting ↔ Waiting h q) ∧
    n = totalSize h.item waiting

/-- The path infos describe the items, and the queue size is the sum of what is waiting. -/
structure Statistics (s : QueueState) : Prop where
  directories : ∀ b, (s.1.bundle b).fileBundle = false → Known s b →
    ∀ p, isDirectoryPath p = true → (s.1.bundle b).target <+: p →
      s.2.findPathInfo foldCase (s.1.bundle b).target p =
        dirInfo s.1.item b (s.1.bundle b).items p
  queueSize : WaitingSum s.1 s.2.queueSize

/-- What the runs keep. -/
structure Kept (s : QueueState) : Prop where
  statistics : Statistics foldCase s
  filed : ∀ b, (s.1.bundle b).Filed s.1.item
  owned : ∀ b, ∀ q ∈ (s.1.bundle b).items, (s.1.item q).bundle = some b
  target : ∀ b, (s.1.bundle b).fileBundle = false → isDirectoryPath (s.1.bundle b).target = true
  inside : ∀ b, (s.1.bundle b).fileBundle = false → ∀ q ∈ (s.1.bundle b).items,
    (s.1.bundle b).target <+: getFilePath (s.1.item q).target
  apart : ∀ b c, b ≠ c → (s.1.bundle b).fileBundle = false → (s.1.bundle c).fileBundle = false →
    Known s b → Known s c → ¬ SharesPaths foldCase (s.1.bundle b) (s.1.bundle c)
  backed : ∀ k p info, (s.2.infosAt k).find p = some info → isDirectoryPath p = true ∧
    ∃ b, (s.1.bundle b).fileBundle = false ∧ (s.1.bundle b).items ≠ [] ∧
      foldCase (s.1.bundle b).target = k ∧ (s.1.bundle b).target <+: p

variable {foldCase} {s : QueueState}

theorem Fresh.kept (hf : Fresh s) : Kept foldCase s where
  statistics := {
    directories := by
      intro b _ _ p _ _
      have hnone : s.2.findPathInfo foldCase (s.1.bundle b).target p = none := by
        rw [hf.queue]
        exact SortedVector.find_empty p
      rw [hnone, hf.items b]
      rfl
    queueSize := by
      refine ⟨[], List.nodup_nil, fun q => ?_, by rw [hf.queue]; rfl⟩
      refine iff_of_false List.not_mem_nil ?_
      rintro ⟨⟨b, hb⟩, -⟩
      rw [hf.items b] at hb
      exact absurd hb List.not_mem_nil }
  filed b := by
    have hitems := hf.items b
    unfold Bundle.items at hitems
    obtain ⟨hq, hfin⟩ := List.append_eq_nil_iff.mp hitems
    exact ⟨by rw [hf.items b]; exact List.nodup_nil, by simp [hq], by simp [hfin]⟩
  owned b q hq := by rw [hf.items b] at hq; exact absurd hq List.not_mem_nil
  target := hf.target
  inside b _ q hq := by rw [hf.items b] at hq; exact absurd hq List.not_mem_nil
  apart b _ _ _ _ hb := by
    rcases hb with ⟨token, htoken⟩ | hb
    · rw [hf.queue] at htoken
      exact absurd htoken (by simp [empty])
    · exact absurd (hf.items b) hb
  backed k p info hinfo := by
    rw [hf.queue] at hinfo
    have hnone : (empty.infosAt k).find p = none := SortedVector.find_empty p
    rw [hnone] at hinfo
    exact absurd hinfo (by simp)

/-- Two targets above one path share paths. -/
theorem SharesPaths.of_common {v w : Bundle} {p : Str}
    (hkey : foldCase v.target = foldCase w.target)
    (hv : v.target <+: p) (hw : w.target <+: p) : SharesPaths foldCase v w :=
  ⟨hkey, List.prefix_or_prefix_of_prefix hv hw⟩

namespace WaitingSum

variable {h h' : Heap} {n : Int} {q : QueueItemPtr}

theorem totalSize_eq (hsize : ∀ x, (h'.item x).size = (h.item x).size) (l : List QueueItemPtr) :
    totalSize h'.item l = totalSize h.item l := by
  unfold totalSize
  simp only [hsize]

theorem same (hs : WaitingSum h n) (hsame : ∀ x, Waiting h' x ↔ Waiting h x)
    (hsize : ∀ x, (h'.item x).size = (h.item x).size) : WaitingSum h' n := by
  obtain ⟨waiting, hnodup, hmem, rfl⟩ := hs
  exact ⟨waiting, hnodup, fun x => (hmem x).trans (hsame x).symm, (totalSize_eq hsize _).symm⟩

/-- One more item is waiting. -/
theorem add (hs : WaitingSum h n) (hq : ¬ Waiting h q) (hq' : Waiting h' q)
    (hsame : ∀ x, x ≠ q → (Waiting h' x ↔ Waiting h x))
    (hsize : ∀ x, (h'.item x).size = (h.item x).size) : WaitingSum h' (n + (h'.item q).size) := by
  obtain ⟨waiting, hnodup, hmem, rfl⟩ := hs
  refine ⟨q :: waiting, List.nodup_cons.mpr ⟨fun hm => hq ((hmem q).mp hm), hnodup⟩, ?_, ?_⟩
  · intro x
    rw [List.mem_cons, hmem]
    by_cases hx : x = q
    · subst hx; exact iff_of_true (Or.inl rfl) hq'
    · rw [hsame x hx, or_iff_right hx]
  · rw [totalSize_cons, totalSize_eq hsize, add_comm]

/-- One item is not waiting any more. -/
theorem remove (hs : WaitingSum h n) (hq : Waiting h q) (hq' : ¬ Waiting h' q)
    (hsame : ∀ x, x ≠ q → (Waiting h' x ↔ Waiting h x))
    (hsize : ∀ x, (h'.item x).size = (h.item x).size) : WaitingSum h' (n - (h'.item q).size) := by
  obtain ⟨waiting, hnodup, hmem, rfl⟩ := hs
  refine ⟨waiting.erase q, hnodup.erase q, ?_, ?_⟩
  · intro x
    rw [hnodup.mem_erase_iff, hmem]
    by_cases hx : x = q
    · subst hx; exact iff_of_false (fun hn => hn.1 rfl) hq'
    · rw [hsame x hx, and_iff_right hx]
  · have hperm := List.perm_cons_erase ((hmem q).mpr hq)
    rw [totalSize_perm h.item hperm, totalSize_cons, totalSize_eq hsize, hsize q]
    ring

end WaitingSum

/-- A step in which the item `q` joins or leaves the bundle `b`, and the handler `f` is run on
    its directories. -/
structure Walked (foldCase : Str → Str) (s s' : QueueState) (b : BundlePtr) (q : QueueItemPtr)
    (f : PathCounts → PathCounts) : Prop where
  place : ∀ c, (s.1.bundle c).SamePlace (s'.1.bundle c)
  others : ∀ c, c ≠ b → s'.1.bundle c = s.1.bundle c
  fields : ∀ x, SameFields s'.1.item s.1.item x
  bundles : s'.2.bundles = s.2.bundles
  apart : (s.1.bundle b).fileBundle = false → ∀ c, c ≠ b → (s.1.bundle c).fileBundle = false →
    Known s c → ¬ SharesPaths foldCase (s.1.bundle b) (s.1.bundle c)
  below : ∀ p, Below s.1.item p q →
    settle f b p (dirInfo s.1.item b (s.1.bundle b).items p) =
      dirInfo s.1.item b (s'.1.bundle b).items p
  notBelow : ∀ p, ¬ Below s.1.item p q →
    dirInfo s.1.item b (s'.1.bundle b).items p = dirInfo s.1.item b (s.1.bundle b).items p
  infos : ∀ k p, (s'.2.infosAt k).find p =
    if (s.1.bundle b).fileBundle = false ∧ k = foldCase (s.1.bundle b).target ∧
        isDirectoryPath p = true ∧ Below s.1.item p q ∧ (s.1.bundle b).target <+: p then
      settle f b p ((s.2.infosAt k).find p)
    else (s.2.infosAt k).find p

namespace Walked

variable {s' : QueueState} {b : BundlePtr} {q : QueueItemPtr} {f : PathCounts → PathCounts}

theorem known_of_ne (hw : Walked foldCase s s' b q f) {c : BundlePtr} (hc : c ≠ b)
    (h : Known s' c) : Known s c := by
  unfold Known at h
  rwa [hw.bundles, hw.others c hc] at h

/-- The bundle's directories were counted right before the step, also where it had no items. -/
theorem directories_before (hw : Walked foldCase s s' b q f) (hk : Kept foldCase s)
    (hdir : (s.1.bundle b).fileBundle = false) {p : Str} (hp : isDirectoryPath p = true)
    (ht : (s.1.bundle b).target <+: p) :
    (s.2.infosAt (foldCase (s.1.bundle b).target)).find p =
      dirInfo s.1.item b (s.1.bundle b).items p := by
  by_cases hknown : Known s b
  · exact hk.statistics.directories b hdir hknown p hp ht
  · have hnil : (s.1.bundle b).items = [] := by
      by_contra hne
      exact hknown (Or.inr hne)
    have hnone : (s.2.infosAt (foldCase (s.1.bundle b).target)).find p = none := by
      rw [Option.eq_none_iff_forall_ne_some]
      intro info hinfo
      obtain ⟨-, c, hcdir, hcitems, hckey, hct⟩ := hk.backed _ p info hinfo
      have hcb : c ≠ b := fun e => hcitems (e ▸ hnil)
      exact hw.apart hdir c hcb hcdir (Or.inr hcitems) (SharesPaths.of_common hckey.symm ht hct)
    rw [hnone, hnil]
    rfl

/-- The directories of the bundle after the step. -/
theorem directories_self (hw : Walked foldCase s s' b q f) (hk : Kept foldCase s)
    (hdir : (s.1.bundle b).fileBundle = false) {p : Str} (hp : isDirectoryPath p = true)
    (ht : (s.1.bundle b).target <+: p) :
    (s'.2.infosAt (foldCase (s.1.bundle b).target)).find p =
      dirInfo s.1.item b (s'.1.bundle b).items p := by
  rw [hw.infos, hw.directories_before hk hdir hp ht]
  by_cases hbelow : Below s.1.item p q
  · rw [if_pos ⟨hdir, rfl, hp, hbelow, ht⟩]
    exact hw.below p hbelow
  · rw [if_neg fun h => hbelow h.2.2.2.1]
    exact (hw.notBelow p hbelow).symm

theorem directories (hw : Walked foldCase s s' b q f) (hk : Kept foldCase s) (c : BundlePtr)
    (hdir : (s'.1.bundle c).fileBundle = false) (hknown : Known s' c) (p : Str)
    (hp : isDirectoryPath p = true) (ht : (s'.1.bundle c).target <+: p) :
    s'.2.findPathInfo foldCase (s'.1.bundle c).target p =
      dirInfo s'.1.item c (s'.1.bundle c).items p := by
  rw [(hw.place c).2] at hdir
  rw [(hw.place c).1] at ht
  rw [dirInfo_congr fun x _ => hw.fields x, findPathInfo_eq, (hw.place c).1]
  by_cases hc : c = b
  · subst hc
    exact hw.directories_self hk hdir hp ht
  · have hknown' := hw.known_of_ne hc hknown
    rw [hw.others c hc, hw.infos, if_neg]
    · exact hk.statistics.directories c hdir hknown' p hp ht
    · -- a directory of another bundle is not on the way
      rintro ⟨hbdir, hkey, -, -, hbt⟩
      exact hw.apart hbdir c hc hdir hknown' (SharesPaths.of_common hkey.symm hbt ht)

theorem keeps_apart (hw : Walked foldCase s s' b q f) (hk : Kept foldCase s) (c d : BundlePtr)
    (hne : c ≠ d) (hc : (s'.1.bundle c).fileBundle = false)
    (hd : (s'.1.bundle d).fileBundle = false) (hkc : Known s' c) (hkd : Known s' d) :
    ¬ SharesPaths foldCase (s'.1.bundle c) (s'.1.bundle d) := by
  rw [(hw.place c).2] at hc
  rw [(hw.place d).2] at hd
  unfold SharesPaths
  rw [(hw.place c).1, (hw.place d).1]
  by_cases hcb : c = b
  · subst hcb
    exact hw.apart hc d (Ne.symm hne) hd (hw.known_of_ne (Ne.symm hne) hkd)
  · by_cases hdb : d = b
    · subst hdb
      intro ⟨hkey, hpre⟩
      exact hw.apart hd c hne hc (hw.known_of_ne hne hkc) ⟨hkey.symm, hpre.symm⟩
    · exact hk.apart c d hne hc hd (hw.known_of_ne hcb hkc) (hw.known_of_ne hdb hkd)

theorem keeps_backed (hw : Walked foldCase s s' b q f) (hk : Kept foldCase s) (k p : Str)
    (info : PathInfo) (hinfo : (s'.2.infosAt k).find p = some info) :
    isDirectoryPath p = true ∧ ∃ c, (s'.1.bundle c).fileBundle = false ∧
      (s'.1.bundle c).items ≠ [] ∧ foldCase (s'.1.bundle c).target = k ∧
      (s'.1.bundle c).target <+: p := by
  -- an info of the bundle itself: it has a file below it, so the bundle has items
  have hself : (s.1.bundle b).fileBundle = false → k = foldCase (s.1.bundle b).target →
      isDirectoryPath p = true → (s.1.bundle b).target <+: p →
      ∃ c, (s'.1.bundle c).fileBundle = false ∧ (s'.1.bundle c).items ≠ [] ∧
        foldCase (s'.1.bundle c).target = k ∧ (s'.1.bundle c).target <+: p := by
    intro hdir hkey hp ht
    have hfind := hw.directories_self hk hdir hp ht
    rw [← hkey, hinfo] at hfind
    refine ⟨b, (hw.place b).2.trans hdir, ?_, ?_, ?_⟩
    · intro hnil
      rw [hnil] at hfind
      exact absurd hfind (by simp [dirInfo])
    · rw [(hw.place b).1, hkey]
    · rw [(hw.place b).1]; exact ht
  have hfind := hinfo
  rw [hw.infos] at hfind
  split at hfind
  · rename_i h
    obtain ⟨hdir, hkey, hp, -, ht⟩ := h
    exact ⟨hp, hself hdir hkey hp ht⟩
  · obtain ⟨hp, c, hcdir, hcitems, hckey, hct⟩ := hk.backed k p info hfind
    refine ⟨hp, ?_⟩
    by_cases hcb : c = b
    · subst hcb
      exact hself hcdir hckey.symm hp hct
    · refine ⟨c, (hw.place c).2.trans hcdir, ?_, ?_, ?_⟩
      · rw [hw.others c hcb]; exact hcitems
      · rw [(hw.place c).1]; exact hckey
      · rw [(hw.place c).1]; exact hct

end Walked

/-- The walk of `addBundleItem` and `removeBundleItem`, which file bundles have none of. -/
theorem walk_find (foldCase : Str → Str) (bq : BundleQueue) (b : BundlePtr) (v : Bundle)
    (path : Str)
    (f : PathCounts → PathCounts)
    (ht : v.fileBundle = false → isDirectoryPath v.target = true)
    (hin : v.fileBundle = false → v.target <+: getFilePath path) :
    ∃ bq', (if v.fileBundle then some bq else bq.forEachPath foldCase b v.target path f) =
        some bq' ∧ bq'.bundles = bq.bundles ∧ bq'.queueSize = bq.queueSize ∧
      ∀ k p, (bq'.infosAt k).find p =
        if v.fileBundle = false ∧ k = foldCase v.target ∧ isDirectoryPath p = true ∧
            p <+: getFilePath path ∧ v.target <+: p then
          settle f b p ((bq.infosAt k).find p)
        else (bq.infosAt k).find p := by
  cases hfile : v.fileBundle with
  | true =>
    refine ⟨bq, rfl, rfl, rfl, fun k p => ?_⟩
    rw [if_neg (by simp)]
  | false =>
    obtain ⟨bq', hwalk, hb, hs, hfind⟩ := forEachPath_find b f bq (ht hfile) (hin hfile)
      (isDirectoryPath_getFilePath (ht hfile) (hin hfile))
    refine ⟨bq', hwalk, hb, hs, fun k p => ?_⟩
    rw [hfind]
    simp only [true_and]

/-! ### One step -/

namespace Kept

variable {b : BundlePtr} {q : QueueItemPtr}

theorem notMem_of_bundle_none (hk : Kept foldCase s) (hq : (s.1.item q).bundle = none)
    (c : BundlePtr) : q ∉ (s.1.bundle c).items := by
  intro hmem
  have howned := hk.owned c q hmem
  rw [hq] at howned
  exact absurd howned (by simp)

/-- An item is in one bundle. -/
theorem notMem_of_ne (hk : Kept foldCase s) (hq : q ∈ (s.1.bundle b).items) {c : BundlePtr}
    (hc : c ≠ b) : q ∉ (s.1.bundle c).items := by
  intro hmem
  have howned := hk.owned c q hmem
  rw [hk.owned b q hq, Option.some.injEq] at howned
  exact hc howned.symm

/-- After a walk it is left to see to the items of the bundle and to the queue size. -/
theorem of_walked {s' : QueueState} {f : PathCounts → PathCounts} (hk : Kept foldCase s)
    (hw : Walked foldCase s s' b q f) (hfiled : (s'.1.bundle b).Filed s.1.item)
    (howned : ∀ c, ∀ x ∈ (s'.1.bundle c).items, (s'.1.item x).bundle = some c)
    (hin : (s.1.bundle b).fileBundle = false → ∀ x ∈ (s'.1.bundle b).items,
      (s.1.bundle b).target <+: getFilePath (s.1.item x).target)
    (hsize : WaitingSum s'.1 s'.2.queueSize) : Kept foldCase s' where
  statistics := ⟨hw.directories hk, hsize⟩
  filed c := by
    by_cases hc : c = b
    · subst hc
      exact hfiled.congr fun x _ => (hw.fields x).2.2
    · rw [hw.others c hc]
      exact (hk.filed c).congr fun x _ => (hw.fields x).2.2
  owned := howned
  target c hf := by
    rw [(hw.place c).1]
    exact hk.target c ((hw.place c).2.symm.trans hf)
  inside c hf x hx := by
    have hf' := (hw.place c).2.symm.trans hf
    rw [(hw.place c).1, (hw.fields x).1]
    by_cases hc : c = b
    · subst hc
      exact hin hf' x hx
    · rw [hw.others c hc] at hx
      exact hk.inside c hf' x hx
  apart := hw.keeps_apart hk
  backed := hw.keeps_backed hk

theorem addBundleItem (hk : Kept foldCase s) (hq : (s.1.item q).bundle = none)
    (hsound : Sound foldCase s (.addBundleItem q b)) :
    ∃ s', BundleQueue.addBundleItem foldCase s.1 s.2 q b = some s' ∧ Kept foldCase s' := by
  have hnot := hk.notMem_of_bundle_none hq
  obtain ⟨h, bq⟩ := s
  simp only at hq hnot hsound
  have hfiled := (hk.filed b).addQueue (hnot b)
  have hplaceb := Bundle.addQueue_samePlace h.item (h.bundle b) q
  have hperm := Bundle.addQueue_items h.item (h.bundle b) q
  simp only at hfiled
  generalize hv : (h.bundle b).addQueue h.item q = v at hfiled hplaceb hperm
  generalize hh : h.joinBundle b q v = h'
  have hbb : h'.bundle b = v := hh ▸ Heap.joinBundle_bundle_self
  have hbc : ∀ c, c ≠ b → h'.bundle c = h.bundle c := fun c hc =>
    hh ▸ Heap.joinBundle_bundle_ne hc
  have hitemq : h'.item q = { h.item q with bundle := some b } := hh ▸ Heap.joinBundle_item_self
  have hitem : ∀ x, x ≠ q → h'.item x = h.item x := fun x hx => hh ▸ Heap.joinBundle_item_ne hx
  have hfields : ∀ x, SameFields h'.item h.item x := by
    intro x
    unfold SameFields
    by_cases hx : x = q
    · rw [hx, hitemq]; exact ⟨rfl, rfl, rfl⟩
    · rw [hitem x hx]; exact ⟨rfl, rfl, rfl⟩
  have hin : (h.bundle b).fileBundle = false →
      (h.bundle b).target <+: getFilePath (h.item q).target := fun hf => (hsound hf).1
  obtain ⟨bq', hwalk, hbundles, hsize, hfind⟩ :=
    walk_find foldCase bq b v (h'.item q).target (countAdded (h'.item q))
    (fun hf => by rw [hplaceb.1]; exact hk.target b (hplaceb.2.symm.trans hf))
    (fun hf => by rw [hplaceb.1, (hfields q).1]; exact hin (hplaceb.2.symm.trans hf))
  have hcall : BundleQueue.addBundleItem foldCase h bq q b =
      some (h', if (h'.item q).isDownloaded then bq'
        else { bq' with queueSize := bq'.queueSize + (h'.item q).size }) := by
    unfold BundleQueue.addBundleItem
    simp only [hv, hh, hbb, hwalk, Option.map_some]
  refine ⟨_, hcall, ?_⟩
  have hinfos : ∀ x : BundleQueue, x.bundlePaths = bq'.bundlePaths → x.bundles = bq'.bundles →
      Walked foldCase (h, bq) (h', x) b q (countAdded (h.item q)) := by
    intro x hpaths hx
    constructor
    case place =>
      intro c
      by_cases hc : c = b
      · subst hc; rw [hbb]; exact hplaceb
      · rw [hbc c hc]; exact ⟨rfl, rfl⟩
    case others => exact hbc
    case fields => exact hfields
    case bundles => exact hx.trans hbundles
    case apart => exact fun hf => (hsound hf).2
    case below =>
      intro p hbelow
      rw [hbb, dirInfo_perm hperm]
      exact settle_countAdded hbelow
    case notBelow =>
      intro p hbelow
      rw [hbb, dirInfo_perm hperm, dirInfo_cons_of_not_below hbelow]
    case infos =>
      intro k p
      have hsame : x.infosAt k = bq'.infosAt k := by unfold infosAt; rw [hpaths]
      have hcount : countAdded (h'.item q) = countAdded (h.item q) := by rw [hitemq]; rfl
      simp only
      rw [hsame, hfind, hplaceb.1, hplaceb.2, (hfields q).1, hcount]
      rfl
  have hmem : ∀ {x}, x ∈ v.items ↔ x = q ∨ x ∈ (h.bundle b).items := by
    intro x
    rw [hperm.mem_iff, List.mem_cons]
  have hold : ∀ x, x ≠ q → (Waiting h' x ↔ Waiting h x) := by
    intro x hx
    unfold Waiting
    rw [(hfields x).2.2]
    refine and_congr_left fun _ => exists_congr fun c => ?_
    by_cases hc : c = b
    · subst hc
      rw [hbb, hmem, or_iff_right hx]
    · rw [hbc c hc]
  have hqold : ¬ Waiting h q := by
    rintro ⟨⟨c, hc⟩, -⟩
    exact hnot c hc
  have howned : ∀ c, ∀ x ∈ (h'.bundle c).items, (h'.item x).bundle = some c := by
    intro c x hx
    by_cases hc : c = b
    · subst hc
      rw [hbb, hmem] at hx
      by_cases hxq : x = q
      · rw [hxq, hitemq]
      · rw [hitem x hxq]
        exact hk.owned c x (hx.resolve_left hxq)
    · rw [hbc c hc] at hx
      rw [hitem x fun e => hnot c (e ▸ hx)]
      exact hk.owned c x hx
  have hinside : (h.bundle b).fileBundle = false → ∀ x ∈ (h'.bundle b).items,
      (h.bundle b).target <+: getFilePath (h.item x).target := by
    intro hf x hx
    rw [hbb, hmem] at hx
    rcases hx with rfl | hx
    · exact hin hf
    · exact hk.inside b hf x hx
  have hfiled' : (h'.bundle b).Filed h.item := hbb ▸ hfiled
  split
  · rename_i hd
    refine hk.of_walked (hinfos bq' rfl rfl) hfiled' howned hinside ?_
    simp only [hsize]
    refine hk.statistics.queueSize.same (fun x => ?_) fun x => (hfields x).2.1
    by_cases hx : x = q
    · subst hx
      refine iff_of_false ?_ hqold
      rintro ⟨-, hwait⟩
      exact absurd hwait (by simp [hd])
    · exact hold x hx
  · rename_i hd
    refine hk.of_walked (hinfos _ rfl rfl) hfiled' howned hinside ?_
    simp only [hsize]
    refine hk.statistics.queueSize.add hqold ⟨⟨b, ?_⟩, Bool.not_eq_true _ ▸ hd⟩ hold
      fun x => (hfields x).2.1
    rw [hbb]
    exact hmem.mpr (Or.inl rfl)

theorem removeBundleItem (hk : Kept foldCase s) (hq : q ∈ (s.1.bundle b).items) :
    ∃ s', BundleQueue.removeBundleItem foldCase s.1 s.2 q b false = some s' ∧
      Kept foldCase s' := by
  have hnot := fun c (hc : c ≠ b) => hk.notMem_of_ne hq hc
  obtain ⟨h, bq⟩ := s
  simp only at hq hnot
  obtain ⟨hfiled, hperm⟩ := (hk.filed b).removeQueue hq
  have hplaceb := Bundle.removeQueue_samePlace h.item (h.bundle b) q false
  simp only at hfiled hperm
  generalize hv : (h.bundle b).removeQueue h.item q false = v at hfiled hplaceb hperm
  generalize hh : h.setBundle b v = h'
  have hbb : h'.bundle b = v := hh ▸ Heap.setBundle_bundle_self h b v
  have hbc : ∀ c, c ≠ b → h'.bundle c = h.bundle c := fun c hc =>
    hh ▸ Heap.setBundle_bundle_ne h v hc
  have hitem : h'.item = h.item := hh ▸ Heap.setBundle_item h b v
  obtain ⟨bq', hwalk, hbundles, hsize, hfind⟩ :=
    walk_find foldCase bq b v (h'.item q).target (countRemoved (h'.item q) false)
    (fun hf => by rw [hplaceb.1]; exact hk.target b (hplaceb.2.symm.trans hf))
    (fun hf => by
      rw [hplaceb.1, hitem]
      exact hk.inside b (hplaceb.2.symm.trans hf) q hq)
  have hcall : BundleQueue.removeBundleItem foldCase h bq q b false =
      some (h', if !(h'.item q).isDownloaded then
          { bq' with queueSize := bq'.queueSize - (h'.item q).size }
        else bq') := by
    unfold BundleQueue.removeBundleItem
    simp only [hv, hh, hbb, hwalk, Option.map_some, Bool.false_or]
  refine ⟨_, hcall, ?_⟩
  have hinfos : ∀ x : BundleQueue, x.bundlePaths = bq'.bundlePaths → x.bundles = bq'.bundles →
      Walked foldCase (h, bq) (h', x) b q (countRemoved (h.item q) false) := by
    intro x hpaths hx
    constructor
    case place =>
      intro c
      by_cases hc : c = b
      · subst hc; rw [hbb]; exact hplaceb
      · rw [hbc c hc]; exact ⟨rfl, rfl⟩
    case others => exact hbc
    case fields => intro x; unfold SameFields; rw [hitem]; exact ⟨rfl, rfl, rfl⟩
    case bundles => exact hx.trans hbundles
    case apart =>
      intro hf c hc hcf hcknown
      have hne : (h.bundle b).items ≠ [] := List.ne_nil_of_mem hq
      exact hk.apart b c (Ne.symm hc) hf hcf (Or.inr hne) hcknown
    case below =>
      intro p hbelow
      rw [hbb, ← dirInfo_perm hperm]
      exact settle_countRemoved hbelow
    case notBelow =>
      intro p hbelow
      rw [hbb, ← dirInfo_perm hperm, dirInfo_cons_of_not_below hbelow]
    case infos =>
      intro k p
      have hsame : x.infosAt k = bq'.infosAt k := by unfold infosAt; rw [hpaths]
      simp only
      rw [hsame, hfind, hplaceb.1, hplaceb.2, hitem]
      rfl
  have hmem : ∀ {x}, x ∈ (h.bundle b).items ↔ x = q ∨ x ∈ v.items := by
    intro x
    rw [← hperm.mem_iff, List.mem_cons]
  have hout : q ∉ v.items := (List.nodup_cons.mp (hperm.nodup_iff.mpr (hk.filed b).nodup)).1
  have hold : ∀ x, x ≠ q → (Waiting h' x ↔ Waiting h x) := by
    intro x hx
    unfold Waiting
    rw [hitem]
    refine and_congr_left fun _ => exists_congr fun c => ?_
    by_cases hc : c = b
    · subst hc
      rw [hbb, hmem, or_iff_right hx]
    · rw [hbc c hc]
  have hqnew : ¬ Waiting h' q := by
    rintro ⟨⟨c, hc⟩, -⟩
    by_cases hcb : c = b
    · subst hcb
      rw [hbb] at hc
      exact hout hc
    · rw [hbc c hcb] at hc
      exact hnot c hcb hc
  have howned : ∀ c, ∀ x ∈ (h'.bundle c).items, (h'.item x).bundle = some c := by
    intro c x hx
    rw [hitem]
    by_cases hc : c = b
    · subst hc
      rw [hbb] at hx
      exact hk.owned c x (hmem.mpr (Or.inr hx))
    · rw [hbc c hc] at hx
      exact hk.owned c x hx
  have hinside : (h.bundle b).fileBundle = false → ∀ x ∈ (h'.bundle b).items,
      (h.bundle b).target <+: getFilePath (h.item x).target := by
    intro hf x hx
    rw [hbb] at hx
    exact hk.inside b hf x (hmem.mpr (Or.inr hx))
  have hfiled' : (h'.bundle b).Filed h.item := hbb ▸ hfiled
  have hsizes : ∀ x, (h'.item x).size = (h.item x).size := fun x => by rw [hitem]
  cases hd : (h'.item q).isDownloaded with
  | false =>
    refine hk.of_walked (hinfos _ rfl rfl) hfiled' howned hinside ?_
    simp only [Bool.not_false, if_true, hsize]
    rw [hitem] at hd
    exact hk.statistics.queueSize.remove ⟨⟨b, hq⟩, hd⟩ hqnew hold hsizes
  | true =>
    refine hk.of_walked (hinfos bq' rfl rfl) hfiled' howned hinside ?_
    simp only [Bool.not_true, Bool.false_eq_true, if_false, hsize]
    refine hk.statistics.queueSize.same (fun x => ?_) hsizes
    by_cases hx : x = q
    · subst hx
      refine iff_of_false hqnew ?_
      rintro ⟨-, hwait⟩
      rw [hitem, hwait] at hd
      exact absurd hd (by simp)
    · exact hold x hx

/-- A step that leaves the path infos and the items of the directory bundles alone. -/
theorem of_quiet {s' : QueueState} (hk : Kept foldCase s)
    (hplace : ∀ c, (s.1.bundle c).SamePlace (s'.1.bundle c))
    (hitems : ∀ c, (s.1.bundle c).fileBundle = false →
      (s'.1.bundle c).items = (s.1.bundle c).items)
    (hfields : ∀ c, (s.1.bundle c).fileBundle = false → ∀ x ∈ (s.1.bundle c).items,
      SameFields s'.1.item s.1.item x)
    (hinfos : ∀ k, s'.2.infosAt k = s.2.infosAt k)
    (hknown : ∀ c, Known s' c → Known s c)
    (hfiled : ∀ c, (s'.1.bundle c).Filed s'.1.item)
    (howned : ∀ c, ∀ x ∈ (s'.1.bundle c).items, (s'.1.item x).bundle = some c)
    (hsize : WaitingSum s'.1 s'.2.queueSize) : Kept foldCase s' where
  statistics := {
    directories := by
      intro c hf hc p hp ht
      have hf' := (hplace c).2.symm.trans hf
      rw [(hplace c).1] at ht ⊢
      rw [findPathInfo_eq, hinfos, hitems c hf', dirInfo_congr (hfields c hf')]
      exact hk.statistics.directories c hf' (hknown c hc) p hp ht
    queueSize := hsize }
  filed := hfiled
  owned := howned
  target c hf := by
    rw [(hplace c).1]
    exact hk.target c ((hplace c).2.symm.trans hf)
  inside c hf x hx := by
    have hf' := (hplace c).2.symm.trans hf
    rw [hitems c hf'] at hx
    rw [(hplace c).1, (hfields c hf' x hx).1]
    exact hk.inside c hf' x hx
  apart c d hne hc hd hkc hkd := by
    unfold SharesPaths
    rw [(hplace c).1, (hplace d).1]
    exact hk.apart c d hne ((hplace c).2.symm.trans hc) ((hplace d).2.symm.trans hd)
      (hknown c hkc) (hknown d hkd)
  backed k p info hinfo := by
    rw [hinfos] at hinfo
    obtain ⟨hp, c, hf, hne, hkey, ht⟩ := hk.backed k p info hinfo
    refine ⟨hp, c, (hplace c).2.trans hf, ?_, ?_, ?_⟩
    · rw [hitems c hf]; exact hne
    · rw [(hplace c).1]; exact hkey
    · rw [(hplace c).1]; exact ht

/-- A completed item of a file bundle: there are no directories to count it in. -/
theorem completeItem (hk : Kept foldCase s) (hq : q ∈ (s.1.bundle b).queueItems)
    (hsound : Sound foldCase s (.completeItem q b)) :
    ∃ s', BundleQueue.removeBundleItem foldCase (withStatus s.1 q .downloaded) s.2 q b true =
      some s' ∧ Kept foldCase s' := by
  have hmemq : q ∈ (s.1.bundle b).items := List.mem_append_left _ hq
  have hnot := fun c (hc : c ≠ b) => hk.notMem_of_ne hmemq hc
  have hwait := (hk.filed b).queued q hq
  obtain ⟨h, bq⟩ := s
  simp only at hq hmemq hnot hwait
  generalize hh₁ : withStatus h q .downloaded = h₁
  have hbundle₁ : h₁.bundle = h.bundle := hh₁ ▸ Heap.setItem_bundle h q _
  have hitemq : h₁.item q = { h.item q with status := .downloaded } :=
    hh₁ ▸ Heap.setItem_item_self h q _
  have hitem : ∀ x, x ≠ q → h₁.item x = h.item x := fun x hx => hh₁ ▸ Heap.setItem_item_ne h _ hx
  have hdone : (h₁.item q).isDownloaded = true := by rw [hitemq]; rfl
  have hfiled := (hk.filed b).complete hq hdone hitem
  have hplaceb := Bundle.removeQueue_samePlace h₁.item (h.bundle b) q true
  have hperm := Bundle.removeQueue_items_of_completed h₁.item hq
  simp only at hfiled
  generalize hv : (h.bundle b).removeQueue h₁.item q true = v at hfiled hplaceb hperm
  generalize hh : h₁.setBundle b v = h'
  have hbb : h'.bundle b = v := hh ▸ Heap.setBundle_bundle_self h₁ b v
  have hbc : ∀ c, c ≠ b → h'.bundle c = h.bundle c := fun c hc =>
    hh ▸ (Heap.setBundle_bundle_ne h₁ v hc).trans (by rw [hbundle₁])
  have hitem' : h'.item = h₁.item := hh ▸ Heap.setBundle_item h₁ b v
  have hfile : v.fileBundle = true := hplaceb.2.trans hsound
  refine ⟨(h', { bq with queueSize := bq.queueSize - (h'.item q).size }), ?_, ?_⟩
  · unfold BundleQueue.removeBundleItem
    simp only [hbundle₁, hv, hh, hbb, hfile, if_true, Option.map_some, Bool.true_or]
  have hsizes : ∀ x, (h'.item x).size = (h.item x).size := by
    intro x
    rw [hitem']
    by_cases hx : x = q
    · rw [hx, hitemq]
    · rw [hitem x hx]
  have hmem : ∀ c x, x ∈ (h'.bundle c).items ↔ x ∈ (h.bundle c).items := by
    intro c x
    by_cases hc : c = b
    · subst hc
      rw [hbb, hperm.mem_iff]
    · rw [hbc c hc]
  have hne : ∀ {c : BundlePtr}, (h.bundle c).fileBundle = false → c ≠ b := by
    intro c hf e
    subst e
    rw [show (h.bundle c).fileBundle = true from hsound] at hf
    exact absurd hf (by simp)
  refine hk.of_quiet ?_ ?_ ?_ (fun _ => rfl) ?_ ?_ ?_ ?_
  · intro c
    by_cases hc : c = b
    · subst hc; rw [hbb]; exact hplaceb
    · rw [hbc c hc]; exact ⟨rfl, rfl⟩
  · intro c hf
    rw [hbc c (hne hf)]
  · intro c hf x hx
    have hxq : x ≠ q := fun e => hnot c (hne hf) (e ▸ hx)
    unfold SameFields
    rw [hitem', hitem x hxq]
    exact ⟨rfl, rfl, rfl⟩
  · intro c hc
    refine hc.imp id fun hitems hnil => hitems ?_
    exact List.eq_nil_iff_forall_not_mem.mpr fun x hx => by
      rw [hmem c x, hnil] at hx
      exact absurd hx List.not_mem_nil
  · intro c
    simp only [hitem']
    by_cases hc : c = b
    · subst hc; rw [hbb]; exact hfiled
    · rw [hbc c hc]
      refine (hk.filed c).congr fun x hx => ?_
      rw [hitem x fun e => hnot c hc (e ▸ hx)]
  · intro c x hx
    rw [hmem c x] at hx
    have howned := hk.owned c x hx
    rw [hitem']
    by_cases hxq : x = q
    · subst hxq; rw [hitemq]; exact howned
    · rw [hitem x hxq]; exact howned
  · refine hk.statistics.queueSize.remove ⟨⟨b, hmemq⟩, hwait⟩ ?_ ?_ hsizes
    · rintro ⟨-, hw⟩
      rw [hitem', hdone] at hw
      exact absurd hw (by simp)
    · intro x hx
      unfold Waiting
      simp only [hmem]
      rw [hitem', hitem x hx]

/-- Changes to an item that no bundle sees: its status within the same half, or anything of an
    item that is in no bundle. -/
theorem setItem (hk : Kept foldCase s) {w : QueueItem}
    (hw : (∀ c, q ∉ (s.1.bundle c).items) ∨ (w.target = (s.1.item q).target ∧
      w.bundle = (s.1.item q).bundle ∧ w.isDownloaded = (s.1.item q).isDownloaded))
    (hsize : w.size = (s.1.item q).size) : Kept foldCase (s.1.setItem q w, s.2) := by
  have hsee : ∀ c, ∀ x ∈ (s.1.bundle c).items,
      ((s.1.setItem q w).item x).target = (s.1.item x).target ∧
        ((s.1.setItem q w).item x).bundle = (s.1.item x).bundle ∧
        ((s.1.setItem q w).item x).isDownloaded = (s.1.item x).isDownloaded := by
    intro c x hx
    by_cases hxq : x = q
    · subst hxq
      rw [Heap.setItem_item_self]
      exact hw.resolve_left fun hnot => hnot c hx
    · rw [Heap.setItem_item_ne _ _ hxq]
      exact ⟨rfl, rfl, rfl⟩
  have hsizes : ∀ x, ((s.1.setItem q w).item x).size = (s.1.item x).size :=
    Heap.setItem_forall (P := fun x v => v.size = (s.1.item x).size) (fun _ => rfl) hsize
  refine hk.of_quiet (fun _ => ⟨rfl, rfl⟩) (fun _ _ => rfl) ?_ (fun _ => rfl)
    (fun _ hc => hc) ?_ ?_ ?_
  · exact fun c _ x hx => ⟨(hsee c x hx).1, hsizes x, (hsee c x hx).2.2⟩
  · exact fun c => (hk.filed c).congr fun x hx => (hsee c x hx).2.2
  · exact fun c x hx => (hsee c x hx).2.1.trans (hk.owned c x hx)
  · refine hk.statistics.queueSize.same (fun x => ?_) hsizes
    unfold Waiting
    refine and_congr_right fun ⟨c, hc⟩ => ?_
    rw [(hsee c x hc).2.2]

theorem addBundle (hk : Kept foldCase s) (hb : (s.1.bundle b).items ≠ []) :
    Kept foldCase (BundleQueue.addBundle s.1 s.2 b) := by
  unfold BundleQueue.addBundle
  simp only
  generalize (if (s.1.bundle b).filesCompleted s.1.item then Bundle.Status.completed
    else Bundle.Status.queued) = status
  have hbundle : ∀ c, ((s.1.setBundle b { s.1.bundle b with status := status }).bundle c).items =
        (s.1.bundle c).items ∧
      (s.1.bundle c).SamePlace ((s.1.setBundle b { s.1.bundle b with status := status }).bundle c) ∧
      ((s.1.bundle c).Filed s.1.item →
        ((s.1.setBundle b { s.1.bundle b with status := status }).bundle c).Filed s.1.item) := by
    intro c
    by_cases hc : c = b
    · subst hc
      rw [Heap.setBundle_bundle_self]
      exact ⟨rfl, ⟨rfl, rfl⟩, fun hf => ⟨hf.nodup, hf.queued, hf.finished⟩⟩
    · rw [Heap.setBundle_bundle_ne _ _ hc]
      exact ⟨rfl, ⟨rfl, rfl⟩, id⟩
  refine hk.of_quiet (fun c => (hbundle c).2.1) (fun c _ => (hbundle c).1)
    (fun _ _ _ _ => ⟨rfl, rfl, rfl⟩) (fun _ => rfl) ?_ (fun c => (hbundle c).2.2 (hk.filed c)) ?_ ?_
  · intro c hc
    rcases hc with ⟨token, htoken⟩ | hc
    · simp only [Function.update_apply] at htoken
      split at htoken
      · rw [Option.some.injEq] at htoken
        exact Or.inr (htoken ▸ hb)
      · exact Or.inl ⟨token, htoken⟩
    · rw [(hbundle c).1] at hc
      exact Or.inr hc
  · intro c x hx
    rw [(hbundle c).1] at hx
    exact hk.owned c x hx
  · refine hk.statistics.queueSize.same (fun x => ?_) fun _ => rfl
    unfold Waiting
    simp only [fun c => (hbundle c).1, Heap.setBundle_item]

/-- The infos of a bundle without items are gone already. -/
theorem removeBundle (hk : Kept foldCase s) (hb : (s.1.bundle b).items = [])
    (hsound : Sound foldCase s (.removeBundle b)) :
    Kept foldCase (s.1, BundleQueue.removeBundle foldCase s.1 s.2 b) := by
  have hnil : (s.2.pathInfos foldCase (s.1.bundle b).target).toList = [] := by
    rw [List.eq_nil_iff_forall_not_mem]
    intro info hinfo
    have hfind : (s.2.infosAt (foldCase (s.1.bundle b).target)).find info.path = some info :=
      SortedVector.find_eq_some_iff.mpr ⟨hinfo, rfl⟩
    obtain ⟨-, c, hf, hne, hkey, -⟩ := hk.backed _ _ _ hfind
    exact hsound c (fun e => hne (e ▸ hb)) hf hne hkey
  unfold BundleQueue.removeBundle
  simp only [hnil, List.foldl_nil]
  split
  · exact hk
  · refine hk.of_quiet (fun _ => ⟨rfl, rfl⟩) (fun _ _ => rfl) (fun _ _ _ _ => ⟨rfl, rfl, rfl⟩)
      (fun _ => rfl) ?_ hk.filed hk.owned hk.statistics.queueSize
    intro c hc
    rcases hc with ⟨token, htoken⟩ | hc
    · simp only [Function.update_apply] at htoken
      split at htoken
      · exact absurd htoken (by simp)
      · exact Or.inl ⟨token, htoken⟩
    · exact Or.inr hc

/-- **A completed item of a directory bundle is counted wrong**: it is taken from the finished
    files, where it was not counted, and stays among the queued ones. -/
theorem completeItem_miscounts (hk : Kept foldCase s) (hq : q ∈ (s.1.bundle b).queueItems)
    (hdir : (s.1.bundle b).fileBundle = false) :
    ∃ s', BundleQueue.removeBundleItem foldCase (withStatus s.1 q .downloaded) s.2 q b true =
      some s' ∧ ¬ Statistics foldCase s' := by
  have hmemq : q ∈ (s.1.bundle b).items := List.mem_append_left _ hq
  have hwait := (hk.filed b).queued q hq
  have hnodup := (hk.filed b).nodup
  obtain ⟨h, bq⟩ := s
  simp only at hq hmemq hwait hdir hnodup
  generalize hh₁ : withStatus h q .downloaded = h₁
  have hbundle₁ : h₁.bundle = h.bundle := hh₁ ▸ Heap.setItem_bundle h q _
  have hitemq : h₁.item q = { h.item q with status := .downloaded } :=
    hh₁ ▸ Heap.setItem_item_self h q _
  have hitem : ∀ x, x ≠ q → h₁.item x = h.item x := fun x hx => hh₁ ▸ Heap.setItem_item_ne h _ hx
  have hplaceb := Bundle.removeQueue_samePlace h₁.item (h.bundle b) q true
  have hperm := Bundle.removeQueue_items_of_completed h₁.item hq
  generalize hv : (h.bundle b).removeQueue h₁.item q true = v at hplaceb hperm
  generalize hh : h₁.setBundle b v = h'
  have hbb : h'.bundle b = v := hh ▸ Heap.setBundle_bundle_self h₁ b v
  have hitem' : h'.item = h₁.item := hh ▸ Heap.setBundle_item h₁ b v
  have htarget : (h₁.item q).target = (h.item q).target := by rw [hitemq]
  have hin := hk.inside b hdir q hmemq
  simp only at hin
  obtain ⟨bq', hwalk, -, -, hfind⟩ :=
    walk_find foldCase bq b v (h'.item q).target (countRemoved (h'.item q) true)
    (fun _ => by rw [hplaceb.1]; exact hk.target b hdir)
    (fun _ => by rw [hplaceb.1, hitem', htarget]; exact hin)
  refine ⟨(h', { bq' with queueSize := bq'.queueSize - (h'.item q).size }), ?_, ?_⟩
  · unfold BundleQueue.removeBundleItem
    simp only [hbundle₁, hv, hh, hbb, hwalk, Option.map_some, Bool.true_or, if_true]
  -- the item's own directory, before and after
  intro hstats
  let p := getFilePath (h.item q).target
  have hp : isDirectoryPath p = true := isDirectoryPath_getFilePath (hk.target b hdir) hin
  obtain ⟨rest, hrest⟩ : ∃ rest, (h.bundle b).items.Perm (q :: rest) :=
    ⟨_, List.perm_cons_erase hmemq⟩
  have hbelow : Below h.item p q := List.prefix_rfl
  have hbelow₁ : Below h₁.item p q := by unfold Below; rw [htarget]
  have hqrest : q ∉ rest := (List.nodup_cons.mp (hrest.nodup_iff.mp hnodup)).1
  have hold : dirCounts h.item (h.bundle b).items p =
      countAdded (h.item q) (dirCounts h.item rest p) := by
    rw [dirCounts_perm hrest, dirCounts_cons hbelow]
  have hnew : dirCounts h₁.item v.items p =
      countAdded (h₁.item q) (dirCounts h.item rest p) := by
    rw [dirCounts_perm (hperm.trans hrest), dirCounts_cons hbelow₁]
    congr 1
    apply dirCounts_congr
    intro x hx
    unfold SameFields
    rw [hitem x fun e => hqrest (e ▸ hx)]
    exact ⟨rfl, rfl, rfl⟩
  have hinfo := hstats.directories b (by rw [hbb, hplaceb.2]; exact hdir)
    (Or.inr (by rw [hbb]; exact List.ne_nil_of_mem (hperm.mem_iff.mpr hmemq))) p hp
    (by rw [hbb, hplaceb.1]; exact hin)
  have hbefore := hk.statistics.directories b hdir (Or.inr (List.ne_nil_of_mem hmemq)) p hp hin
  rw [findPathInfo_eq] at hinfo hbefore
  simp only [hbb, hplaceb.1, hitem'] at hinfo hbefore
  have hsame : infosAt { bq' with queueSize := bq'.queueSize - (h₁.item q).size }
      (foldCase (h.bundle b).target) = bq'.infosAt (foldCase (h.bundle b).target) := rfl
  rw [hsame, hfind, hplaceb.1, hplaceb.2, hitem', htarget,
    if_pos ⟨hdir, rfl, hp, List.prefix_rfl, hin⟩, hbefore] at hinfo
  rw [show dirInfo h₁.item b v.items p = some ⟨p, b, dirCounts h₁.item v.items p⟩ from
    if_pos ⟨q, hperm.mem_iff.mpr hmemq, hbelow₁⟩] at hinfo
  unfold settle at hinfo
  simp only [dirInfo_getD, hold, hnew] at hinfo
  split at hinfo
  · exact absurd hinfo (by simp)
  · rw [Option.some.injEq, PathInfo.mk.injEq] at hinfo
    have hqueued := congrArg PathCounts.queuedFiles hinfo.2.2
    have hdone : (h₁.item q).isDownloaded = true := by rw [hitemq]; rfl
    simp [countRemoved, countAdded, hdone, hwait] at hqueued

end Kept

/-- **One step.** -/
theorem preserves_kept : ((bundleQueueSystem foldCase).restrict (Sound foldCase)).Preserves
    (Kept foldCase) := by
  intro s o hk ho
  obtain ⟨⟨-, ho⟩, hsound⟩ := ho
  cases o with
  | addBundle b => exact hk.addBundle ho
  | addBundleItem q b =>
    obtain ⟨s', hcall, hkept⟩ := hk.addBundleItem ho hsound
    show Kept foldCase ((BundleQueue.addBundleItem foldCase s.1 s.2 q b).getD s)
    rw [hcall]
    exact hkept
  | removeBundleItem q b =>
    obtain ⟨s', hcall, hkept⟩ := hk.removeBundleItem ho
    show Kept foldCase ((BundleQueue.removeBundleItem foldCase s.1 s.2 q b false).getD s)
    rw [hcall]
    exact hkept
  | completeItem q b =>
    obtain ⟨s', hcall, hkept⟩ := hk.completeItem ho hsound
    show Kept foldCase ((BundleQueue.removeBundleItem foldCase (withStatus s.1 q .downloaded) s.2 q
      b true).getD s)
    rw [hcall]
    exact hkept
  | removeBundle b => exact hk.removeBundle ho hsound
  | setStatus q status =>
    refine hk.setItem ?_ rfl
    exact ho.symm.imp id fun hd => ⟨rfl, rfl, hd⟩
  | clearBundle q => exact hk.setItem (Or.inl ho) rfl

/-- A directory bundle with a file of three blocks. -/
def sampleAdded : QueueState :=
  (bundleQueueSystem id).run (Heap.sample, empty) [.addBundleItem 0 0, .addBundle 0]

theorem sample_fresh : Fresh (Heap.sample, empty) where
  queue := rfl
  items _ := rfl
  bundle _ := rfl
  target _ _ := rfl

theorem sample_sound : Sound id (Heap.sample, empty) (.addBundleItem 0 0) := by
  intro _
  refine ⟨by decide, fun c _ _ hc => ?_⟩
  rcases hc with ⟨token, htoken⟩ | hc
  · exact absurd htoken (by simp [empty])
  · exact absurd rfl hc

/-- The heap once the file is in its bundle. -/
def sampleHeap : Heap :=
  Heap.sample.joinBundle 0 0 ((Heap.sample.bundle 0).addQueue Heap.sample.item 0)

theorem sample_call : ∃ bq, addBundleItem id Heap.sample empty 0 0 = some (sampleHeap, bq) := by
  have hk : Kept id (Heap.sample, empty) := sample_fresh.kept
  obtain ⟨s', hcall, -⟩ := hk.addBundleItem rfl sample_sound
  have hmap := hcall
  unfold addBundleItem at hmap
  obtain ⟨bq, -, hs'⟩ := Option.map_eq_some_iff.mp hmap
  rw [← hs'] at hcall
  exact ⟨_, hcall⟩

theorem sampleAdded_eq : ∃ bq,
    (bundleQueueSystem id).next (Heap.sample, empty) (.addBundleItem 0 0) = (sampleHeap, bq) ∧
      sampleAdded = addBundle sampleHeap bq 0 := by
  obtain ⟨bq, hcall⟩ := sample_call
  have hnext : (bundleQueueSystem id).next (Heap.sample, empty) (.addBundleItem 0 0) =
      (sampleHeap, bq) := by
    show (addBundleItem id Heap.sample empty 0 0).getD _ = _
    rw [hcall]
    rfl
  refine ⟨bq, hnext, ?_⟩
  show (bundleQueueSystem id).next ((bundleQueueSystem id).next (Heap.sample, empty)
    (.addBundleItem 0 0)) (.addBundle 0) = _
  rw [hnext]
  rfl

theorem sampleAdded_reached :
    Reaches ((bundleQueueSystem id).restrict (Sound id)) Fresh sampleAdded := by
  obtain ⟨bq, hnext, -⟩ := sampleAdded_eq
  refine Reaches.run (Reaches.start sample_fresh)
    ⟨⟨⟨?_, rfl⟩, sample_sound⟩, ⟨⟨rfl, ?_⟩, trivial⟩, trivial⟩
  · obtain ⟨bq, hcall⟩ := sample_call
    show (addBundleItem id Heap.sample empty 0 0).isSome
    rw [hcall]
    rfl
  · show (((bundleQueueSystem id).next (Heap.sample, empty)
      (.addBundleItem 0 0)).1.bundle 0).items ≠ []
    rw [hnext]
    exact (by decide : (sampleHeap.bundle 0).items ≠ [])

end BundleQueue

end Airdcpp
