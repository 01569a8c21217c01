import Airdcpp.Queue.DirectoryStatistics
import Airdcpp.Queue.QueueOperations

/-!
# `Queue/SourcesAgree` — the lists of the users over whole runs

`links` are the links of the items that wait for their download, read off the items alone. `Inv` says
that the lists have exactly these, and `Placed` that the items of a bundle are those that point at
it. An item that is being moved is in no bundle for a moment; `out` are such items.

Every operation takes the links of one item away and gives it others, or does so item by item; the
links of all other items (`others`) are not touched.
-/

namespace Airdcpp

open Lib ListMap

namespace SourceQueues

variable {locale : Locale} {st : Settings} {s t : SourceQueues} {L : List Link}
  {q x : QueueItemPtr} {b : BundlePtr} {v : UserPtr} {out : Set QueueItemPtr}

/-! ## The links of the items -/

def waiting (s : SourceQueues) (q : QueueItemPtr) : Bool := !(s.item q).isDownloaded

def itemLinks (s : SourceQueues) (q : QueueItemPtr) : List Link :=
  linksWith q (sourceUsers (s.item q))

/-- The links of those that are waiting. -/
def linksOf (s : SourceQueues) (l : List QueueItemPtr) : List Link :=
  (l.filter s.waiting).flatMap s.itemLinks

/-- The items that are waiting, and the users they can be downloaded from. -/
def links (s : SourceQueues) : List Link := s.linksOf s.fileQueue

/-- The links of the other items. -/
def others (s : SourceQueues) (q : QueueItemPtr) : List Link := s.linksOf (s.fileQueue.erase q)

theorem mem_linksOf {l : List QueueItemPtr} {k : Link} :
    k ∈ s.linksOf l ↔
      (k.1 ∈ l ∧ s.waiting k.1 = true) ∧ ∃ u ∈ sourceUsers (s.item k.1), u.user = k.2 := by
  unfold linksOf itemLinks linksWith
  rw [List.mem_flatMap]
  constructor
  · rintro ⟨x, hx, hk⟩
    obtain ⟨u, hu, rfl⟩ := List.mem_map.mp hk
    exact ⟨List.mem_filter.mp hx, u, hu, rfl⟩
  · rintro ⟨hx, u, hu, hk⟩
    exact ⟨k.1, List.mem_filter.mpr hx, List.mem_map.mpr ⟨u, hu, Prod.ext rfl hk⟩⟩

theorem linksOf_cons (l : List QueueItemPtr) :
    s.linksOf (q :: l) = if s.waiting q then s.itemLinks q ++ s.linksOf l else s.linksOf l := by
  unfold linksOf
  rw [List.filter_cons]
  split
  · exact List.flatMap_cons
  · rfl

theorem linksOf_perm {l l' : List QueueItemPtr} (h : l.Perm l') :
    (s.linksOf l).Perm (s.linksOf l') := (h.filter _).flatMap_right _

theorem linksOf_congr {l : List QueueItemPtr} (h : ∀ x ∈ l, t.item x = s.item x) :
    t.linksOf l = s.linksOf l := by
  unfold linksOf
  have hfilter : l.filter t.waiting = l.filter s.waiting :=
    List.filter_congr fun x hx => by rw [waiting, waiting, h x hx]
  rw [hfilter]
  refine List.flatMap_congr fun x hx => ?_
  rw [itemLinks, itemLinks, h x (List.mem_of_mem_filter hx)]

theorem links_perm (hq : q ∈ s.fileQueue) (hw : s.waiting q = true) :
    s.links.Perm (s.itemLinks q ++ s.others q) := by
  refine (linksOf_perm (List.perm_cons_erase hq)).trans ?_
  rw [linksOf_cons, if_pos hw]
  exact List.Perm.refl _

theorem links_perm_others (hq : q ∈ s.fileQueue → s.waiting q = false) :
    s.links.Perm (s.others q) := by
  by_cases hmem : q ∈ s.fileQueue
  · refine (linksOf_perm (List.perm_cons_erase hmem)).trans ?_
    rw [linksOf_cons, if_neg (by rw [hq hmem]; exact Bool.false_ne_true)]
    exact List.Perm.refl _
  · rw [links, others, List.erase_of_not_mem hmem]

theorem notMem_others (h : s.fileQueue.Nodup) : (q, v) ∉ s.others q := by
  intro hmem
  exact (List.Nodup.mem_erase_iff h).mp (mem_linksOf.mp hmem).1.1 |>.1 rfl

theorem others_congr (hn : s.fileQueue.Nodup) (hfile : t.fileQueue.erase q = s.fileQueue.erase q)
    (hitem : ∀ x, x ≠ q → t.item x = s.item x) : t.others q = s.others q := by
  unfold others
  rw [hfile]
  exact linksOf_congr fun x hx => hitem x ((List.Nodup.mem_erase_iff hn).mp hx).1

/-! ## Items and bundles -/

/-- The items of a bundle are those that are queued and point at it, except for those in `out`. -/
structure Placed (s : SourceQueues) (out : Set QueueItemPtr) : Prop where
  nodup : s.fileQueue.Nodup
  sources : ∀ q, ((sourceUsers (s.item q)).map (·.user)).Nodup
  filed : ∀ b, (s.bundle b).Filed s.item
  agree : ∀ b x, x ∈ (s.bundle b).items ↔
    x ∈ s.fileQueue ∧ x ∉ out ∧ (s.item x).bundle = some b

/-- What the runs keep. -/
structure Inv (s : SourceQueues) : Prop where
  placed : Placed s ∅
  registered : Registered s s.links

theorem Placed.sameItems (h : Placed s out) (hst : SameItems s t) : Placed t out where
  nodup := by
    rw [hst.fileQueue]
    exact h.nodup
  sources q := by
    rw [hst.item]
    exact h.sources q
  filed b := by
    rw [hst.item]
    have hf := h.filed b
    refine ⟨?_, ?_, ?_⟩
    · rw [Bundle.items, hst.queueItems, hst.finishedFiles]
      exact hf.nodup
    · rw [hst.queueItems]
      exact hf.queued
    · rw [hst.finishedFiles]
      exact hf.finished
  agree b x := by
    rw [Bundle.items, hst.queueItems, hst.finishedFiles, hst.fileQueue, hst.item]
    exact h.agree b x

/-- An item that is in no bundle changes as it likes, and the others keep their bundle and stay
    downloaded or waiting. -/
theorem Placed.setItem (h : Placed s out) {w : QueueItem}
    (hw : q ∈ out ∨ q ∉ s.fileQueue ∨ w.bundle = (s.item q).bundle ∧
      w.isDownloaded = (s.item q).isDownloaded)
    (hsources : ((sourceUsers w).map (·.user)).Nodup) : Placed (s.setItem q w) out where
  nodup := h.nodup
  sources x := by
    rcases eq_or_ne x q with rfl | hx
    · rw [item_setItem_self]
      exact hsources
    · rw [item_setItem_ne hx]
      exact h.sources x
  filed c := by
    refine (h.filed c).congr fun x hx => ?_
    rcases eq_or_ne x q with rfl | hxq
    · rw [item_setItem_self]
      rcases hw with hout | hno | hsame
      · exact absurd hout ((h.agree c x).mp hx).2.1
      · exact absurd ((h.agree c x).mp hx).1 hno
      · exact hsame.2
    · rw [item_setItem_ne hxq]
  agree c x := by
    refine (h.agree c x).trans ?_
    change _ ↔ x ∈ s.fileQueue ∧ x ∉ out ∧ ((s.setItem q w).item x).bundle = some c
    rcases eq_or_ne x q with rfl | hxq
    · rw [item_setItem_self]
      rcases hw with hout | hno | hsame
      · exact iff_of_false (fun hl => hl.2.1 hout) fun hl => hl.2.1 hout
      · exact iff_of_false (fun hl => hno hl.1) fun hl => hno hl.1
      · rw [hsame.1]
    · rw [item_setItem_ne hxq]

theorem Placed.queued (h : Placed s out) (hq : q ∈ (s.bundle b).queueItems) :
    q ∈ s.fileQueue ∧ s.waiting q = true := by
  refine ⟨((h.agree b q).mp (List.mem_append_left _ hq)).1, ?_⟩
  rw [waiting, (h.filed b).queued q hq]
  rfl

/-- Whether an item without a bundle is out makes no difference. -/
theorem Placed.congr_out {out' : Set QueueItemPtr} (h : Placed s out)
    (hout : ∀ x c, (s.item x).bundle = some c → (x ∈ out' ↔ x ∈ out)) : Placed s out' where
  nodup := h.nodup
  sources := h.sources
  filed := h.filed
  agree c x := by
    refine (h.agree c x).trans ?_
    exact and_congr_right fun _ => and_congr_left fun hx => not_congr (hout x c hx).symm

theorem mem_out_iff (hb : (s.item q).bundle = none) (hx : (s.item x).bundle = some b) :
    x ∈ ({q} : Set QueueItemPtr) ↔ x ∈ (∅ : Set QueueItemPtr) := by
  refine iff_of_false ?_ id
  rintro rfl
  rw [hb] at hx
  cases hx

theorem Placed.out_of_none (h : Placed s ∅) (hb : (s.item q).bundle = none) : Placed s {q} :=
  h.congr_out fun _ _ hx => mem_out_iff hb hx

theorem Placed.of_none (h : Placed s {q}) (hb : (s.item q).bundle = none) : Placed s ∅ :=
  h.congr_out fun _ _ hx => (mem_out_iff hb hx).symm

/-- What is done to one bundle. -/
theorem Placed.setBundle {d : Bundle} {out' : Set QueueItemPtr} (h : Placed s out)
    (hd : d.Filed s.item) (hb : ∀ x, x ∈ d.items ↔
      x ∈ s.fileQueue ∧ x ∉ out' ∧ (s.item x).bundle = some b)
    (hne : ∀ x c, c ≠ b → (s.item x).bundle = some c → (x ∈ out' ↔ x ∈ out)) :
    Placed (s.setBundle b d) out' where
  nodup := h.nodup
  sources := h.sources
  filed c := by
    rcases eq_or_ne c b with rfl | hc
    · rw [bundle_setBundle_self]
      exact hd
    · rw [bundle_setBundle_ne hc]
      exact h.filed c
  agree c x := by
    change _ ↔ x ∈ s.fileQueue ∧ x ∉ out' ∧ (s.item x).bundle = some c
    rcases eq_or_ne c b with rfl | hc
    · rw [bundle_setBundle_self]
      exact hb x
    · rw [bundle_setBundle_ne hc, h.agree c x]
      exact and_congr_right fun _ => and_congr_left fun hx => not_congr (hne x c hc hx).symm

theorem removeBundleItem_none {fin : Bool} (hb : (s.item q).bundle = none) :
    s.removeBundleItem q fin = s := by
  unfold removeBundleItem
  rw [hb]

theorem removeBundleItem_some {fin : Bool} (hb : (s.item q).bundle = some b) :
    s.removeBundleItem q fin = s.setBundle b ((s.bundle b).removeQueue s.item q fin) := by
  unfold removeBundleItem
  rw [hb]

theorem item_removeBundleItem {fin : Bool} : (s.removeBundleItem q fin).item = s.item := by
  cases hb : (s.item q).bundle with
  | none => rw [removeBundleItem_none hb]
  | some b => rw [removeBundleItem_some hb]; rfl

theorem fileQueue_removeBundleItem {fin : Bool} :
    (s.removeBundleItem q fin).fileQueue = s.fileQueue := by
  cases hb : (s.item q).bundle with
  | none => rw [removeBundleItem_none hb]
  | some b => rw [removeBundleItem_some hb]; rfl

/-- An item leaves its bundle. -/
theorem Placed.removeBundleItem (h : Placed s ∅) (hq : q ∈ s.fileQueue) :
    Placed (s.removeBundleItem q false) {q} := by
  cases hb : (s.item q).bundle with
  | none =>
    rw [removeBundleItem_none hb]
    exact h.out_of_none hb
  | some b =>
    rw [removeBundleItem_some hb]
    have hitems : q ∈ (s.bundle b).items := (h.agree b q).mpr ⟨hq, id, hb⟩
    obtain ⟨hfiled, hperm⟩ := (h.filed b).removeQueue hitems
    have hnodup := List.nodup_cons.mp (hperm.nodup_iff.mpr (h.filed b).nodup)
    refine h.setBundle hfiled (fun x => ?_) fun x c hc hx => ?_
    · rw [← and_assoc, and_right_comm]
      refine Iff.trans ?_ (and_congr_left fun _ => (h.agree b x).trans (by simp))
      rw [← hperm.mem_iff, List.mem_cons]
      constructor
      · intro hx
        exact ⟨Or.inr hx, fun he => hnodup.1 (Set.mem_singleton_iff.mp he ▸ hx)⟩
      · rintro ⟨hx, hne⟩
        exact hx.resolve_left fun he => hne (Set.mem_singleton_iff.mpr he)
    · refine iff_of_false (fun he => hc ?_) id
      rw [Set.mem_singleton_iff.mp he, hb] at hx
      exact (Option.some.inj hx).symm

/-- An item that is in no bundle joins one. -/
theorem Placed.addBundleItem (h : Placed s {q}) (hq : q ∈ s.fileQueue) (b : BundlePtr) :
    Placed (s.addBundleItem q b) ∅ := by
  have hno : ∀ c, q ∉ (s.bundle c).items := fun c hc => ((h.agree c q).mp hc).2.1 rfl
  have hitem : ∀ x, x ≠ q → (s.addBundleItem q b).item x = s.item x := fun x hx =>
    Heap.joinBundle_item_ne hx
  have hself : (s.addBundleItem q b).item q = { s.item q with bundle := some b } :=
    Heap.joinBundle_item_self
  have hdown : ∀ x, ((s.addBundleItem q b).item x).isDownloaded = (s.item x).isDownloaded := by
    intro x
    rcases eq_or_ne x q with rfl | hx
    · rw [hself]
      rfl
    · rw [hitem x hx]
  have hbundle : ∀ c, c ≠ b → (s.addBundleItem q b).bundle c = s.bundle c := fun c hc =>
    Heap.joinBundle_bundle_ne hc
  have hown : (s.addBundleItem q b).bundle b = (s.bundle b).addQueue s.item q :=
    Heap.joinBundle_bundle_self
  refine ⟨h.nodup, fun x => ?_, fun c => ?_, fun c x => ?_⟩
  · rcases eq_or_ne x q with rfl | hx
    · rw [hself]
      exact h.sources x
    · rw [hitem x hx]
      exact h.sources x
  · rcases eq_or_ne c b with rfl | hc
    · rw [hown]
      exact ((h.filed c).addQueue (hno c)).congr fun x _ => hdown x
    · rw [hbundle c hc]
      exact (h.filed c).congr fun x _ => hdown x
  · change _ ↔ x ∈ s.fileQueue ∧ x ∉ (∅ : Set QueueItemPtr) ∧ _
    rcases eq_or_ne c b with rfl | hc
    · rw [hown, (Bundle.addQueue_items s.item (s.bundle c) q).mem_iff, List.mem_cons, h.agree]
      rcases eq_or_ne x q with rfl | hx
      · rw [hself]
        exact iff_of_true (Or.inl rfl) ⟨hq, id, rfl⟩
      · rw [hitem x hx]
        simp [hx]
    · rw [hbundle c hc, h.agree]
      rcases eq_or_ne x q with rfl | hx
      · rw [hself]
        refine iff_of_false (fun hl => hl.2.1 rfl) fun hl => hc ?_
        exact (Option.some.inj hl.2.2).symm
      · rw [hitem x hx]
        simp [hx]

/-- An item that is in no bundle leaves the queue. -/
theorem Placed.removeFile (h : Placed s {q}) : Placed (s.removeFile q) ∅ where
  nodup := h.nodup.erase q
  sources := h.sources
  filed := h.filed
  agree c x := by
    refine (h.agree c x).trans ?_
    change _ ↔ x ∈ s.fileQueue.erase q ∧ x ∉ (∅ : Set QueueItemPtr) ∧ (s.item x).bundle = some c
    rw [h.nodup.mem_erase_iff]
    simp only [Set.mem_singleton_iff, Set.mem_empty_iff_false, not_false_eq_true, true_and]
    exact ⟨fun hl => ⟨⟨hl.2.1, hl.1⟩, hl.2.2⟩, fun hl => ⟨hl.1.2, hl.1.1, hl.2⟩⟩

/-- A new item is in no bundle. -/
theorem Placed.addFile (h : Placed s ∅) (hq : q ∉ s.fileQueue) {w : QueueItem}
    (hw : ((sourceUsers w).map (·.user)).Nodup) : Placed (s.addFile q w) {q} := by
  have hset := h.setItem (w := w) (Or.inr (Or.inl hq)) hw
  refine ⟨?_, hset.sources, hset.filed, fun c x => (hset.agree c x).trans ?_⟩
  · exact List.nodup_append'.mpr ⟨h.nodup, List.nodup_singleton q,
      List.disjoint_singleton.mpr hq⟩
  · change x ∈ s.fileQueue ∧ _ ↔ x ∈ s.fileQueue ++ [q] ∧ x ∉ ({q} : Set QueueItemPtr) ∧
      ((s.setItem q w).item x).bundle = some c
    rcases eq_or_ne x q with rfl | hx
    · exact iff_of_false (fun hl => hq hl.1) fun hl => hl.2.1 rfl
    · simp [hx]

/-- A waiting item is finished and changes sides. -/
theorem Placed.finishItem (h : Placed s ∅) (hq : q ∈ s.fileQueue) (hw : s.waiting q = true)
    (hb : (s.item q).bundle = some b) {w : QueueItem} (hwb : w.bundle = some b)
    (hwd : w.isDownloaded = true) (hsources : ((sourceUsers w).map (·.user)).Nodup) :
    Placed ((s.setItem q w).removeBundleItem q true) ∅ := by
  have hitems : q ∈ (s.bundle b).items := (h.agree b q).mpr ⟨hq, id, hb⟩
  have hnot : (s.item q).isDownloaded = false := by simpa [waiting] using hw
  have hqueue : q ∈ (s.bundle b).queueItems := by
    rcases List.mem_append.mp hitems with hl | hl
    · exact hl
    · exact absurd ((h.filed b).finished q hl) (by rw [hnot]; exact Bool.false_ne_true)
  have hsame : ∀ x, x ≠ q → (s.setItem q w).item x = s.item x := fun x hx => item_setItem_ne hx
  have hself : (s.setItem q w).item q = w := item_setItem_self
  have heq : (s.setItem q w).removeBundleItem q true =
      (s.setItem q w).setBundle b ((s.bundle b).removeQueue (s.setItem q w).item q true) :=
    removeBundleItem_some (by rw [hself, hwb])
  have hpoint : ∀ x, ((s.setItem q w).item x).bundle = (s.item x).bundle := by
    intro x
    rcases eq_or_ne x q with rfl | hx
    · rw [hself, hwb, hb]
    · rw [hsame x hx]
  have hdone : ((s.setItem q w).item q).isDownloaded = true := by
    rw [hself]
    exact hwd
  rw [heq]
  refine ⟨h.nodup, fun x => ?_, fun c => ?_, fun c x => ?_⟩
  · change ((sourceUsers ((s.setItem q w).item x)).map (·.user)).Nodup
    rcases eq_or_ne x q with rfl | hx
    · rw [hself]
      exact hsources
    · rw [hsame x hx]
      exact h.sources x
  · change Bundle.Filed (s.setItem q w).item _
    rcases eq_or_ne c b with rfl | hc
    · rw [bundle_setBundle_self]
      exact (h.filed c).complete hqueue hdone hsame
    · rw [bundle_setBundle_ne hc]
      refine (h.filed c).congr fun x hx => ?_
      have hne : x ≠ q := by
        rintro rfl
        have hother := ((h.agree c x).mp hx).2.2
        rw [hb] at hother
        exact hc (Option.some.inj hother).symm
      rw [hsame x hne]
  · change _ ↔ x ∈ s.fileQueue ∧ x ∉ (∅ : Set QueueItemPtr) ∧
      ((s.setItem q w).item x).bundle = some c
    rw [hpoint, ← h.agree]
    rcases eq_or_ne c b with rfl | hc
    · rw [bundle_setBundle_self]
      exact (Bundle.removeQueue_items_of_completed _ hqueue).mem_iff
    · rw [bundle_setBundle_ne hc]
      exact Iff.rfl

/-! ## Bundles whose items change -/

/-- The lists and the place of a bundle. -/
def listed (b : Bundle) :
    (Priority → UserPtr → Option (List QueueItemPtr)) × List Bundle.BundleSource × Priority × Int :=
  (b.userQueue, b.sources, b.priority, b.timeAdded)

theorem same_of_listed {b c : Bundle} (h : listed c = listed b) : SameLists b c ∧ SameOrder b c := by
  simp only [listed, Prod.mk.injEq] at h
  exact ⟨⟨h.1, h.2.1⟩, ⟨h.2.2.1, h.2.2.2⟩⟩

theorem listed_setDirty (b : Bundle) : listed b.setDirty = listed b := by
  unfold Bundle.setDirty
  split <;> rfl

theorem listed_addQueue (item : QueueItemPtr → QueueItem) (b : Bundle) (q : QueueItemPtr) :
    listed (b.addQueue item q) = listed b := by
  unfold Bundle.addQueue
  split
  · exact listed_setDirty _
  · exact listed_setDirty _

theorem listed_removeQueue (item : QueueItemPtr → QueueItem) (b : Bundle) (q : QueueItemPtr)
    (fin : Bool) : listed (b.removeQueue item q fin) = listed b := by
  unfold Bundle.removeQueue
  split
  · unfold Bundle.removeFinishedItem
    split <;> rfl
  · cases fin with
    | true => by_cases hq : q ∈ b.queueItems <;> simp [listed, Bundle.addFinishedItem, hq]
    | false =>
      by_cases hq : q ∈ b.queueItems <;>
        by_cases hpos : (item q).getDownloadedSegments > 0 <;>
          simp [listed, hq, hpos, Bundle.decreaseSize, Bundle.removeFinishedSegment]

theorem Registered.removeBundleItem (h : Registered s L) (q : QueueItemPtr) (fin : Bool) :
    Registered (s.removeBundleItem q fin) L := by
  cases hb : (s.item q).bundle with
  | none =>
    rw [removeBundleItem_none hb]
    exact h
  | some b =>
    rw [removeBundleItem_some hb]
    obtain ⟨hlists, horder⟩ := same_of_listed (listed_removeQueue s.item (s.bundle b) q fin)
    exact h.setBundle hlists horder

theorem Registered.addBundleItem (h : Registered s L) (hq : ∀ v, (q, v) ∉ L) (b : BundlePtr) :
    Registered (s.addBundleItem q b) L := by
  obtain ⟨hlists, horder⟩ := same_of_listed (listed_addQueue s.item (s.bundle b) q)
  exact (h.setBundle hlists horder).setItem hq { s.item q with bundle := some b }

theorem Registered.removeFile (h : Registered s L) : Registered (s.removeFile q) L :=
  h.of_places _ (fun _ _ => SameLink.refl _) (fun _ => SameLists.refl _) fun _ => SameOrder.refl _

theorem Registered.addFile (h : Registered s L) (hq : ∀ v, (q, v) ∉ L) (w : QueueItem) :
    Registered (s.addFile q w) L := (h.setItem hq w).of_places _ (fun _ _ => SameLink.refl _)
      (fun _ => SameLists.refl _) fun _ => SameOrder.refl _

/-- The bundle of an item changes, and nothing that the lists look at. -/
theorem onBundle_cases {P : SourceQueues → Prop} {f : Bundle → Bundle} (hs : P s)
    (hb : ∀ b, P (s.setBundle b (f (s.bundle b)))) :
    P { s with heap := s.heap.onBundle q f } := by
  unfold Heap.onBundle
  cases (s.heap.item q).bundle with
  | none => exact hs
  | some b => exact hb b

/-! ## The operations -/

theorem Inv.of_others (hp : Placed t ∅) (h : Registered t (t.others q))
    (hq : q ∈ t.fileQueue → t.waiting q = false) : Inv t :=
  ⟨hp, h.perm (links_perm_others hq).symm⟩

theorem Inv.of_waiting (hp : Placed t ∅) (h : Registered t (t.itemLinks q ++ t.others q))
    (hq : q ∈ t.fileQueue) (hw : t.waiting q = true) : Inv t :=
  ⟨hp, h.perm (links_perm hq hw).symm⟩

theorem links_sameItems (h : SameItems s t) : t.links = s.links := by
  unfold links
  rw [h.fileQueue]
  exact linksOf_congr fun x _ => congrFun h.item x

theorem Inv.sameItems (h : Inv s) (hst : SameItems s t) (hr : Registered t s.links) : Inv t :=
  ⟨h.placed.sameItems hst, (links_sameItems hst).symm ▸ hr⟩

theorem others_sameItems (h : SameItems s t) : t.others q = s.others q := by
  unfold others
  rw [h.fileQueue]
  exact linksOf_congr fun x _ => congrFun h.item x

/-- All links of an item are taken away. -/
theorem Inv.removeQIs (h : Inv s) (hq : q ∈ s.fileQueue) (hw : s.waiting q = true) :
    Registered (s.removeQIs q) (s.others q) :=
  (h.registered.perm (links_perm hq hw)).removeAll

theorem sameItems_removeQIs : SameItems s (s.removeQIs q) := sameItems_removeAll

theorem sameItems_addQIs {rand : UserPtr → Nat} : SameItems s (s.addQIs locale st q rand) :=
  sameItems_addAll

theorem Registered.addQIs (h : Registered s L) (locale : Locale) (st : Settings)
    (q : QueueItemPtr) (rand : UserPtr → Nat) :
    Registered (s.addQIs locale st q rand) (s.itemLinks q ++ L) := h.addAll

/-- A record with the same sources, in the same bundle, still waiting or still finished. -/
structure SameState (v w : QueueItem) : Prop where
  bundle : w.bundle = v.bundle
  downloaded : w.isDownloaded = v.isDownloaded
  users : (sourceUsers w).map (·.user) = (sourceUsers v).map (·.user)

theorem linksWith_eq {us : List HintedUser} :
    linksWith q us = (us.map (·.user)).map fun u => (q, u) := by
  rw [linksWith, List.map_map]
  rfl

theorem itemLinks_setItem_self {w : QueueItem} :
    (s.setItem q w).itemLinks q = linksWith q (sourceUsers w) := by
  rw [itemLinks, item_setItem_self]

theorem waiting_setItem_self {w : QueueItem} : (s.setItem q w).waiting q = !w.isDownloaded := by
  rw [waiting, item_setItem_self]

theorem others_setItem (hn : s.fileQueue.Nodup) {w : QueueItem} :
    (s.setItem q w).others q = s.others q := others_congr hn rfl fun _ hx => item_setItem_ne hx

theorem Placed.setItem_same (h : Placed s out) {w : QueueItem} (hw : SameState (s.item q) w) :
    Placed (s.setItem q w) out :=
  h.setItem (Or.inr (Or.inr ⟨hw.bundle, hw.downloaded⟩)) (hw.users ▸ h.sources q)

/-- The record of an item changes, and neither where it is listed nor by whom. -/
theorem Inv.setItem (h : Inv s) {w : QueueItem} (hw : SameState (s.item q) w)
    (hlink : q ∈ s.fileQueue → s.waiting q = true → SameLink (s.item q) w) :
    Inv (s.setItem q w) := by
  have hp := h.placed.setItem_same hw
  by_cases hwait : q ∈ s.fileQueue ∧ s.waiting q = true
  · refine Inv.of_waiting (q := q) hp ?_ hwait.1 ?_
    · rw [others_setItem h.placed.nodup, itemLinks_setItem_self, linksWith_eq, hw.users,
        ← linksWith_eq]
      exact (h.registered.perm (links_perm hwait.1 hwait.2)).setItem_same
        (hlink hwait.1 hwait.2)
    · rw [waiting_setItem_self, hw.downloaded]
      exact hwait.2
  · have hnot : q ∈ s.fileQueue → s.waiting q = false := fun hq =>
      Bool.eq_false_iff.mpr fun hq' => hwait ⟨hq, hq'⟩
    refine Inv.of_others (q := q) hp ?_ fun hq => ?_
    · rw [others_setItem h.placed.nodup]
      exact (h.registered.perm (links_perm_others hnot)).setItem
        (fun _ => notMem_others h.placed.nodup) _
    · rw [waiting_setItem_self, hw.downloaded]
      exact hnot hq

theorem Inv.setBundle (h : Inv s) {d : Bundle} (hd : SameLists (s.bundle b) d)
    (horder : SameOrder (s.bundle b) d) (hq : d.queueItems = (s.bundle b).queueItems)
    (hf : d.finishedFiles = (s.bundle b).finishedFiles) : Inv (s.setBundle b d) :=
  h.sameItems (SameItems.setBundle hq hf) (h.registered.setBundle hd horder)

theorem Inv.onBundle (h : Inv s) {f : Bundle → Bundle} (hf : ∀ b, listed (f b) = listed b)
    (hq : ∀ b, (f b).queueItems = b.queueItems) (hfin : ∀ b, (f b).finishedFiles = b.finishedFiles) :
    Inv { s with heap := s.heap.onBundle q f } := by
  refine onBundle_cases (P := Inv) h fun b => ?_
  obtain ⟨hlists, horder⟩ := same_of_listed (hf (s.bundle b))
  exact h.setBundle hlists horder (hq _) (hfin _)

theorem Inv.setDirty (h : Inv s) : Inv (s.setDirty q) :=
  h.onBundle listed_setDirty Bundle.setDirty_queueItems Bundle.setDirty_finishedFiles

/-- An item without sources has no links. -/
theorem Inv.of_no_sources (hp : Placed t ∅) (h : Registered t (t.others q))
    (hq : (t.item q).sources = []) : Inv t := by
  have hnil : t.itemLinks q = [] := by
    rw [itemLinks, sourceUsers, hq]
    rfl
  by_cases hw : q ∈ t.fileQueue ∧ t.waiting q = true
  · refine Inv.of_waiting hp ?_ hw.1 hw.2
    rw [hnil, List.nil_append]
    exact h
  · exact Inv.of_others hp h fun hq => Bool.eq_false_iff.mpr fun hq' => hw ⟨hq, hq'⟩

theorem others_addFile (hq : q ∉ s.fileQueue) {w : QueueItem} :
    (s.addFile q w).others q = s.links := by
  have hfile : (s.fileQueue ++ [q]).erase q = s.fileQueue := by
    rw [List.erase_append_right _ hq, List.erase_cons_head, List.append_nil]
  unfold others links
  change linksOf (s.addFile q w) ((s.fileQueue ++ [q]).erase q) = _
  rw [hfile]
  exact linksOf_congr fun x hx => item_setItem_ne fun he => hq (he ▸ hx)

theorem Registered.addFile_links (h : Registered s s.links) (hq : q ∉ s.fileQueue)
    (w : QueueItem) : Registered (s.addFile q w) ((s.addFile q w).others q) := by
  rw [others_addFile hq]
  exact h.addFile (fun v hv => hq (mem_linksOf.mp hv).1.1) w

/-- An item that is in no list yet. -/
theorem Inv.addFile (h : Inv s) (hq : q ∉ s.fileQueue) {w : QueueItem} (hw : w.sources = [])
    (hb : w.bundle = none) : Inv (s.addFile q w) := by
  have hitem : (s.addFile q w).item q = w := item_setItem_self
  have hp : Placed (s.addFile q w) {q} := by
    refine h.placed.addFile hq ?_
    rw [sourceUsers, hw]
    exact List.nodup_nil
  exact Inv.of_no_sources (hp.of_none (hitem.symm ▸ hb)) (h.registered.addFile_links hq w)
    (hitem.symm ▸ hw)

/-- An item that is in no bundle and has no links leaves the queue. -/
theorem Inv.of_removeFile (h : Inv s) (hp : Placed t {q}) (hr : Registered t (s.others q))
    (hfile : t.fileQueue = s.fileQueue) (hitem : ∀ x, x ≠ q → t.item x = s.item x) :
    Inv (t.removeFile q) := by
  have hgone : q ∉ s.fileQueue.erase q := fun hm => (h.placed.nodup.mem_erase_iff.mp hm).1 rfl
  have hleft : (t.removeFile q).fileQueue = s.fileQueue.erase q := congrArg (List.erase · q) hfile
  have hothers : (t.removeFile q).others q = s.others q := by
    refine others_congr h.placed.nodup ?_ hitem
    rw [hleft, List.erase_of_not_mem hgone]
  refine Inv.of_others (q := q) hp.removeFile ?_ fun hm => absurd (hleft ▸ hm) hgone
  rw [hothers]
  exact hr.removeFile

theorem Inv.removeItem (h : Inv s) (hq : q ∈ s.fileQueue) : Inv (s.removeItem q) := by
  have hout : ∃ t, SameItems s t ∧ Registered t (s.others q) ∧
      s.removeItem q = (t.removeFile q).removeBundleItem q false := by
    unfold SourceQueues.removeItem
    by_cases hw : s.waiting q = true
    · exact ⟨_, sameItems_removeQIs, h.removeQIs hq hw, congrArg
        (fun t : SourceQueues => (t.removeFile q).removeBundleItem q false) (if_pos hw)⟩
    · refine ⟨s, SameItems.refl s, ?_, congrArg
        (fun t : SourceQueues => (t.removeFile q).removeBundleItem q false) (if_neg hw)⟩
      exact h.registered.perm (links_perm_others fun _ => Bool.eq_false_iff.mpr hw)
  obtain ⟨t, hst, hreg, heq⟩ := hout
  have hmem : q ∈ t.fileQueue := hst.fileQueue.symm ▸ hq
  -- the bundle does not look at the file queue
  have hswap : (t.removeFile q).removeBundleItem q false =
      (t.removeBundleItem q false).removeFile q := by
    cases hb : (t.item q).bundle with
    | none => rw [removeBundleItem_none hb, removeBundleItem_none (s := t.removeFile q) hb]
    | some b =>
      rw [removeBundleItem_some hb, removeBundleItem_some (s := t.removeFile q) hb]
      rfl
  rw [heq, hswap]
  refine h.of_removeFile ((h.placed.sameItems hst).removeBundleItem hmem)
    (hreg.removeBundleItem q false) ?_ fun x _ => ?_
  · rw [fileQueue_removeBundleItem, hst.fileQueue]
  · rw [item_removeBundleItem, hst.item]

end SourceQueues
end Airdcpp
