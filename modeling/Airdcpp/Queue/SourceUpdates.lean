import Airdcpp.Queue.SourceQueues

/-!
# `Queue/SourceUpdates` — the lists of the users when the items and bundles change

The lists look at the bundle, the priority and the size of an item that has links, and at the
priority and the age of a bundle; everything else can change (`Registered.of_heap`). All users of an
item come and go together (`Registered.addAll`, `Registered.removeAll`), and a bundle whose priority
changes is moved in the lists of all its users (`Registered.setBundlePriority`).
-/

namespace Airdcpp

open Lib ListMap

namespace SourceQueues

variable {locale : Locale} {st : Settings} {s : SourceQueues} {L : List Link}
  {q : QueueItemPtr} {b : BundlePtr} {u : HintedUser} {v : UserPtr} {rand : Nat} {bad : Bool}
  {reason : MaskType} {item : QueueItemPtr → QueueItem}

/-! ## What the lists do not look at -/

/-- An item that is listed in the same places. The sizes are counted with the bundles. -/
structure SameLink (q w : QueueItem) : Prop where
  bundle : w.bundle = q.bundle
  priority : w.priority = q.priority
  size : q.bundle.isSome = true → w.size = q.size

/-- A bundle with the same lists. -/
structure SameLists (b c : Bundle) : Prop where
  userQueue : c.userQueue = b.userQueue
  sources : c.sources = b.sources

theorem SameLink.refl (q : QueueItem) : SameLink q q := ⟨rfl, rfl, fun _ => rfl⟩

theorem SameLists.refl (b : Bundle) : SameLists b b := ⟨rfl, rfl⟩

theorem bundleLinks_congr {item' : QueueItemPtr → QueueItem}
    (h : ∀ l ∈ L, (item' l.1).bundle = (item l.1).bundle) (b : BundlePtr) (u : UserPtr) :
    bundleLinks item' L b u = bundleLinks item L b u := by
  refine List.countP_congr fun l hl => ?_
  rw [h l hl]

theorem linkedBytes_congr {item' : QueueItemPtr → QueueItem}
    (h : ∀ l ∈ L, SameLink (item l.1) (item' l.1)) (u : UserPtr) :
    linkedBytes item' L u = linkedBytes item L u := by
  unfold linkedBytes
  have hfilter : (L.filter fun l => decide (l.2 = u) && (item' l.1).bundle.isSome) =
      L.filter fun l => decide (l.2 = u) && (item l.1).bundle.isSome := by
    refine List.filter_congr fun l hl => ?_
    rw [(h l hl).bundle]
  rw [hfilter]
  refine congrArg _ (List.map_congr_left fun l hl => ?_)
  obtain ⟨hmem, hl⟩ := List.mem_filter.mp hl
  exact (h l hmem).size (Bool.and_elim_right hl)

/-- **Everything else can change.** The items without a link are free, and the user queue is what
    fits the order of the bundles. -/
theorem Registered.of_heap (h : Registered s L) {heap : Heap}
    {m : UserPtr → Option (List BundlePtr)} (fileQueue : List QueueItemPtr)
    (hitem : ∀ l ∈ L, SameLink (s.item l.1) (heap.item l.1))
    (hbundle : ∀ b, SameLists (s.bundle b) (heap.bundle b))
    (hm : ListsBundles heap.bundle (fun b => (s.bundle b).isSource) m) :
    Registered { s with heap := heap, fileQueue := fileQueue, userBundleQueue := m } L where
  filled b p := by
    change Filled ((heap.bundle b).userQueue p)
    rw [(hbundle b).userQueue]
    exact h.filled b p
  count b p u q := by
    change (listAt ((heap.bundle b).userQueue p) u).count q =
      if (heap.item q).bundle = some b ∧ (heap.item q).priority = p then L.count (q, u) else 0
    rw [(hbundle b).userQueue, h.count]
    by_cases hmem : (q, u) ∈ L
    · rw [(hitem _ hmem).bundle, (hitem _ hmem).priority]
    · rw [List.count_eq_zero.mpr hmem, ite_self, ite_self]
  sources b := by
    change Bundle.CountsFiles (heap.bundle b).sources (bundleLinks heap.item L b)
    rw [(hbundle b).sources]
    exact (h.sources b).congr fun u => bundleLinks_congr (fun l hl => (hitem l hl).bundle) b u
  bundles := by
    refine hm.congr (fun b u => ?_) fun _ _ => rfl
    exact congrArg (fun l => (Bundle.findSource l u).isSome) (hbundle b).sources
  prio := by
    refine ⟨h.prio.filled, fun u q => ?_⟩
    rw [h.prio.count]
    change _ = if (heap.item q).priority = .highest then L.count (q, u) else 0
    by_cases hmem : (q, u) ∈ L
    · rw [(hitem _ hmem).priority]
    · rw [List.count_eq_zero.mpr hmem, ite_self, ite_self]
  queued u := (h.queued u).trans (linkedBytes_congr hitem u).symm

/-- The user queue stays as it is. -/
theorem Registered.of_places (h : Registered s L) {heap : Heap} (fileQueue : List QueueItemPtr)
    (hitem : ∀ l ∈ L, SameLink (s.item l.1) (heap.item l.1))
    (hbundle : ∀ b, SameLists (s.bundle b) (heap.bundle b))
    (hplace : ∀ b, SameOrder (s.bundle b) (heap.bundle b)) :
    Registered { s with heap := heap, fileQueue := fileQueue } L :=
  h.of_heap fileQueue hitem hbundle <| h.bundles.congr (fun _ _ => rfl) (sortOrder_of_same hplace)

/-- An item without a link becomes any other. -/
theorem Registered.setItem (h : Registered s L) (hq : ∀ v, (q, v) ∉ L) (w : QueueItem) :
    Registered (s.setItem q w) L := by
  refine h.of_places s.fileQueue (fun l hl => ?_) (fun b => SameLists.refl _)
    fun b => SameOrder.refl _
  have hne : l.1 ≠ q := by
    rintro rfl
    exact hq l.2 hl
  rw [Heap.setItem_item_ne _ _ hne]
  exact SameLink.refl _

/-- An item that is listed in the same places. -/
theorem Registered.setItem_same (h : Registered s L) {w : QueueItem} (hw : SameLink (s.item q) w) :
    Registered (s.setItem q w) L := by
  refine h.of_places s.fileQueue (fun l _ => ?_) (fun b => SameLists.refl _)
    fun b => SameOrder.refl _
  rcases eq_or_ne l.1 q with hq | hq
  · rw [hq, Heap.setItem_item_self]
    exact hw
  · rw [Heap.setItem_item_ne _ _ hq]
    exact SameLink.refl _

theorem Registered.setBundle (h : Registered s L) {c : Bundle} (hc : SameLists (s.bundle b) c)
    (hplace : SameOrder (s.bundle b) c) : Registered (s.setBundle b c) L :=
  h.of_places s.fileQueue (fun _ _ => SameLink.refl _) (setBundle_cases SameLists.refl hc)
    (setBundle_cases SameOrder.refl hplace)

/-! ## What `addQI` and `removeQI` leave alone -/

/-- The items, and the items of each bundle. -/
structure SameItems (s t : SourceQueues) : Prop where
  item : t.item = s.item
  fileQueue : t.fileQueue = s.fileQueue
  queueItems : ∀ b, (t.bundle b).queueItems = (s.bundle b).queueItems
  finishedFiles : ∀ b, (t.bundle b).finishedFiles = (s.bundle b).finishedFiles

theorem SameItems.refl (s : SourceQueues) : SameItems s s := ⟨rfl, rfl, fun _ => rfl, fun _ => rfl⟩

theorem SameItems.trans {s t w : SourceQueues} (h : SameItems s t) (h' : SameItems t w) :
    SameItems s w where
  item := h'.item.trans h.item
  fileQueue := h'.fileQueue.trans h.fileQueue
  queueItems b := (h'.queueItems b).trans (h.queueItems b)
  finishedFiles b := (h'.finishedFiles b).trans (h.finishedFiles b)

theorem SameItems.setBundle {c : Bundle} (hq : c.queueItems = (s.bundle b).queueItems)
    (hf : c.finishedFiles = (s.bundle b).finishedFiles) : SameItems s (s.setBundle b c) :=
  ⟨rfl, rfl, setBundle_cases (P := fun d e => e.queueItems = d.queueItems) (fun _ => rfl) hq,
    setBundle_cases (P := fun d e => e.finishedFiles = d.finishedFiles) (fun _ => rfl) hf⟩

theorem sameItems_addQI : SameItems s (s.addQI locale st q u bad rand) := by
  cases hb : (s.item q).bundle with
  | none =>
    rw [addQI_none hb]
    exact ⟨rfl, rfl, fun _ => rfl, fun _ => rfl⟩
  | some b =>
    have hset : SameItems s (s.setBundle b
        ((s.bundle b).addUserQueue locale s.item q u bad rand).1) := by
      rw [Bundle.addUserQueue_eq]
      exact SameItems.setBundle rfl rfl
    rw [addQI_some hb]
    exact ⟨rfl, rfl, hset.queueItems, hset.finishedFiles⟩

theorem sameItems_removeUserQueue :
    SameItems s (s.setBundle b ((s.bundle b).removeUserQueue s.item q v reason).1) := by
  unfold Bundle.removeUserQueue
  dsimp only
  cases (s.bundle b).userQueue (s.item q).priority v with
  | none => exact SameItems.setBundle rfl rfl
  | some l =>
    cases Bundle.findSource (s.bundle b).sources v with
    | none => exact SameItems.setBundle rfl rfl
    | some m => exact SameItems.setBundle rfl rfl

theorem sameItems_removeQI : SameItems s (s.removeQI q v reason) := by
  cases hb : (s.item q).bundle with
  | none =>
    rw [removeQI_none hb]
    exact ⟨rfl, rfl, fun _ => rfl, fun _ => rfl⟩
  | some b =>
    by_cases hsource : (s.bundle b).isSource v = true
    · have hset : SameItems s
          (s.setBundle b ((s.bundle b).removeUserQueue s.item q v reason).1) :=
        sameItems_removeUserQueue
      rw [removeQI_some hb hsource]
      exact ⟨rfl, rfl, hset.queueItems, hset.finishedFiles⟩
    · have hsame : s.removeQI q v reason = s := by
        dsimp only [SourceQueues.item, SourceQueues.bundle] at hb hsource
        unfold removeQI
        rw [hb]
        dsimp only
        rw [Bool.eq_false_iff.mpr hsource]
        rfl
      rw [hsame]
      exact SameItems.refl s

/-! ## All users of an item -/

section All

variable {us : List HintedUser} {rands : UserPtr → Nat}

/-- The links of an item with some users. -/
def linksWith (q : QueueItemPtr) (us : List HintedUser) : List Link := us.map fun u => (q, u.user)

theorem Registered.addAll (h : Registered s L) :
    Registered (us.foldl (fun s u => s.addQI locale st q u false (rands u.user)) s)
      (linksWith q us ++ L) := by
  induction us generalizing s L with
  | nil => exact h
  | cons u us ih =>
    rw [List.foldl_cons]
    exact (ih (h.addQI u q false (rands u.user))).perm List.perm_middle

theorem Registered.removeAll (h : Registered s (linksWith q us ++ L)) :
    Registered (us.foldl (fun s u => s.removeQI q u.user 0) s) L := by
  induction us generalizing s with
  | nil => exact h
  | cons u us ih =>
    rw [List.foldl_cons]
    exact ih (h.removeQI 0)

theorem sameItems_addAll :
    SameItems s (us.foldl (fun s u => s.addQI locale st q u false (rands u.user)) s) := by
  induction us generalizing s with
  | nil => exact SameItems.refl s
  | cons u us ih => exact sameItems_addQI.trans ih

theorem sameItems_removeAll : SameItems s (us.foldl (fun s u => s.removeQI q u.user 0) s) := by
  induction us generalizing s with
  | nil => exact SameItems.refl s
  | cons u us ih => exact sameItems_removeQI.trans ih

end All

/-! ## The priority of a bundle -/

section BundlePriority

variable {us : List HintedUser} {p : Priority}

theorem foldl_removeBundle : us.foldl (fun s u => s.removeBundle b u.user) s =
    { s with
      userBundleQueue := us.foldl (fun m u => ListMap.takeOut m u.user b) s.userBundleQueue } := by
  induction us generalizing s with
  | nil => rfl
  | cons u us ih =>
    rw [List.foldl_cons, ih]
    rfl

theorem foldl_addBundle : us.foldl (fun s u => s.addBundle b u.user) s =
    { s with
      userBundleQueue := us.foldl (fun m u => ListMap.put m u.user fun l =>
        insertAt (upperBound (fun x y => Bundle.SortOrder (s.bundle x) (s.bundle y)) b l) b l)
        s.userBundleQueue } := by
  induction us generalizing s with
  | nil => rfl
  | cons u us ih =>
    rw [List.foldl_cons, ih]
    rfl

section Lists

variable {f : BundlePtr → Bundle} {has : BundlePtr → UserPtr → Bool}
  {m : UserPtr → Option (List BundlePtr)}

theorem ListsBundles.eraseAll (h : ListsBundles f has m) (b : BundlePtr)
    (us : List HintedUser) :
    ListsBundles f (fun c w => has c w && !decide (c = b ∧ w ∈ us.map (·.user)))
      (us.foldl (fun m u => ListMap.takeOut m u.user b) m) := by
  induction us generalizing has m with
  | nil => exact h.congr (fun c w => by simp) fun _ _ => rfl
  | cons u us ih =>
    rw [List.foldl_cons]
    have hone : ListsBundles f (fun c w => has c w && !decide (w = u.user ∧ c = b))
        (ListMap.takeOut m u.user b) := by
      refine h.erase (fun c w => ?_) fun _ _ => rfl
      rw [Bool.and_eq_true, Bool.not_eq_true', decide_eq_false_iff_not]
    refine (ih hone).congr (fun c w => ?_) fun _ _ => rfl
    rw [Bool.eq_iff_iff]
    simp only [List.map_cons, List.mem_cons, Bool.and_eq_true, Bool.not_eq_true',
      decide_eq_false_iff_not]
    constructor
    · rintro ⟨hw, hall⟩
      exact ⟨⟨hw, fun hl => hall ⟨hl.2, Or.inl hl.1⟩⟩, fun hl => hall ⟨hl.1, Or.inr hl.2⟩⟩
    · rintro ⟨⟨hw, hone⟩, hrest⟩
      exact ⟨hw, fun hl => hl.2.elim (fun he => hone ⟨he, hl.1⟩) fun hm => hrest ⟨hl.1, hm⟩⟩

theorem ListsBundles.insertAll (h : ListsBundles f has m) (hus : (us.map (·.user)).Nodup)
    (hnone : ∀ u ∈ us, has b u.user = false) :
    ListsBundles f (fun c w => has c w || decide (c = b ∧ w ∈ us.map (·.user)))
      (us.foldl (fun m u => ListMap.put m u.user fun l =>
        insertAt (upperBound (fun x y => Bundle.SortOrder (f x) (f y)) b l) b l) m) := by
  induction us generalizing has m with
  | nil => exact h.congr (fun c w => by simp) fun _ _ => rfl
  | cons u us ih =>
    rw [List.map_cons, List.nodup_cons] at hus
    rw [List.foldl_cons]
    have hone : ListsBundles f (fun c w => has c w || decide (w = u.user ∧ c = b))
        (ListMap.put m u.user fun l =>
          insertAt (upperBound (fun x y => Bundle.SortOrder (f x) (f y)) b l) b l) := by
      refine h.insert ?_ (fun c w => by simp) fun _ _ => rfl
      rw [hnone u List.mem_cons_self]
      exact Bool.false_ne_true
    refine (ih hone hus.2 fun w hw => ?_).congr (fun c w => ?_) fun _ _ => rfl
    · have hne : w.user ≠ u.user := fun he => hus.1 (he ▸ List.mem_map_of_mem hw)
      rw [hnone w (List.mem_cons_of_mem _ hw), Bool.false_or, decide_eq_false_iff_not]
      exact fun hl => hne hl.1
    · rw [Bool.eq_iff_iff]
      simp only [List.map_cons, List.mem_cons, Bool.or_eq_true, decide_eq_true_eq]
      constructor
      · rintro (hw | ⟨hc, hl | hl⟩)
        · exact Or.inl (Or.inl hw)
        · exact Or.inl (Or.inr ⟨hl, hc⟩)
        · exact Or.inr ⟨hc, hl⟩
      · rintro ((hw | hl) | hl)
        · exact Or.inl hw
        · exact Or.inr ⟨hl.2, Or.inl hl.1⟩
        · exact Or.inr ⟨hl.1, Or.inr hl.2⟩

end Lists

theorem mem_getSourceUsers {b : Bundle} :
    v ∈ b.getSourceUsers.map (·.user) ↔ b.isSource v = true := by
  have hmap : b.getSourceUsers.map (·.user) = b.sources.map fun i => i.user.user := List.map_map
  rw [hmap, Bundle.isSource, ← Bundle.isSome_filesOf, ← not_iff_not, ← Bundle.filesOf_eq_none_iff,
    Bool.not_eq_true, Option.isSome_eq_false_iff, Option.isNone_iff_eq_none]

/-- **A bundle is moved in the lists of all its users.** -/
theorem Registered.setBundlePriority (h : Registered s L) :
    Registered (s.setBundlePriority b p) L := by
  have hnodup : ((s.bundle b).getSourceUsers.map (·.user)).Nodup := by
    rw [Bundle.getSourceUsers, List.map_map]
    exact (h.sources b).nodup
  have hfree : ∀ w, ((s.bundle b).isSource w &&
      !decide (b = b ∧ w ∈ (s.bundle b).getSourceUsers.map (·.user))) = false := by
    intro w
    rw [Bool.and_eq_false_imp]
    intro hw
    simpa using mem_getSourceUsers.mpr hw
  have hother : ∀ c, c ≠ b → (s.heap.setBundle b { s.bundle b with priority := p }).bundle c =
      s.bundle c := fun c hc => Heap.setBundle_bundle_ne _ _ hc
  have hout := h.bundles.eraseAll b (s.bundle b).getSourceUsers
  have hmoved := hout.reorder hfree
    (g := (s.heap.setBundle b { s.bundle b with priority := p }).bundle)
    fun x y hx hy => by rw [hother x hx, hother y hy]
  have hin := hmoved.insertAll hnodup fun u _ => hfree u.user
  unfold SourceQueues.setBundlePriority
  dsimp only
  rw [foldl_removeBundle, foldl_addBundle]
  refine h.of_heap s.fileQueue (fun _ _ => SameLink.refl _)
    (setBundle_cases SameLists.refl ⟨rfl, rfl⟩) (hin.congr (fun c w => ?_) fun _ _ => rfl)
  rw [Bool.eq_iff_iff]
  rcases eq_or_ne c b with rfl | hc
  · simp [mem_getSourceUsers]
  · simp [hc]

theorem sameItems_setBundlePriority : SameItems s (s.setBundlePriority b p) := by
  have hset := SameItems.setBundle (s := s) (b := b) (c := { s.bundle b with priority := p }) rfl rfl
  unfold SourceQueues.setBundlePriority
  dsimp only
  rw [foldl_removeBundle, foldl_addBundle]
  exact ⟨rfl, rfl, hset.queueItems, hset.finishedFiles⟩

end BundlePriority

end SourceQueues
end Airdcpp
