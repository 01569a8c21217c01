import Airdcpp.Queue.SourceRuns

/-!
# `Queue/WaitingSources` — where the users of an item find it

`Waits` is read off the items: the item is queued, has not been downloaded, and the user is one of
its sources. In every state that the operations lead to, the lists say the same (`sources_agree`),
and so do the numbers of files of the bundle sources and the bytes that a user has for us
(`sources_counted`).
-/

namespace Airdcpp

open Lib ListMap

namespace SourceQueues

variable {locale : Locale} {st : Settings} {s : SourceQueues} {q : QueueItemPtr} {b : BundlePtr}
  {u v : UserPtr}

/-- The item can be downloaded from the user. -/
def Waits (s : SourceQueues) (q : QueueItemPtr) (u : UserPtr) : Prop :=
  q ∈ s.fileQueue ∧ (s.item q).isDownloaded = false ∧ (s.item q).isSource u = true

instance (s : SourceQueues) (q : QueueItemPtr) (u : UserPtr) : Decidable (Waits s q u) :=
  inferInstanceAs (Decidable (_ ∧ _))

/-- The lists say what the items say. -/
structure Agree (s : SourceQueues) : Prop where
  /-- an item is in the list of its bundle, its priority and its user, and in no other -/
  bundleItems : ∀ b p u, (listAt ((s.bundle b).userQueue p) u).Nodup ∧
    ∀ q, q ∈ listAt ((s.bundle b).userQueue p) u ↔
      Waits s q u ∧ (s.item q).bundle = some b ∧ (s.item q).priority = p
  prioItems : ∀ u, (listAt s.userPrioQueue u).Nodup ∧
    ∀ q, q ∈ listAt s.userPrioQueue u ↔ Waits s q u ∧ (s.item q).priority = .highest
  bundles : ∀ u, (listAt s.userBundleQueue u).Nodup ∧
    ∀ b, b ∈ listAt s.userBundleQueue u ↔ ∃ q, Waits s q u ∧ (s.item q).bundle = some b
  sources : ∀ b u, (s.bundle b).isSource u = true ↔
    ∃ q, Waits s q u ∧ (s.item q).bundle = some b
  /-- the bundles of a user by priority and age -/
  sorted : ∀ u, (listAt s.userBundleQueue u).Pairwise fun x y =>
    ¬ Bundle.SortOrder (s.bundle y) (s.bundle x)
  /-- there are no entries without items or bundles -/
  filled : (∀ b p, Filled ((s.bundle b).userQueue p)) ∧ Filled s.userPrioQueue ∧
    Filled s.userBundleQueue

/-! ## A run -/

/-- Nothing is queued. -/
def sampleQueues : SourceQueues where
  heap := ⟨fun _ => QueueItem.sample 1000, fun _ => Bundle.sample⟩
  fileQueue := []
  userBundleQueue := fun _ => none
  userPrioQueue := fun _ => none
  queued := fun _ => 0

def sampleUser : HintedUser := ⟨Vector.replicate 24 1, []⟩

/-- A file is added to a bundle, and a user to the file. -/
def sampleState : SourceQueues :=
  (operations ⟨id, fun s _ => s⟩ {}).run sampleQueues
    [.addBundleFile 5 (QueueItem.sample 1000) 2, .addValidatedSource 5 sampleUser 0 0]

theorem reaches_sampleState : Reaches (operations ⟨id, fun s _ => s⟩ {}) Empty sampleState := by
  have hempty : Empty sampleQueues :=
    ⟨rfl, rfl, rfl, rfl, fun _ => rfl, fun _ => rfl, fun _ => rfl, fun _ => List.nodup_nil⟩
  refine (Reaches.start hempty).run ⟨⟨List.not_mem_nil, rfl⟩, ?_, trivial⟩
  exact List.mem_singleton_self 5

theorem inv_of_reaches (h : Reaches (operations locale st) Empty s) : Inv s :=
  h.invariant (fun _ => Empty.inv) fun _ o hs ho => hs.next o ho

theorem mem_links : (q, u) ∈ s.links ↔ Waits s q u := by
  rw [links, mem_linksOf, waiting, Waits, ← mem_users, users, List.mem_map, Bool.not_eq_true',
    and_assoc]

theorem Inv.count_links (h : Inv s) : s.links.count (q, u) = if Waits s q u then 1 else 0 := by
  by_cases hq : q ∈ s.fileQueue ∧ s.waiting q = true
  · have hnodup : (users (s.item q)).Nodup := h.placed.sources q
    rw [(links_perm hq.1 hq.2).count_eq, List.count_append,
      List.count_eq_zero.mpr (notMem_others h.placed.nodup), Nat.add_zero, itemLinks_eq,
      List.count_map_of_injective _ _ fun _ _ he => (Prod.mk.inj he).2, hnodup.count]
    refine if_congr ?_ rfl rfl
    rw [mem_users, Waits, and_iff_right hq.1, and_iff_right]
    simpa [waiting] using hq.2
  · rw [List.count_eq_zero.mpr, if_neg]
    · exact fun hw => hq ⟨hw.1, by rw [waiting, hw.2.1]; rfl⟩
    · exact fun hm => hq (mem_linksOf.mp hm).1

/-- A list in which every element is once or not at all. -/
theorem nodup_and_mem {α : Type*} [DecidableEq α] {l : List α} {P : α → Prop} [DecidablePred P]
    (h : ∀ a, l.count a = if P a then 1 else 0) : l.Nodup ∧ ∀ a, a ∈ l ↔ P a := by
  refine ⟨List.nodup_iff_count_le_one.mpr fun a => ?_, fun a => ?_⟩
  · rw [h]
    split <;> decide
  · rw [← List.count_pos_iff, h]
    by_cases ha : P a
    · rw [if_pos ha]
      exact iff_of_true Nat.one_pos ha
    · rw [if_neg ha]
      exact iff_of_false (Nat.lt_irrefl 0) ha

theorem bundleLinks_ne_zero :
    bundleLinks s.item s.links b u ≠ 0 ↔ ∃ q, Waits s q u ∧ (s.item q).bundle = some b := by
  rw [bundleLinks, Ne, List.countP_eq_zero, not_forall]
  constructor
  · rintro ⟨l, hl⟩
    rw [Classical.not_imp, not_not, decide_eq_true_eq] at hl
    refine ⟨l.1, ?_, hl.2.2⟩
    rw [← mem_links, ← hl.2.1]
    exact hl.1
  · rintro ⟨q, hq, hb⟩
    refine ⟨(q, u), fun hall => hall (mem_links.mpr hq) ?_⟩
    exact decide_eq_true ⟨rfl, hb⟩

/-- **An item is where its users look for it.** In every run of the queue the bundles and the user
    queue list an item for a user exactly if it is waiting and has the user as a source: once, in
    the bundle and the priority that it has now. -/
theorem sources_agree (h : Reaches (operations locale st) Empty s) : Agree s := by
  have hinv := inv_of_reaches h
  have hreg := hinv.registered
  have hsource : ∀ b u, (s.bundle b).isSource u = true ↔
      ∃ q, Waits s q u ∧ (s.item q).bundle = some b := fun b u =>
    (isSource_iff hreg).trans bundleLinks_ne_zero
  refine
    { bundleItems := fun b p u => nodup_and_mem fun q => ?_
      prioItems := fun u => nodup_and_mem fun q => ?_
      bundles := fun u => ?_
      sources := hsource
      sorted := hreg.bundles.sorted
      filled := ⟨hreg.filled, hreg.prio.filled, hreg.bundles.filled⟩ }
  · rw [hreg.count, hinv.count_links, ← ite_and]
    exact if_congr and_comm rfl rfl
  · rw [hreg.prio.count, hinv.count_links, ← ite_and]
    exact if_congr and_comm rfl rfl
  · obtain ⟨hnodup, hmem⟩ := nodup_and_mem (hreg.bundles.count u)
    exact ⟨hnodup, fun b => (hmem b).trans (hsource b u)⟩

theorem sources_agree_sampleState :
    Agree sampleState ∧
      listAt ((sampleState.bundle 2).userQueue .normal) sampleUser.user = [5] ∧
        listAt sampleState.userBundleQueue sampleUser.user = [2] :=
  ⟨sources_agree reaches_sampleState, by decide, by decide⟩

/-! ## Numbers -/

/-- The items of a bundle that can be downloaded from a user. -/
def waitingItems (s : SourceQueues) (b : BundlePtr) (u : UserPtr) : List QueueItemPtr :=
  s.fileQueue.filter fun q => decide (Waits s q u ∧ (s.item q).bundle = some b)

/-- The bundle items that can be downloaded from a user. -/
def queuedItems (s : SourceQueues) (u : UserPtr) : List QueueItemPtr :=
  s.fileQueue.filter fun q => decide (Waits s q u ∧ (s.item q).bundle.isSome = true)

theorem Inv.nodup_links (h : Inv s) : s.links.Nodup := by
  refine List.nodup_iff_count_le_one.mpr fun l => ?_
  rw [show l = (l.1, l.2) from rfl, h.count_links]
  split <;> decide

/-- The links of a user are its items. -/
theorem Inv.filter_links (h : Inv s) (P : QueueItemPtr → Bool) :
    (s.links.filter fun l => decide (l.2 = u) && P l.1).Perm
      ((s.fileQueue.filter fun q => decide (Waits s q u) && P q).map fun q => (q, u)) := by
  have hinj : Function.Injective fun q : QueueItemPtr => (q, u) := fun _ _ he => (Prod.mk.inj he).1
  refine (List.perm_ext_iff_of_nodup (h.nodup_links.filter _)
    ((h.placed.nodup.filter _).map hinj)).mpr fun l => ?_
  rw [List.mem_filter, List.mem_map, Bool.and_eq_true, decide_eq_true_eq]
  constructor
  · rintro ⟨hl, hu, hp⟩
    have hw : Waits s l.1 u := by
      rw [← mem_links, ← hu]
      exact hl
    refine ⟨l.1, List.mem_filter.mpr ⟨hw.1, ?_⟩, Prod.ext rfl hu.symm⟩
    rw [decide_eq_true hw, hp]
    rfl
  · rintro ⟨q, hq, rfl⟩
    rw [List.mem_filter, Bool.and_eq_true, decide_eq_true_eq] at hq
    exact ⟨mem_links.mpr hq.2.1, rfl, hq.2.2⟩

theorem Inv.bundleLinks_eq (h : Inv s) :
    bundleLinks s.item s.links b u = (s.waitingItems b u).length := by
  have hperm := h.filter_links (u := u) fun q => decide ((s.item q).bundle = some b)
  rw [bundleLinks, List.countP_eq_length_filter]
  refine Eq.trans ?_ (hperm.length_eq.trans ?_)
  · simp only [Bool.decide_and]
  · rw [List.length_map, waitingItems]
    simp only [Bool.decide_and]

theorem Inv.linkedBytes_eq (h : Inv s) :
    linkedBytes s.item s.links u = ((s.queuedItems u).map fun q => (s.item q).size).sum := by
  have hperm := (h.filter_links (u := u) fun q => (s.item q).bundle.isSome).map
    fun l => (s.item l.1).size
  rw [linkedBytes, hperm.sum_eq, List.map_map, queuedItems]
  simp only [Bool.decide_and, Bool.decide_eq_true]
  rfl

/-- **The numbers are those of the waiting items.** A bundle source counts the items of the bundle
    that can be downloaded from the user, with one entry for each user that has some, and
    `User::queued` the bytes of the items of all bundles. -/
theorem sources_counted (h : Reaches (operations locale st) Empty s) :
    (∀ b, Bundle.CountsFiles (s.bundle b).sources fun u => (s.waitingItems b u).length) ∧
      ∀ u, s.queued u = ((s.queuedItems u).map fun q => (s.item q).size).sum := by
  have hinv := inv_of_reaches h
  refine ⟨fun b => (hinv.registered.sources b).congr fun u => hinv.bundleLinks_eq.symm,
    fun u => ?_⟩
  rw [hinv.registered.queued, hinv.linkedBytes_eq]

theorem sources_counted_sampleState :
    Bundle.CountsFiles (sampleState.bundle 2).sources
        (fun u => (sampleState.waitingItems 2 u).length) ∧
      sampleState.queued sampleUser.user = 1000 :=
  ⟨(sources_counted reaches_sampleState).1 2, by decide⟩

end SourceQueues
end Airdcpp
