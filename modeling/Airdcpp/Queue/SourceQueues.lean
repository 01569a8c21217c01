import Airdcpp.Lib.Runs
import Airdcpp.Queue.BundleQueue
import Airdcpp.Queue.PartsInfo
import Airdcpp.Queue.UserQueue

/-!
# `Queue/SourceQueues` — the lists of the users agree with the sources of the items

An item and a user it can be downloaded from are a *link*. `Registered` says that the bundles and the
user queue have exactly the links of a list: each in the list of its bundle, priority and user, in
the user's list of the highest priority if it has that one, and in the numbers of files and bytes.
`addQI` adds one link and `removeQI` takes one away (`Registered.addQI`, `Registered.removeQI`).

Which links there are is not said here: the list is what the operations of the user queue change.
-/

namespace Airdcpp

open Lib ListMap

namespace SourceQueues

/-- An item and a user it can be downloaded from. -/
abbrev Link := QueueItemPtr × UserPtr

/-- The links of a user with the items of a bundle. -/
def bundleLinks (item : QueueItemPtr → QueueItem) (L : List Link) (b : BundlePtr) (u : UserPtr) :
    Nat :=
  L.countP fun l => decide (l.2 = u ∧ (item l.1).bundle = some b)

/-- The sizes of the bundle items that a user has. -/
def linkedBytes (item : QueueItemPtr → QueueItem) (L : List Link) (u : UserPtr) : Int :=
  ((L.filter fun l => decide (l.2 = u) && (item l.1).bundle.isSome).map fun l => (item l.1).size).sum

/-- Each user has the bundles that `has` says, in the order of the bundles. -/
structure ListsBundles (bundle : BundlePtr → Bundle) (has : BundlePtr → UserPtr → Bool)
    (m : UserPtr → Option (List BundlePtr)) : Prop where
  filled : Filled m
  count : ∀ u b, (listAt m u).count b = if has b u then 1 else 0
  sorted : ∀ u, (listAt m u).Pairwise fun x y => ¬ Bundle.SortOrder (bundle y) (bundle x)

/-- Each user has its items of the highest priority. -/
structure ListsPrio (item : QueueItemPtr → QueueItem) (m : UserPtr → Option (List QueueItemPtr))
    (L : List Link) : Prop where
  filled : Filled m
  count : ∀ u q, (listAt m u).count q =
    if (item q).priority = .highest then L.count (q, u) else 0

/-- The lists have the links of `L` and no others. -/
structure Registered (s : SourceQueues) (L : List Link) : Prop where
  filled : ∀ b p, Filled ((s.bundle b).userQueue p)
  count : ∀ b p u q, (listAt ((s.bundle b).userQueue p) u).count q =
    if (s.item q).bundle = some b ∧ (s.item q).priority = p then L.count (q, u) else 0
  sources : ∀ b, Bundle.CountsFiles (s.bundle b).sources (bundleLinks s.item L b)
  bundles : ListsBundles s.bundle (fun b => (s.bundle b).isSource) s.userBundleQueue
  prio : ListsPrio s.item s.userPrioQueue L
  queued : ∀ u, s.queued u = linkedBytes s.item L u

variable {locale : Locale} {st : Settings} {s : SourceQueues} {L L' : List Link}
  {q : QueueItemPtr} {b : BundlePtr} {u : HintedUser} {v : UserPtr} {rand : Nat} {bad : Bool}
  {reason : MaskType} {item : QueueItemPtr → QueueItem}

/-! ## Links -/

theorem count_link_cons {q' : QueueItemPtr} {v' : UserPtr} :
    ((q, v) :: L).count (q', v') = L.count (q', v') + if v' = v ∧ q' = q then 1 else 0 := by
  rw [List.count_cons]
  refine congrArg _ (if_congr ?_ rfl rfl)
  rw [beq_iff_eq, Prod.mk.injEq, and_comm, eq_comm (a := v), eq_comm (a := q)]

theorem bundleLinks_cons {c : BundlePtr} {v' : UserPtr} :
    bundleLinks item ((q, v) :: L) c v' =
      bundleLinks item L c v' + if v' = v ∧ (item q).bundle = some c then 1 else 0 := by
  rw [bundleLinks, List.countP_cons]
  simp only [decide_eq_true_eq, eq_comm (a := v)]
  rfl

theorem bundleLinks_cons_some {c : BundlePtr} {v' : UserPtr} (hb : (item q).bundle = some b) :
    bundleLinks item ((q, v) :: L) c v' =
      bundleLinks item L c v' + if v' = v ∧ c = b then 1 else 0 := by
  rw [bundleLinks_cons]
  simp only [hb, Option.some.injEq, eq_comm (a := b)]

theorem linkedBytes_cons {v' : UserPtr} :
    linkedBytes item ((q, v) :: L) v' =
      linkedBytes item L v' + if v' = v ∧ (item q).bundle.isSome then (item q).size else 0 := by
  rw [linkedBytes, List.filter_cons]
  by_cases h : v' = v ∧ (item q).bundle.isSome = true
  · rw [if_pos h, if_pos (by simp [h]), List.map_cons, List.sum_cons, Int.add_comm]
    rfl
  · have hoff : ¬ (decide (v = v') && (item q).bundle.isSome) = true := by
      rw [Bool.and_eq_true, decide_eq_true_eq, eq_comm]
      exact h
    rw [if_neg h, if_neg hoff, Int.add_zero]
    rfl

section NoBundle

variable (hb : (item q).bundle = none) {c : BundlePtr} {p : Priority} {q' : QueueItemPtr}
  {v' : UserPtr}

include hb

/-- The links of an item without a bundle are in no bundle. -/
theorem count_cons_none :
    (if (item q').bundle = some c ∧ (item q').priority = p then ((q, v) :: L).count (q', v')
      else 0) =
      if (item q').bundle = some c ∧ (item q').priority = p then L.count (q', v') else 0 := by
  by_cases hq : q' = q
  · have hoff : ¬ ((item q').bundle = some c ∧ (item q').priority = p) := by
      rw [hq, hb]
      exact fun hp => nomatch hp.1
    rw [if_neg hoff, if_neg hoff]
  · have hoff : ¬ (v' = v ∧ q' = q) := fun hl => hq hl.2
    rw [count_link_cons, if_neg hoff, Nat.add_zero]

theorem bundleLinks_cons_none : bundleLinks item ((q, v) :: L) c v' = bundleLinks item L c v' := by
  have hoff : ¬ (v' = v ∧ (item q).bundle = some c) := by
    rw [hb]
    exact fun hl => nomatch hl.2
  rw [bundleLinks_cons, if_neg hoff, Nat.add_zero]

theorem linkedBytes_cons_none : linkedBytes item ((q, v) :: L) v' = linkedBytes item L v' := by
  have hoff : ¬ (v' = v ∧ (item q).bundle.isSome) := by
    rw [hb]
    exact fun hl => nomatch hl.2
  rw [linkedBytes_cons, if_neg hoff, Int.add_zero]

end NoBundle

theorem Registered.perm (h : Registered s L) (hp : L.Perm L') : Registered s L' where
  filled := h.filled
  count b p u q := by rw [h.count, hp.count_eq]
  sources b := (h.sources b).congr fun u => (hp.countP_eq _).symm
  bundles := h.bundles
  prio := ⟨h.prio.filled, fun u q => by rw [h.prio.count, hp.count_eq]⟩
  queued u := by
    rw [h.queued, linkedBytes, linkedBytes]
    exact ((hp.filter _).map _).sum_eq

theorem isSource_iff (h : Registered s L) :
    (s.bundle b).isSource v = true ↔ bundleLinks s.item L b v ≠ 0 := (h.sources b).isSome_iff

/-! ## The order of the bundles -/

/-- A bundle in the same place among the bundles. -/
structure SameOrder (b c : Bundle) : Prop where
  priority : c.priority = b.priority
  timeAdded : c.timeAdded = b.timeAdded

theorem SameOrder.refl (b : Bundle) : SameOrder b b := ⟨rfl, rfl⟩

theorem setBundle_cases {P : Bundle → Bundle → Prop} {c : Bundle} (hrefl : ∀ d, P d d)
    (hc : P (s.bundle b) c) (d : BundlePtr) : P (s.bundle d) ((s.heap.setBundle b c).bundle d) := by
  rcases eq_or_ne d b with rfl | hd
  · rw [Heap.setBundle_bundle_self]
    exact hc
  · rw [Heap.setBundle_bundle_ne _ _ hd]
    exact hrefl _

theorem sortOrder_of_same {f g : BundlePtr → Bundle} (h : ∀ b, SameOrder (f b) (g b))
    (x y : BundlePtr) : Bundle.SortOrder (g x) (g y) = Bundle.SortOrder (f x) (f y) := by
  rw [Bundle.SortOrder, Bundle.SortOrder, (h x).priority, (h x).timeAdded, (h y).priority,
    (h y).timeAdded]

theorem sortOrder_setBundle {c : Bundle} (h : SameOrder (s.bundle b) c) {x y : BundlePtr} :
    Bundle.SortOrder ((s.heap.setBundle b c).bundle x) ((s.heap.setBundle b c).bundle y) =
      Bundle.SortOrder (s.bundle x) (s.bundle y) :=
  sortOrder_of_same (setBundle_cases SameOrder.refl h) x y

/-- The lists of one bundle and one priority change. -/
theorem userQueue_setBundle {c : BundlePtr} {e : Bundle} {p p' : Priority}
    {m : UserPtr → Option (List QueueItemPtr)}
    (he : e.userQueue = Function.update (s.bundle b).userQueue p m) :
    ((s.heap.setBundle b e).bundle c).userQueue p' =
      if c = b ∧ p' = p then m else (s.bundle c).userQueue p' := by
  rcases eq_or_ne c b with rfl | hc
  · rw [Heap.setBundle_bundle_self, he, Function.update_apply]
    exact if_congr (and_iff_right rfl).symm rfl rfl
  · rw [Heap.setBundle_bundle_ne _ _ hc, if_neg fun h => hc h.1]

/-! ## One link more -/

theorem addPrio_eq (s : SourceQueues) (q : QueueItemPtr) (v : UserPtr) :
    s.addPrio st q v = { s with userPrioQueue := (s.addPrio st q v).userPrioQueue } := by
  unfold addPrio
  split <;> rfl

theorem addQI_none (hb : (s.item q).bundle = none) :
    s.addQI locale st q u bad rand =
      { s with userPrioQueue := (s.addPrio st q u.user).userPrioQueue } := by
  dsimp only [SourceQueues.item] at hb ⊢
  unfold addQI
  rw [addPrio_eq]
  dsimp only [SourceQueues.item]
  rw [hb]

/-- The bundle of the item after one of its users is added. -/
abbrev withUser (locale : Locale) (s : SourceQueues) (q : QueueItemPtr) (b : BundlePtr)
    (u : HintedUser) (bad : Bool) (rand : Nat) : Heap :=
  s.heap.setBundle b ((s.bundle b).addUserQueue locale s.item q u bad rand).1

/-- The user queue after one of the users of an item is added. -/
abbrev bundlesWithUser (locale : Locale) (s : SourceQueues) (q : QueueItemPtr) (b : BundlePtr)
    (u : HintedUser) (bad : Bool) (rand : Nat) : UserPtr → Option (List BundlePtr) :=
  if (s.bundle b).isSource u.user then s.userBundleQueue
  else ListMap.put s.userBundleQueue u.user fun l =>
    insertAt (upperBound (fun x y =>
      Bundle.SortOrder ((withUser locale s q b u bad rand).bundle x)
        ((withUser locale s q b u bad rand).bundle y)) b l) b l

theorem addQI_some (hb : (s.item q).bundle = some b) :
    s.addQI locale st q u bad rand =
      { heap := withUser locale s q b u bad rand
        fileQueue := s.fileQueue
        userBundleQueue := bundlesWithUser locale s q b u bad rand
        userPrioQueue := (s.addPrio st q u.user).userPrioQueue
        queued := Function.update s.queued u.user (s.queued u.user + (s.item q).size) } := by
  dsimp only [SourceQueues.item, SourceQueues.bundle] at hb ⊢
  unfold addQI
  rw [addPrio_eq]
  dsimp only [SourceQueues.item, SourceQueues.bundle]
  rw [hb]
  dsimp only
  rw [Bundle.addUserQueue_snd]
  unfold bundlesWithUser
  dsimp only [SourceQueues.bundle]
  cases (s.heap.bundle b).isSource u.user <;> rfl

theorem count_addPrio {q' : QueueItemPtr} {v' : UserPtr} :
    (listAt (s.addPrio st q v).userPrioQueue v').count q' = (listAt s.userPrioQueue v').count q' +
      if (s.item q).priority = .highest ∧ v' = v ∧ q' = q then 1 else 0 := by
  unfold addPrio
  by_cases hp : (s.item q).priority = .highest
  · rw [if_pos hp]
    refine (count_listAt_put insertAt_perm).trans ?_
    simp only [hp, true_and]
  · rw [if_neg hp, if_neg fun h => hp h.1, Nat.add_zero]

theorem insertAt_ne_nil {α : Type*} {i : Nat} {a : α} {l : List α} : insertAt i a l ≠ [] := by
  rw [insertAt]
  exact List.append_ne_nil_of_right_ne_nil _ (List.cons_ne_nil _ _)

theorem ListsPrio.addPrio (h : ListsPrio s.item s.userPrioQueue L) :
    ListsPrio s.item (s.addPrio st q v).userPrioQueue ((q, v) :: L) := by
  refine ⟨?_, fun v' q' => ?_⟩
  · unfold SourceQueues.addPrio
    split
    · exact h.filled.put insertAt_ne_nil
    · exact h.filled
  · rw [count_addPrio, h.count, count_link_cons]
    by_cases hlink : v' = v ∧ q' = q
    · obtain ⟨rfl, rfl⟩ := hlink
      simp only [and_self, and_true, if_true]
      split <;> rfl
    · have hoff : ¬ ((s.item q).priority = .highest ∧ v' = v ∧ q' = q) := fun hp => hlink hp.2
      rw [if_neg hoff, if_neg hlink, Nat.add_zero, Nat.add_zero]

section ListsBundles

variable {f g : BundlePtr → Bundle} {has has' : BundlePtr → UserPtr → Bool}
  {m : UserPtr → Option (List BundlePtr)}

theorem ListsBundles.congr (h : ListsBundles f has m) (hhas : ∀ b u, has' b u = has b u)
    (horder : ∀ x y, Bundle.SortOrder (g x) (g y) = Bundle.SortOrder (f x) (f y)) :
    ListsBundles g has' m where
  filled := h.filled
  count u b := by rw [hhas, h.count]
  sorted u := by
    simp only [horder]
    exact h.sorted u

/-- A user has one more bundle. -/
theorem ListsBundles.insert (h : ListsBundles f has m) (hv : ¬ has b v)
    (hhas : ∀ c w, has' c w = true ↔ has c w = true ∨ w = v ∧ c = b)
    (horder : ∀ x y, Bundle.SortOrder (g x) (g y) = Bundle.SortOrder (f x) (f y)) :
    ListsBundles g has' (ListMap.put m v fun l =>
      insertAt (upperBound (fun x y => Bundle.SortOrder (g x) (g y)) b l) b l) where
  filled := h.filled.put insertAt_ne_nil
  count w c := by
    refine (count_listAt_put insertAt_perm).trans ?_
    rw [h.count]
    by_cases hl : w = v ∧ c = b
    · have hoff : ¬ has c w = true := by
        rw [hl.1, hl.2]
        exact hv
      rw [if_neg hoff, if_pos hl, if_pos ((hhas c w).mpr (Or.inr hl))]
    · rw [if_neg hl, Nat.add_zero]
      exact if_congr ((hhas c w).trans (or_iff_left hl)).symm rfl rfl
  sorted w := by
    rcases eq_or_ne w v with rfl | hw
    · rw [listAt_put_self]
      refine insertAt_upperBound_sorted (fun _ _ => Bundle.SortOrder.asymm)
        (fun _ _ => Bundle.SortOrder.of_not) ?_
      simp only [horder]
      exact h.sorted w
    · rw [listAt_put_ne hw]
      simp only [horder]
      exact h.sorted w

/-- A user has one bundle less. -/
theorem ListsBundles.erase (h : ListsBundles f has m)
    (hhas : ∀ c w, has' c w = true ↔ has c w = true ∧ ¬ (w = v ∧ c = b))
    (horder : ∀ x y, Bundle.SortOrder (g x) (g y) = Bundle.SortOrder (f x) (f y)) :
    ListsBundles g has' (ListMap.takeOut m v b) where
  filled := h.filled.takeOut
  count w c := by
    rw [count_listAt_takeOut, h.count]
    by_cases hl : w = v ∧ c = b
    · have hoff : ¬ has' c w = true := fun hs => ((hhas c w).mp hs).2 hl
      rw [if_pos hl, if_neg hoff]
      split <;> rfl
    · rw [if_neg hl, Nat.sub_zero]
      exact if_congr ((hhas c w).trans (and_iff_left hl)).symm rfl rfl
  sorted w := by
    simp only [horder]
    rcases eq_or_ne w v with rfl | hw
    · rw [listAt_takeOut_self]
      exact (h.sorted w).sublist List.erase_sublist
    · rw [listAt_takeOut_ne hw]
      exact h.sorted w

/-- The order of a bundle that no user has can change. -/
theorem ListsBundles.reorder (h : ListsBundles f has m) (hb : ∀ u, has b u = false)
    (horder : ∀ x y, x ≠ b → y ≠ b →
      Bundle.SortOrder (g x) (g y) = Bundle.SortOrder (f x) (f y)) : ListsBundles g has m where
  filled := h.filled
  count := h.count
  sorted u := by
    have hne : ∀ x ∈ listAt m u, x ≠ b := by
      rintro x hx rfl
      have hcount := h.count u x
      rw [hb, if_neg Bool.false_ne_true] at hcount
      exact List.count_eq_zero.mp hcount hx
    refine (h.sorted u).imp_of_mem fun hx hy hxy => ?_
    rw [horder _ _ (hne _ hy) (hne _ hx)]
    exact hxy

end ListsBundles

section WithUser

variable {c : BundlePtr}

theorem bundle_withUser_ne (hc : c ≠ b) :
    (withUser locale s q b u bad rand).bundle c = s.bundle c := Heap.setBundle_bundle_ne _ _ hc

theorem bundle_withUser_self : (withUser locale s q b u bad rand).bundle b =
    ((s.bundle b).addUserQueue locale s.item q u bad rand).1 := Heap.setBundle_bundle_self ..

theorem sortOrder_withUser {x y : BundlePtr} :
    Bundle.SortOrder ((withUser locale s q b u bad rand).bundle x)
      ((withUser locale s q b u bad rand).bundle y) =
        Bundle.SortOrder (s.bundle x) (s.bundle y) := by
  refine sortOrder_setBundle ?_
  rw [Bundle.addUserQueue_eq]
  exact ⟨rfl, rfl⟩

theorem userQueue_withUser {p : Priority} :
    ((withUser locale s q b u bad rand).bundle c).userQueue p =
      if c = b ∧ p = (s.item q).priority then
        ListMap.put ((s.bundle b).userQueue (s.item q).priority) u.user
          ((s.bundle b).insertQueued locale s.item q rand)
      else (s.bundle c).userQueue p := by
  refine userQueue_setBundle ?_
  rw [Bundle.addUserQueue_eq]

end WithUser

/-- An item is not in the lists of another bundle or priority. -/
theorem notLink (hb : (item q).bundle = some b) {c : BundlePtr} {p : Priority}
    (hcp : ¬ (c = b ∧ p = (item q).priority)) {v' : UserPtr} {q' : QueueItemPtr}
    (hq' : (item q').bundle = some c ∧ (item q').priority = p) : ¬ (v' = v ∧ q' = q) := by
  rintro ⟨-, rfl⟩
  exact hcp ⟨Option.some.inj (hq'.1.symm.trans hb), hq'.2.symm⟩

theorem Registered.count_withUser (h : Registered s L) (hb : (s.item q).bundle = some b)
    {c : BundlePtr} {p : Priority} {v' : UserPtr} {q' : QueueItemPtr} :
    (listAt (((withUser locale s q b u bad rand).bundle c).userQueue p) v').count q' =
      if (s.item q').bundle = some c ∧ (s.item q').priority = p then
        ((q, u.user) :: L).count (q', v') else 0 := by
  have hold := h.count c p v' q'
  rw [userQueue_withUser, count_link_cons]
  by_cases hcp : c = b ∧ p = (s.item q).priority
  · obtain ⟨rfl, rfl⟩ := hcp
    rw [if_pos ⟨rfl, rfl⟩, count_listAt_put Bundle.insertQueued_perm, hold]
    by_cases hlink : v' = u.user ∧ q' = q
    · rw [if_pos hlink, hlink.2, if_pos ⟨hb, rfl⟩, if_pos ⟨hb, rfl⟩]
    · rw [if_neg hlink, Nat.add_zero, Nat.add_zero]
  · rw [if_neg hcp, hold]
    refine ite_congr rfl (fun hq' => ?_) fun _ => rfl
    rw [if_neg (notLink hb hcp hq'), Nat.add_zero]

theorem Registered.filled_withUser (h : Registered s L) {c : BundlePtr} {p : Priority} :
    Filled (((withUser locale s q b u bad rand).bundle c).userQueue p) := by
  rw [userQueue_withUser]
  split
  · refine (h.filled _ _).put fun he => ?_
    exact List.cons_ne_nil _ _ (List.Perm.eq_nil (he ▸ Bundle.insertQueued_perm.symm))
  · exact h.filled _ _

theorem Registered.sources_withUser (h : Registered s L) (hb : (s.item q).bundle = some b)
    (c : BundlePtr) : Bundle.CountsFiles ((withUser locale s q b u bad rand).bundle c).sources
      (bundleLinks s.item ((q, u.user) :: L) c) := by
  rcases eq_or_ne c b with rfl | hc
  · have hcons : ∀ v', bundleLinks s.item ((q, u.user) :: L) c v' =
        Function.update (bundleLinks s.item L c) u.user (bundleLinks s.item L c u.user + 1) v' := by
      intro v'
      rw [bundleLinks_cons_some hb]
      rcases eq_or_ne v' u.user with rfl | hv
      · rw [Function.update_self, if_pos ⟨rfl, rfl⟩]
      · rw [Function.update_of_ne hv, if_neg fun hl => hv hl.1, Nat.add_zero]
    rw [bundle_withUser_self, Bundle.addUserQueue_eq]
    dsimp only
    by_cases hsource : (s.bundle c).isSource u.user = true
    · rw [if_pos hsource]
      exact ((h.sources c).countFile ((isSource_iff h).mp hsource)).congr hcons
    · rw [if_neg hsource]
      have hzero : bundleLinks s.item L c u.user = 0 := by
        by_contra hne
        exact hsource ((isSource_iff h).mpr hne)
      rw [hzero] at hcons
      exact ((h.sources c).concat hzero rfl).congr hcons
  · rw [bundle_withUser_ne hc]
    refine (h.sources c).congr fun v' => ?_
    rw [bundleLinks_cons_some hb, if_neg fun hl => hc hl.2, Nat.add_zero]

theorem Registered.isSource_withUser (h : Registered s L) (hb : (s.item q).bundle = some b)
    {c : BundlePtr} {v' : UserPtr} :
    ((withUser locale s q b u bad rand).bundle c).isSource v' = true ↔
      (s.bundle c).isSource v' = true ∨ v' = u.user ∧ c = b := by
  rw [isSource_iff h, Bundle.isSource, (h.sources_withUser hb c).isSome_iff,
    bundleLinks_cons_some hb]
  by_cases hl : v' = u.user ∧ c = b
  · rw [if_pos hl]
    exact iff_of_true (Nat.succ_ne_zero _) (Or.inr hl)
  · rw [if_neg hl, Nat.add_zero, or_iff_left hl]

theorem Registered.bundles_withUser (h : Registered s L) (hb : (s.item q).bundle = some b) :
    ListsBundles (withUser locale s q b u bad rand).bundle
      (fun c => ((withUser locale s q b u bad rand).bundle c).isSource)
      (bundlesWithUser locale s q b u bad rand) := by
  unfold bundlesWithUser
  by_cases hv : (s.bundle b).isSource u.user = true
  · rw [if_pos hv]
    refine h.bundles.congr (fun c w => ?_) fun _ _ => sortOrder_withUser
    rw [Bool.eq_iff_iff, h.isSource_withUser hb]
    refine or_iff_left_of_imp fun hl => ?_
    rw [hl.1, hl.2]
    exact hv
  · rw [if_neg hv]
    exact h.bundles.insert hv (fun _ _ => h.isSource_withUser hb) fun _ _ => sortOrder_withUser

theorem Registered.queued_update (h : Registered s L) (hb : (s.item q).bundle = some b) :
    Function.update s.queued v (s.queued v + (s.item q).size) =
      linkedBytes s.item ((q, v) :: L) := by
  funext v'
  rw [linkedBytes_cons]
  rcases eq_or_ne v' v with rfl | hv
  · have hon : v' = v' ∧ (s.item q).bundle.isSome := ⟨rfl, by rw [hb]; rfl⟩
    rw [Function.update_self, h.queued, if_pos hon]
  · rw [Function.update_of_ne hv, h.queued, if_neg fun hl => hv hl.1, Int.add_zero]

/-- **`addQI` registers a link.** -/
theorem Registered.addQI (h : Registered s L) (u : HintedUser) (q : QueueItemPtr) (bad : Bool)
    (rand : Nat) : Registered (s.addQI locale st q u bad rand) ((q, u.user) :: L) := by
  cases hb : (s.item q).bundle with
  | none =>
    rw [addQI_none hb]
    exact
      { h with
        count := fun c p v' q' => (h.count c p v' q').trans (count_cons_none hb).symm
        sources := fun c => (h.sources c).congr fun _ => bundleLinks_cons_none hb
        prio := h.prio.addPrio
        queued := fun v' => (h.queued v').trans (linkedBytes_cons_none hb).symm }
  | some b =>
    rw [addQI_some hb]
    exact
      { filled := fun c p => h.filled_withUser
        count := fun c p v' q' => h.count_withUser hb
        sources := h.sources_withUser hb
        bundles := h.bundles_withUser hb
        prio := h.prio.addPrio
        queued := congrFun (h.queued_update hb) }

/-! ## One link less -/

theorem removePrio_eq (s : SourceQueues) (q : QueueItemPtr) (v : UserPtr) :
    s.removePrio q v = { s with userPrioQueue := (s.removePrio q v).userPrioQueue } := by
  unfold removePrio
  split <;> rfl

theorem ListsPrio.removePrio (h : ListsPrio s.item s.userPrioQueue ((q, v) :: L)) :
    ListsPrio s.item (s.removePrio q v).userPrioQueue L := by
  unfold SourceQueues.removePrio
  by_cases hp : (s.item q).priority = .highest
  · rw [if_pos hp]
    refine ⟨h.filled.takeOut, fun v' q' => ?_⟩
    rw [count_listAt_takeOut, h.count, count_link_cons]
    by_cases hlink : v' = v ∧ q' = q
    · rw [if_pos hlink, hlink.1, hlink.2, if_pos hp, if_pos hp, Nat.add_sub_cancel]
    · rw [if_neg hlink, Nat.add_zero, Nat.sub_zero]
  · rw [if_neg hp]
    refine ⟨h.filled, fun v' q' => ?_⟩
    rw [h.count, count_link_cons]
    by_cases hlink : v' = v ∧ q' = q
    · rw [hlink.2, if_neg hp, if_neg hp]
    · rw [if_neg hlink, Nat.add_zero]

/-- The bundle of the item after one of its users is removed. -/
abbrev withoutUser (s : SourceQueues) (q : QueueItemPtr) (b : BundlePtr) (v : UserPtr)
    (reason : MaskType) : Heap :=
  s.heap.setBundle b ((s.bundle b).removeUserQueue s.item q v reason).1

theorem removeQI_none (hb : (s.item q).bundle = none) :
    s.removeQI q v reason = { s with userPrioQueue := (s.removePrio q v).userPrioQueue } := by
  rw [← removePrio_eq]
  dsimp only [SourceQueues.item] at hb
  unfold removeQI
  rw [hb]

theorem removeQI_some (hb : (s.item q).bundle = some b)
    (hsource : (s.bundle b).isSource v = true) :
    s.removeQI q v reason =
      { heap := withoutUser s q b v reason
        fileQueue := s.fileQueue
        userBundleQueue :=
          if ((s.bundle b).removeUserQueue s.item q v reason).2 then
            ListMap.takeOut s.userBundleQueue v b
          else s.userBundleQueue
        userPrioQueue := (s.removePrio q v).userPrioQueue
        queued := Function.update s.queued v (s.queued v - (s.item q).size) } := by
  dsimp only [SourceQueues.item, SourceQueues.bundle] at hb hsource ⊢
  unfold removeQI
  rw [hb]
  dsimp only
  rw [hsource]
  unfold removePrio
  cases ((s.heap.bundle b).removeUserQueue s.heap.item q v reason).2
  · by_cases hp : (s.heap.item q).priority = .highest
    · exact (if_pos hp).trans (by rw [if_pos hp]; rfl)
    · exact (if_neg hp).trans (by rw [if_neg hp]; rfl)
  · by_cases hp : (s.heap.item q).priority = .highest
    · exact (if_pos hp).trans (by rw [if_pos hp]; rfl)
    · exact (if_neg hp).trans (by rw [if_neg hp]; rfl)

/-- A registered link is in the list of its bundle, and its user has an entry there. -/
theorem Registered.removeUserQueue (h : Registered s ((q, v) :: L))
    (hb : (s.item q).bundle = some b) (reason : MaskType) :
    ∃ m, Bundle.findSource (s.bundle b).sources v = some m ∧
      m.files = (bundleLinks s.item L b v + 1 : Nat) ∧
      (s.bundle b).removeUserQueue s.item q v reason =
        ({ s.bundle b with
            userQueue := Function.update (s.bundle b).userQueue (s.item q).priority
              (ListMap.takeOut ((s.bundle b).userQueue (s.item q).priority) v q)
            badSources :=
              if reason > 0 then
                Bundle.countBad m (s.item q).size reason (s.bundle b).badSources
              else (s.bundle b).badSources
            sources := Bundle.uncountFile v (s.item q).size (s.bundle b).sources },
          m.files - 1 == 0) := by
  have hlinks : bundleLinks s.item ((q, v) :: L) b v = bundleLinks s.item L b v + 1 := by
    rw [bundleLinks_cons_some hb, if_pos ⟨rfl, rfl⟩]
  have hfiles := (h.sources b).files v
  rw [hlinks, if_neg (Nat.succ_ne_zero _), Bundle.filesOf] at hfiles
  obtain ⟨m, hm, hmfiles⟩ := Option.map_eq_some_iff.mp hfiles
  have hmem : q ∈ listAt ((s.bundle b).userQueue (s.item q).priority) v := by
    refine List.count_pos_iff.mp ?_
    rw [h.count, if_pos ⟨hb, rfl⟩, List.count_cons_self]
    exact Nat.succ_pos _
  exact ⟨m, hm, hmfiles, Bundle.removeUserQueue_eq (eq_some_of_mem hmem) hm⟩

section WithoutUser

variable {c : BundlePtr}

theorem bundle_withoutUser_ne (hc : c ≠ b) :
    (withoutUser s q b v reason).bundle c = s.bundle c := Heap.setBundle_bundle_ne _ _ hc

theorem bundle_withoutUser_self : (withoutUser s q b v reason).bundle b =
    ((s.bundle b).removeUserQueue s.item q v reason).1 := Heap.setBundle_bundle_self ..

theorem Registered.sortOrder_withoutUser (h : Registered s ((q, v) :: L))
    (hb : (s.item q).bundle = some b) {x y : BundlePtr} :
    Bundle.SortOrder ((withoutUser s q b v reason).bundle x)
      ((withoutUser s q b v reason).bundle y) = Bundle.SortOrder (s.bundle x) (s.bundle y) := by
  obtain ⟨m, -, -, heq⟩ := h.removeUserQueue hb reason
  refine sortOrder_setBundle ?_
  rw [heq]
  exact ⟨rfl, rfl⟩

theorem Registered.userQueue_withoutUser (h : Registered s ((q, v) :: L))
    (hb : (s.item q).bundle = some b) {p : Priority} :
    ((withoutUser s q b v reason).bundle c).userQueue p =
      if c = b ∧ p = (s.item q).priority then
        ListMap.takeOut ((s.bundle b).userQueue (s.item q).priority) v q
      else (s.bundle c).userQueue p := by
  obtain ⟨m, -, -, heq⟩ := h.removeUserQueue hb reason
  refine userQueue_setBundle ?_
  rw [heq]

theorem Registered.count_withoutUser (h : Registered s ((q, v) :: L))
    (hb : (s.item q).bundle = some b) {p : Priority} {v' : UserPtr} {q' : QueueItemPtr} :
    (listAt (((withoutUser s q b v reason).bundle c).userQueue p) v').count q' =
      if (s.item q').bundle = some c ∧ (s.item q').priority = p then L.count (q', v') else 0 := by
  have hold := h.count c p v' q'
  rw [count_link_cons] at hold
  rw [h.userQueue_withoutUser hb]
  by_cases hcp : c = b ∧ p = (s.item q).priority
  · obtain ⟨rfl, rfl⟩ := hcp
    rw [if_pos ⟨rfl, rfl⟩, count_listAt_takeOut, hold]
    split
    · exact Nat.add_sub_cancel ..
    · exact Nat.zero_sub _
  · rw [if_neg hcp, hold]
    refine ite_congr rfl (fun hq' => ?_) fun _ => rfl
    rw [if_neg (notLink hb hcp hq'), Nat.add_zero]

theorem Registered.filled_withoutUser (h : Registered s ((q, v) :: L))
    (hb : (s.item q).bundle = some b) {p : Priority} :
    Filled (((withoutUser s q b v reason).bundle c).userQueue p) := by
  rw [h.userQueue_withoutUser hb]
  split
  · exact (h.filled _ _).takeOut
  · exact h.filled _ _

theorem Registered.sources_withoutUser (h : Registered s ((q, v) :: L))
    (hb : (s.item q).bundle = some b) (c : BundlePtr) :
    Bundle.CountsFiles ((withoutUser s q b v reason).bundle c).sources
      (bundleLinks s.item L c) := by
  rcases eq_or_ne c b with rfl | hc
  · obtain ⟨m, -, -, heq⟩ := h.removeUserQueue hb reason
    rw [bundle_withoutUser_self, heq]
    refine (h.sources c).uncountFile.congr fun v' => ?_
    rw [bundleLinks_cons_some hb, if_pos ⟨rfl, rfl⟩, Nat.add_sub_cancel]
    rcases eq_or_ne v' v with rfl | hv
    · rw [Function.update_self]
    · rw [Function.update_of_ne hv, bundleLinks_cons_some hb, if_neg fun hl => hv hl.1,
        Nat.add_zero]
  · rw [bundle_withoutUser_ne hc]
    refine (h.sources c).congr fun v' => ?_
    rw [bundleLinks_cons_some hb, if_neg fun hl => hc hl.2, Nat.add_zero]

/-- The user queue loses the bundle with the last of its items that the user has. -/
theorem Registered.bundles_withoutUser (h : Registered s ((q, v) :: L))
    (hb : (s.item q).bundle = some b) :
    ListsBundles (withoutUser s q b v reason).bundle
      (fun c => ((withoutUser s q b v reason).bundle c).isSource)
      (if ((s.bundle b).removeUserQueue s.item q v reason).2 then
        ListMap.takeOut s.userBundleQueue v b else s.userBundleQueue) := by
  obtain ⟨m, -, hfiles, heq⟩ := h.removeUserQueue hb reason
  have hafter : ∀ c w, ((withoutUser s q b v reason).bundle c).isSource w = true ↔
      bundleLinks s.item L c w ≠ 0 := fun c w => (h.sources_withoutUser hb c).isSome_iff
  have hbefore : ∀ c w, ¬ (w = v ∧ c = b) →
      ((s.bundle c).isSource w = true ↔ bundleLinks s.item L c w ≠ 0) := by
    intro c w hl
    rw [isSource_iff h, bundleLinks_cons_some hb, if_neg hl, Nat.add_zero]
  have hlast : (m.files - 1 == 0) = decide (bundleLinks s.item L b v = 0) := by
    rw [hfiles, beq_eq_decide]
    exact decide_eq_decide.mpr (by omega)
  rw [heq]
  dsimp only
  rw [hlast]
  by_cases hzero : bundleLinks s.item L b v = 0
  · rw [if_pos (decide_eq_true hzero)]
    refine h.bundles.erase (fun c w => ?_) fun _ _ => h.sortOrder_withoutUser hb
    by_cases hl : w = v ∧ c = b
    · rw [hafter, hl.1, hl.2]
      exact iff_of_false (not_not_intro hzero) fun hand => hand.2 ⟨rfl, rfl⟩
    · rw [hafter, hbefore c w hl, and_iff_left hl]
  · rw [if_neg (by simpa using hzero)]
    refine h.bundles.congr (fun c w => ?_) fun _ _ => h.sortOrder_withoutUser hb
    rw [Bool.eq_iff_iff, hafter]
    by_cases hl : w = v ∧ c = b
    · rw [hl.1, hl.2, isSource_iff h, bundleLinks_cons_some hb]
      exact iff_of_true hzero (by simp)
    · exact (hbefore c w hl).symm

end WithoutUser

/-- **`removeQI` takes a link away.** -/
theorem Registered.removeQI (h : Registered s ((q, v) :: L)) (reason : MaskType) :
    Registered (s.removeQI q v reason) L := by
  cases hb : (s.item q).bundle with
  | none =>
    rw [removeQI_none hb]
    exact
      { h with
        count := fun c p v' q' => (h.count c p v' q').trans (count_cons_none hb)
        sources := fun c => (h.sources c).congr fun _ => (bundleLinks_cons_none hb).symm
        prio := h.prio.removePrio
        queued := fun v' => (h.queued v').trans (linkedBytes_cons_none hb) }
  | some b =>
    have hsource : (s.bundle b).isSource v = true := by
      rw [isSource_iff h, bundleLinks_cons_some hb, if_pos ⟨rfl, rfl⟩]
      exact Nat.succ_ne_zero _
    rw [removeQI_some hb hsource]
    refine
      { filled := fun c p => h.filled_withoutUser hb
        count := fun c p v' q' => h.count_withoutUser hb
        sources := h.sources_withoutUser hb
        bundles := h.bundles_withoutUser hb
        prio := h.prio.removePrio
        queued := fun v' => ?_ }
    change Function.update s.queued v (s.queued v - (s.item q).size) v' = linkedBytes s.item L v'
    have hold := h.queued v'
    rw [linkedBytes_cons] at hold
    rcases eq_or_ne v' v with rfl | hv
    · have hon : v' = v' ∧ (s.item q).bundle.isSome := ⟨rfl, by rw [hb]; rfl⟩
      rw [if_pos hon] at hold
      rw [Function.update_self, hold, Int.add_sub_cancel]
    · rw [if_neg fun hl => hv hl.1, Int.add_zero] at hold
      rw [Function.update_of_ne hv, hold]

end SourceQueues
end Airdcpp
