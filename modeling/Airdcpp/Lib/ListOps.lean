import Mathlib

/-!
# `Lib/ListOps` — vectors of pointers: removal by swapping, sums, sorted insertion

What the callers do to their vectors, stated for lists.

* `swapRemove` takes an element out by moving the last one into its place; the rest is the same
  up to order, which is all a sum or a membership needs (`swapRemove_perm`).
* `sum_update` is the sum of a field over a list when the field changes at one element.
* `upperBound` is a binary search for the end of the elements not above a value;
  `insertAt_upperBound_sorted` is what inserting there does to a sorted list, and
  `insertAt_upperBound_split` where it happens.
* An association list with distinct keys is taken apart at a key (`lookup_split`), and what is done
  to the entry is read off there.
* `List.mapM` of a step that may fail is a step for each element (`forall₂_of_mapM`).
-/

namespace Airdcpp
namespace Lib

section SwapRemove

variable {α : Type*} [DecidableEq α]

/-- Put the last element in the place of `a` and drop the end. -/
def swapRemove (a : α) (l : List α) : List α :=
  match l.getLast? with
  | none => []
  | some z => if a ∈ l then (l.set (l.idxOf a) z).dropLast else l

/-- **Removal by swapping keeps the other elements**, in some order. -/
theorem swapRemove_perm {a : α} {l : List α} (h : a ∈ l) : (a :: swapRemove a l).Perm l := by
  obtain ⟨l₁, l₂, rfl, ha⟩ := List.eq_append_cons_of_mem h
  have hidx : (l₁ ++ a :: l₂).idxOf a = l₁.length := by
    rw [List.idxOf_append_of_notMem ha, List.idxOf_cons_self, Nat.add_zero]
  rcases List.eq_nil_or_concat' l₂ with rfl | ⟨m, z, rfl⟩
  · have hlast : (l₁ ++ [a]).getLast? = some a := by simp
    rw [swapRemove, hlast]
    simp only [if_pos h, hidx]
    simpa using (List.perm_append_singleton a l₁).symm
  · have hlast : (l₁ ++ a :: (m ++ [z])).getLast? = some z := by
      rw [← List.cons_append, ← List.append_assoc]
      exact List.getLast?_concat
    rw [swapRemove, hlast]
    simp only [if_pos h, hidx]
    have hset : (l₁ ++ a :: (m ++ [z])).set l₁.length z = (l₁ ++ z :: m) ++ [z] := by simp
    rw [hset, List.dropLast_concat]
    have hz : (z :: m).Perm (m ++ [z]) := (List.perm_append_singleton z m).symm
    calc (a :: (l₁ ++ z :: m)).Perm (l₁ ++ a :: z :: m) := List.perm_middle.symm
      _ |>.Perm (l₁ ++ a :: (m ++ [z])) := (hz.cons a).append_left l₁

end SwapRemove

/-- Moving the first element that `p` accepts to the back keeps the elements. -/
theorem find?_rotate_perm {α : Type*} {p : α → Bool} {l : List α} {a : α} (h : l.find? p = some a) :
    (l.eraseP p ++ [a]).Perm l := by
  induction l with
  | nil => exact absurd h (by simp)
  | cons x xs ih =>
    cases hx : p x with
    | true =>
      rw [List.find?_cons_of_pos hx, Option.some.injEq] at h
      subst h
      rw [List.eraseP_cons_of_pos hx]
      exact List.perm_append_singleton x xs
    | false =>
      have hneg : ¬ p x = true := by simp [hx]
      rw [List.find?_cons_of_neg hneg] at h
      rw [List.eraseP_cons_of_neg hneg, List.cons_append]
      exact (ih h).cons x

section Sums

variable {α M : Type*} [AddCommGroup M]

/-- **A sum when one summand changes.** -/
theorem sum_map_of_eq_off {l : List α} {f g : α → M} {a : α} (hl : l.Nodup) (ha : a ∈ l)
    (h : ∀ x, x ≠ a → g x = f x) : (l.map g).sum = (l.map f).sum + (g a - f a) := by
  induction l with
  | nil => exact absurd ha (by simp)
  | cons x xs ih =>
    obtain ⟨hx, hxs⟩ := List.nodup_cons.mp hl
    simp only [List.map_cons, List.sum_cons]
    rcases List.mem_cons.mp ha with rfl | ha
    · have hrest : xs.map g = xs.map f := by
        apply List.map_congr_left
        intro y hy
        exact h y fun e => hx (e ▸ hy)
      rw [hrest]
      abel
    · have hne : x ≠ a := fun e => hx (e ▸ ha)
      rw [ih hxs ha, h x hne]
      abel

theorem sum_map_of_notMem {l : List α} {f g : α → M} {a : α} (ha : a ∉ l)
    (h : ∀ x, x ≠ a → g x = f x) : (l.map g).sum = (l.map f).sum := by
  congr 1
  apply List.map_congr_left
  intro x hx
  exact h x fun e => ha (e ▸ hx)

end Sums

/-! ## Binary search -/

section UpperBound

variable {α : Type*} (lt : α → α → Bool) (v : α)

/-- `std::upper_bound` on the `len` elements from `first` on. -/
def upperBoundFrom (l : List α) : Nat → Nat → Nat → Nat
  | 0, first, _ => first
  | fuel + 1, first, len =>
    match l[first + len / 2]? with
    | some m =>
      if len = 0 then first
      else if lt v m then upperBoundFrom l fuel first (len / 2)
      else upperBoundFrom l fuel (first + len / 2 + 1) (len - len / 2 - 1)
    | none => first

/-- `std::upper_bound(l.begin(), l.end(), v, lt)`, as a position. -/
def upperBound (l : List α) : Nat := upperBoundFrom lt v l l.length 0 l.length

/-- `l.insert(l.begin() + i, v)` -/
def insertAt (i : Nat) (v : α) (l : List α) : List α := l.take i ++ v :: l.drop i

theorem insertAt_perm {i : Nat} {v : α} {l : List α} : (insertAt i v l).Perm (v :: l) := by
  rw [insertAt]
  calc (l.take i ++ v :: l.drop i).Perm (v :: (l.take i ++ l.drop i)) := List.perm_middle
    _ |>.Perm (v :: l) := by rw [List.take_append_drop]

variable {lt v}

/-- The search ends at a position with the elements not above `v` in front of it and the
    elements above `v` behind it, provided they come in that order. -/
theorem upperBoundFrom_spec {l : List α} (hmono : l.Pairwise fun x y => lt v x → lt v y)
    (fuel first len : Nat) (hfuel : len ≤ fuel) (hlen : first + len ≤ l.length)
    (hlow : ∀ i (h : i < l.length), i < first → ¬ lt v l[i])
    (hhigh : ∀ i (h : i < l.length), first + len ≤ i → lt v l[i]) :
    (∀ i (h : i < l.length), i < upperBoundFrom lt v l fuel first len → ¬ lt v l[i]) ∧
      ∀ i (h : i < l.length), upperBoundFrom lt v l fuel first len ≤ i → lt v l[i] := by
  induction fuel generalizing first len with
  | zero =>
    obtain rfl : len = 0 := by omega
    exact ⟨hlow, hhigh⟩
  | succ fuel ih =>
    rw [upperBoundFrom]
    rcases Nat.eq_zero_or_pos len with rfl | hpos
    · cases l[first + 0 / 2]? with
      | none => exact ⟨hlow, hhigh⟩
      | some m => exact ⟨hlow, hhigh⟩
    · have hmid : first + len / 2 < l.length := by omega
      have hget : l[first + len / 2]? = some l[first + len / 2] := List.getElem?_eq_getElem hmid
      rw [hget]
      simp only [if_neg (show ¬ len = 0 by omega)]
      split
      · rename_i hlt
        refine ih first (len / 2) (by omega) (by omega) hlow ?_
        intro i hi hle
        rcases Nat.eq_or_lt_of_le hle with rfl | hlt'
        · exact hlt
        · exact List.pairwise_iff_getElem.mp hmono _ _ hmid hi hlt' hlt
      · rename_i hnlt
        refine ih (first + len / 2 + 1) (len - len / 2 - 1) (by omega)
          (by omega) ?_ (fun i hi hle => hhigh i hi (by omega))
        intro i hi hlt' hv
        rcases Nat.lt_or_ge i (first + len / 2) with hi' | hi'
        · exact hnlt (List.pairwise_iff_getElem.mp hmono _ _ hi hmid hi' hv)
        · obtain rfl : i = first + len / 2 := by omega
          exact hnlt hv

/-- **Inserting at the upper bound keeps a list sorted.** -/
theorem insertAt_upperBound_sorted {l : List α} (hasymm : ∀ x y, lt x y → ¬ lt y x)
    (htrans : ∀ x y, lt v x → ¬ lt y x → lt v y) (hl : l.Pairwise fun x y => ¬ lt y x) :
    (insertAt (upperBound lt v l) v l).Pairwise fun x y => ¬ lt y x := by
  have hmono : l.Pairwise fun x y => lt v x → lt v y :=
    hl.imp fun h hx => htrans _ _ hx h
  obtain ⟨hlow, hhigh⟩ := upperBoundFrom_spec hmono l.length 0 l.length le_rfl (by simp)
    (by simp) (by intro i h hle; omega)
  rw [insertAt]
  refine List.pairwise_append.mpr ⟨hl.sublist (List.take_sublist _ _),
    List.pairwise_cons.mpr ⟨?_, hl.sublist (List.drop_sublist _ _)⟩, ?_⟩
  · intro y hy
    obtain ⟨i, hi, rfl⟩ := List.mem_drop_iff_getElem.mp hy
    exact hasymm _ _ (hhigh _ (by omega) (Nat.le_add_right _ i))
  · intro x hx y hy
    obtain ⟨i, hi, rfl⟩ := List.mem_take_iff_getElem.mp hx
    rcases List.mem_cons.mp hy with rfl | hy
    · exact hlow i (by omega) (by rw [Nat.lt_min] at hi; exact hi.1)
    · obtain ⟨j, hj, rfl⟩ := List.mem_drop_iff_getElem.mp hy
      have hlt : i < upperBound lt v l + j := by omega
      exact List.pairwise_iff_getElem.mp hl _ _ (by omega) (by omega) hlt

/-- Where the insertion takes place: the elements above `v` stand behind it, the others in front. -/
theorem insertAt_upperBound_split {l : List α} (htrans : ∀ x y, lt v x → ¬ lt y x → lt v y)
    (hl : l.Pairwise fun x y => ¬ lt y x) :
    ∃ l₁ l₂, l = l₁ ++ l₂ ∧ insertAt (upperBound lt v l) v l = l₁ ++ v :: l₂ ∧
      (∀ x ∈ l₁, ¬ lt v x) ∧ ∀ x ∈ l₂, lt v x := by
  have hmono : l.Pairwise fun x y => lt v x → lt v y := hl.imp fun h hx => htrans _ _ hx h
  obtain ⟨hlow, hhigh⟩ := upperBoundFrom_spec hmono l.length 0 l.length le_rfl (by simp)
    (by simp) (by intro i h hle; omega)
  refine ⟨l.take (upperBound lt v l), l.drop (upperBound lt v l), (List.take_append_drop _ l).symm,
    rfl, ?_, ?_⟩
  · intro x hx
    obtain ⟨i, hi, rfl⟩ := List.mem_take_iff_getElem.mp hx
    exact hlow i (by omega) (by rw [Nat.lt_min] at hi; exact hi.1)
  · intro y hy
    obtain ⟨i, hi, rfl⟩ := List.mem_drop_iff_getElem.mp hy
    exact hhigh _ (by omega) (Nat.le_add_right _ i)

end UpperBound

section EraseP

variable {α : Type*} [DecidableEq α] {p : α → Bool} {l : List α} {a : α}

/-- Erasing the first element `p` accepts is erasing that element. -/
theorem eraseP_eq_erase_of_find? (h : l.find? p = some a) : l.eraseP p = l.erase a := by
  induction l with
  | nil => rfl
  | cons x xs ih =>
    cases hx : p x with
    | true =>
      rw [List.find?_cons_of_pos hx, Option.some.injEq] at h
      subst h
      rw [List.eraseP_cons_of_pos hx, List.erase_cons_head]
    | false =>
      have hneg : ¬ p x = true := by simp [hx]
      rw [List.find?_cons_of_neg hneg] at h
      have hne : x ≠ a := by
        intro hxa
        exact hneg (hxa ▸ List.find?_some h)
      rw [List.eraseP_cons_of_neg hneg, ih h, List.erase_cons_tail (by simpa using hne)]

end EraseP

/-! ## The first place of a value -/

section IdxOf

variable {α : Type*} [BEq α] [LawfulBEq α]

theorem idxOf?_eq_some_split {l : List α} {a : α} {i : Nat} (h : l.idxOf? a = some i) :
    ∃ p q, l = p ++ a :: q ∧ a ∉ p ∧ p.length = i := by
  induction l generalizing i with
  | nil => cases h
  | cons x l ih =>
    rw [List.idxOf?_cons] at h
    by_cases hx : x = a
    · subst hx
      rw [if_pos (beq_self_eq_true x), Option.some.injEq] at h
      exact ⟨[], l, rfl, List.not_mem_nil, h⟩
    · rw [if_neg (by simpa using hx), Option.map_eq_some_iff] at h
      obtain ⟨j, hj, rfl⟩ := h
      obtain ⟨p, q, rfl, hp, rfl⟩ := ih hj
      refine ⟨x :: p, q, rfl, ?_, rfl⟩
      rw [List.mem_cons]
      rintro (h | h)
      · exact hx h.symm
      · exact hp h

theorem idxOf?_split {p q : List α} {a : α} (hp : a ∉ p) :
    (p ++ a :: q).idxOf? a = some p.length := by
  induction p with
  | nil =>
    rw [List.nil_append, List.idxOf?_cons, if_pos (beq_self_eq_true a), List.length_nil]
  | cons x p ih =>
    have hx : (x == a) = false := beq_eq_false_iff_ne.mpr fun h => hp (h ▸ List.mem_cons_self)
    rw [List.cons_append, List.idxOf?_cons, hx, if_neg Bool.false_ne_true,
      ih fun h => hp (List.mem_cons_of_mem _ h)]
    rfl

end IdxOf

/-! ## Association lists -/

section Assoc

variable {α β : Type*} [BEq α] [LawfulBEq α] {l l₁ l₂ : List (α × β)} {k j : α} {v w : β}

/-- Where the one entry of a key stands. -/
theorem lookup_split (hl : (l.map Prod.fst).Nodup) (h : l.lookup k = some v) :
    ∃ l₁ l₂, l = l₁ ++ (k, v) :: l₂ ∧ (∀ x ∈ l₁, x.1 ≠ k) ∧ ∀ x ∈ l₂, x.1 ≠ k := by
  obtain ⟨l₁, l₂, rfl, hfirst⟩ := List.lookup_eq_some_iff.mp h
  rw [List.map_append, List.map_cons, List.nodup_append] at hl
  obtain ⟨-, hl₂, -⟩ := hl
  refine ⟨l₁, l₂, rfl, ?_, ?_⟩
  · intro x hx hk
    have hne := hfirst x hx
    simp [hk] at hne
  · intro x hx hk
    exact (List.nodup_cons.mp hl₂).1 (List.mem_map.mpr ⟨x, hx, hk⟩)

theorem lookup_eq_none_of_ne (h : ∀ x ∈ l, x.1 ≠ k) : l.lookup k = none := by
  rw [List.lookup_eq_none_iff]
  intro x hx
  simpa using (h x hx).symm

theorem notMem_keys_of_lookup (h : l.lookup k = none) : k ∉ l.map Prod.fst := by
  intro hk
  obtain ⟨x, hx, rfl⟩ := List.mem_map.mp hk
  have hne := List.lookup_eq_none_iff.mp h x hx
  simp at hne

/-- With distinct keys, what is found is what is there. -/
theorem lookup_eq_some_iff_mem (hl : (l.map Prod.fst).Nodup) :
    l.lookup k = some v ↔ (k, v) ∈ l := by
  have hmem : ∀ {w}, l.lookup k = some w → (k, w) ∈ l := by
    intro w h
    obtain ⟨l₁, l₂, rfl, -, -⟩ := lookup_split hl h
    exact List.mem_append_right _ List.mem_cons_self
  constructor
  · exact hmem
  · intro h
    cases hlookup : l.lookup k with
    | none => exact absurd (List.mem_map.mpr ⟨_, h, rfl⟩) (notMem_keys_of_lookup hlookup)
    | some w =>
      have hsame := List.inj_on_of_nodup_map hl (hmem hlookup) h rfl
      exact congrArg (fun x => some x.2) hsame

/-- The entry of one key among others. -/
theorem lookup_middle (h₁ : ∀ x ∈ l₁, x.1 ≠ k) :
    (l₁ ++ (k, v) :: l₂).lookup j = if j == k then some v else (l₁ ++ l₂).lookup j := by
  rw [List.lookup_append, List.lookup_append]
  cases hjk : j == k with
  | true =>
    obtain rfl := eq_of_beq hjk
    rw [lookup_eq_none_of_ne h₁, if_pos rfl, List.lookup_cons_self]
    rfl
  | false =>
    rw [if_neg Bool.false_ne_true, List.lookup_cons, hjk]

end Assoc

section Update

variable {α β : Type*} [DecidableEq α] {l l₁ l₂ : List (α × β)} {k : α} {v w : β}

/-- Writing the value of a key. -/
theorem map_update_of_ne (h : ∀ x ∈ l, x.1 ≠ k) :
    (l.map fun x => if x.1 = k then (x.1, v) else x) = l := by
  conv => rhs; rw [← List.map_id l]
  apply List.map_congr_left
  intro x hx
  rw [if_neg (h x hx)]
  rfl

theorem map_update_split (h₁ : ∀ x ∈ l₁, x.1 ≠ k) (h₂ : ∀ x ∈ l₂, x.1 ≠ k) :
    ((l₁ ++ (k, w) :: l₂).map fun x => if x.1 = k then (x.1, v) else x) = l₁ ++ (k, v) :: l₂ := by
  rw [List.map_append, List.map_cons, map_update_of_ne h₁, map_update_of_ne h₂, if_pos rfl]

theorem filter_ne_split (h₁ : ∀ x ∈ l₁, x.1 ≠ k) (h₂ : ∀ x ∈ l₂, x.1 ≠ k) :
    ((l₁ ++ (k, v) :: l₂).filter fun x => decide (x.1 ≠ k)) = l₁ ++ l₂ := by
  rw [List.filter_append, List.filter_cons_of_neg (by simp), List.filter_eq_self.mpr,
    List.filter_eq_self.mpr]
  · intro x hx
    simpa using h₂ x hx
  · intro x hx
    simpa using h₁ x hx

end Update

/-! ## A step for each element -/

section MapM

variable {α β : Type*} {f : α → Option β} {l : List α} {ret : List β}

theorem isSome_mapM (h : ∀ a ∈ l, (f a).isSome = true) : (l.mapM f).isSome = true := by
  induction l with
  | nil => rfl
  | cons a l ih =>
    obtain ⟨b, hb⟩ := Option.isSome_iff_exists.mp (h a List.mem_cons_self)
    obtain ⟨bs, hbs⟩ := Option.isSome_iff_exists.mp (ih fun a ha => h a (List.mem_cons_of_mem _ ha))
    rw [List.mapM_cons, hb, hbs]
    rfl

theorem forall₂_of_mapM (h : l.mapM f = some ret) :
    List.Forall₂ (fun a b => f a = some b) l ret := by
  induction l generalizing ret with
  | nil =>
    obtain rfl := Option.some.inj h
    exact .nil
  | cons a l ih =>
    rw [List.mapM_cons] at h
    obtain ⟨b, hb, h⟩ := Option.bind_eq_some_iff.mp h
    obtain ⟨bs, hbs, h⟩ := Option.bind_eq_some_iff.mp h
    obtain rfl := Option.some.inj h
    exact .cons hb (ih hbs)

end MapM

end Lib
end Airdcpp
