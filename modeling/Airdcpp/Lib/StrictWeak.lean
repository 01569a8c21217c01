import Mathlib

/-!
# `Lib/StrictWeak` — comparisons that sort

Sorted containers and binary searches ask of a comparison that it is a strict weak order.
`StrictWeakOn` asks this of the elements of a set only: a comparison that is no order for everything
may still sort what there is.

A comparison by a key of a linear order sorts everything (`strictWeakOn_of_key`). `before` is such a
comparison with exceptions, pairs that have to be the other way round. It sorts what there is unless
an element lies between the two of an exception in the linear order and no exception takes it out
again (`strictWeakOn_before_iff`).

`minElement` is the standard library's search for the smallest element. It keeps what it has unless
the next element is smaller, whatever the comparison is.
-/

namespace Airdcpp
namespace Lib

variable {α β : Type*} {S : Set α} {r : α → α → Prop}

/-- The comparison sorts the elements of the set. -/
structure StrictWeakOn (S : Set α) (r : α → α → Prop) : Prop where
  irrefl : ∀ a ∈ S, ¬ r a a
  asymm : ∀ a ∈ S, ∀ b ∈ S, r a b → ¬ r b a
  trans : ∀ a ∈ S, ∀ b ∈ S, ∀ c ∈ S, r a b → r b c → r a c
  incomp : ∀ a ∈ S, ∀ b ∈ S, ∀ c ∈ S, ¬ r a b → ¬ r b a → ¬ r b c → ¬ r c b → ¬ r a c ∧ ¬ r c a

theorem strictWeakOn_of_key [LinearOrder β] (f : α → β)
    (h : ∀ a ∈ S, ∀ b ∈ S, r a b ↔ f a < f b) : StrictWeakOn S r where
  irrefl a ha hr := lt_irrefl _ ((h a ha a ha).mp hr)
  asymm a ha b hb hab hba := lt_asymm ((h a ha b hb).mp hab) ((h b hb a ha).mp hba)
  trans a ha b hb c hc hab hbc :=
    (h a ha c hc).mpr (lt_trans ((h a ha b hb).mp hab) ((h b hb c hc).mp hbc))
  incomp a ha b hb c hc hab hba hbc hcb := by
    rw [h a ha b hb, not_lt] at hab
    rw [h b hb a ha, not_lt] at hba
    rw [h b hb c hc, not_lt] at hbc
    rw [h c hc b hb, not_lt] at hcb
    rw [h a ha c hc, h c hc a ha, not_lt, not_lt]
    exact ⟨le_trans hbc hab, le_trans hba hcb⟩

/-! ## A linear order with exceptions -/

section Exceptions

variable [LinearOrder β] {first : β → β → Prop} {f : α → β} {x y z : β}

/-- `first x y` puts `x` before `y` whatever the order says. -/
def before (first : β → β → Prop) (x y : β) : Prop := first x y ∨ ¬ first y x ∧ x < y

theorem before_of_lt (h : ¬ first y x) (hlt : x < y) : before first x y := .inr ⟨h, hlt⟩

theorem before_asymm (hfirst : ∀ x y z, first x y → ¬ first y z) (h : before first x y) :
    ¬ before first y x := by
  rintro (hyx | ⟨hxy, hyx⟩)
  · rcases h with hxy | ⟨hnot, -⟩
    · exact hfirst x y x hxy hyx
    · exact hnot hyx
  · rcases h with h | ⟨-, hlt⟩
    · exact hxy h
    · exact lt_asymm hlt hyx

theorem before_or_before (hne : x ≠ y) : before first x y ∨ before first y x := by
  by_cases hxy : first x y
  · exact .inl (.inl hxy)
  by_cases hyx : first y x
  · exact .inr (.inl hyx)
  rcases lt_or_gt_of_ne hne with hlt | hlt
  · exact .inl (.inr ⟨hyx, hlt⟩)
  · exact .inr (.inr ⟨hxy, hlt⟩)

/-- Elements that are not compared are the same. -/
theorem eq_of_not_before (hxy : ¬ before first x y) (hyx : ¬ before first y x) : x = y := by
  by_contra hne
  rcases @before_or_before _ _ first x y hne with h | h
  · exact hxy h
  · exact hyx h

/-- **Exceptions spoil the order exactly when something lies between the two.** What comes after
    something by an exception comes before nothing by one. -/
theorem strictWeakOn_before_iff (hfirst : ∀ x y z, first x y → ¬ first y z) :
    StrictWeakOn S (fun a b => before first (f a) (f b)) ↔
      ∀ a ∈ S, ∀ b ∈ S, ∀ c ∈ S, first (f a) (f b) → f b < f c → f c < f a →
        first (f a) (f c) ∨ first (f c) (f b) := by
  constructor
  · intro h a ha b hb c hc hab hbc hca
    by_contra hnone
    obtain ⟨hac, hcb⟩ := not_or.mp hnone
    -- the three would go round in a circle
    have hca' : before first (f c) (f a) := before_of_lt hac hca
    have hac' := h.trans a ha b hb c hc (.inl hab) (before_of_lt hcb hbc)
    exact before_asymm hfirst hac' hca'
  · intro h
    refine ⟨fun a _ haa => before_asymm hfirst haa haa,
      fun a _ b _ hab => before_asymm hfirst hab, ?_, ?_⟩
    · intro a ha b hb c hc hab hbc
      have hne : f a ≠ f c := by
        intro heq
        rw [← heq] at hbc
        exact before_asymm hfirst hab hbc
      refine (before_or_before hne).resolve_right fun hca => ?_
      rcases hab with hab | ⟨hba, hab⟩
      · have hbc' := (hbc.resolve_left (hfirst _ _ _ hab))
        have hca' := hca.resolve_left fun hca => hfirst _ _ _ hca hab
        rcases h a ha b hb c hc hab hbc'.2 hca'.2 with hac | hcb
        · exact hca'.1 hac
        · exact hbc'.1 hcb
      · rcases hbc with hbc | ⟨hcb, hbc⟩
        · have hca' := hca.resolve_left (hfirst _ _ _ hbc)
          rcases h b hb c hc a ha hbc hca'.2 hab with hba' | hac
          · exact hba hba'
          · exact hca'.1 hac
        · rcases hca with hca | ⟨-, hca⟩
          · rcases h c hc a ha b hb hca hab hbc with hcb' | hba'
            · exact hcb hcb'
            · exact hba hba'
          · exact lt_asymm (lt_trans hab hbc) hca
    · intro a _ b _ c _ hab hba hbc hcb
      have heq : f a = f c := (eq_of_not_before hab hba).trans (eq_of_not_before hbc hcb)
      rw [heq]
      exact ⟨fun hcc => before_asymm hfirst hcc hcc, fun hcc => before_asymm hfirst hcc hcc⟩

end Exceptions

/-! ## The smallest element -/

section MinElement

variable {less : α → α → Bool} {m x : α} {l : List α}

/-- The loop of `min_element`: the smallest element so far and the rest. -/
def minFrom (less : α → α → Bool) : α → List α → α
  | smallest, [] => smallest
  | smallest, x :: xs => minFrom less (if less x smallest then x else smallest) xs

def minElement (less : α → α → Bool) : List α → Option α
  | [] => none
  | x :: xs => some (minFrom less x xs)

theorem minFrom_mem : minFrom less m l ∈ m :: l := by
  induction l generalizing m with
  | nil => exact List.mem_cons_self
  | cons x xs ih =>
    rw [minFrom]
    split
    · exact List.mem_cons_of_mem m ih
    · rcases List.mem_cons.mp (@ih m) with heq | hin
      · rw [heq]
        exact List.mem_cons_self
      · exact List.mem_cons_of_mem m (List.mem_cons_of_mem x hin)

/-- Nothing replaces an element that nothing is smaller than. -/
theorem minFrom_eq_self (h : ∀ x ∈ l, less x m = false) : minFrom less m l = m := by
  induction l with
  | nil => rfl
  | cons x xs ih =>
    rw [minFrom, h x List.mem_cons_self]
    exact ih fun y hy => h y (List.mem_cons_of_mem x hy)

end MinElement

end Lib
end Airdcpp
