import Mathlib.Data.List.Basic
import Mathlib.Order.Basic

/-!
# `Lib/FirstMatch` — the first element of an ordered list

A search that takes the first element with a property, in a list that is ordered by preference, takes
a preferred one. `findWith` is such a search where looking at an element changes a state, and
`takeWhile_eq_filter` that a search can stop where the property that it stops at stays lost.
-/

namespace Airdcpp
namespace Lib

variable {α β σ : Type*} {l : List α} {a : α} {p : α → Bool} {R : α → α → Prop}

/-- The first element with a property, where looking at an element changes a state. -/
def findWith (f : α → σ → Bool × σ) : List α → σ → Option α × σ
  | [], e => (none, e)
  | a :: l, e =>
    match f a e with
    | (true, e) => (some a, e)
    | (false, e) => findWith f l e

theorem findWith_fst {f : α → σ → Bool × σ} (h : ∀ a e, (f a e).1 = p a) (l : List α) (e : σ) :
    (findWith f l e).1 = l.find? p := by
  induction l generalizing e with
  | nil => rfl
  | cons a l ih =>
    rw [findWith, List.find?_cons, ← h a e]
    cases hf : f a e with
    | mk found e' =>
      cases found with
      | true => rfl
      | false => exact ih e'

/-- **The first one is preferred.** -/
theorem find?_pairwise (h : l.find? p = some a) (hl : l.Pairwise R) :
    ∀ x ∈ l, p x = true → x = a ∨ R a x := by
  obtain ⟨-, before, after, rfl, hbefore⟩ := List.find?_eq_some_iff_append.mp h
  intro x hx hp
  rcases List.mem_append.mp hx with hx | hx
  · have hno := hbefore x hx
    rw [hp] at hno
    cases hno
  · rcases List.mem_cons.mp hx with hx | hx
    · exact Or.inl hx
    · exact Or.inr ((List.pairwise_cons.mp (List.pairwise_append.mp hl).2.1).1 x hx)

theorem findSome?_pairwise {f : α → Option β} {r : β} (h : l.findSome? f = some r)
    (hl : l.Pairwise R) :
    ∃ a ∈ l, f a = some r ∧ ∀ x ∈ l, (f x).isSome = true → x = a ∨ R a x := by
  obtain ⟨before, a, after, rfl, ha, hbefore⟩ := List.findSome?_eq_some_iff.mp h
  refine ⟨a, List.mem_append_right _ List.mem_cons_self, ha, fun x hx hsome => ?_⟩
  rcases List.mem_append.mp hx with hx | hx
  · rw [hbefore x hx] at hsome
    cases hsome
  · rcases List.mem_cons.mp hx with hx | hx
    · exact Or.inl hx
    · exact Or.inr ((List.pairwise_cons.mp (List.pairwise_append.mp hl).2.1).1 x hx)

/-- A property that the elements behind do not have again. -/
theorem takeWhile_eq_filter (hl : l.Pairwise fun x y => p y = true → p x = true) :
    l.takeWhile p = l.filter p := by
  induction l with
  | nil => rfl
  | cons x l ih =>
    obtain ⟨hx, hl⟩ := List.pairwise_cons.mp hl
    rw [List.takeWhile_cons, List.filter_cons]
    cases hp : p x with
    | true =>
      rw [if_pos rfl, if_pos rfl, ih hl]
    | false =>
      rw [if_neg Bool.false_ne_true, if_neg Bool.false_ne_true]
      refine (List.filter_eq_nil_iff.mpr fun y hy hpy => ?_).symm
      rw [hx y hy hpy] at hp
      cases hp

end Lib
end Airdcpp
