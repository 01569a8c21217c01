import Mathlib.Data.Option.Basic

/-!
# `Lib/Agree` — two computations that agree

Two computations that may fail are the same, and what they give has a property. Where each step is a
`bind` or a `map`, the rules go through both at once, with a property for each place in between.
-/

namespace Airdcpp
namespace Lib

variable {α β : Type*} {P Q : α → Prop} {R : β → Prop} {x y : Option α} {f g : α → Option β} {a : α}

structure Agree (P : α → Prop) (x y : Option α) : Prop where
  same : x = y
  holds : ∀ a ∈ x, P a

theorem Agree.some (h : P a) : Agree P (some a) (some a) := by
  refine ⟨rfl, fun b hb => ?_⟩
  obtain rfl := Option.some.inj (Option.mem_def.mp hb)
  exact h

theorem Agree.of_holds (h : ∀ a ∈ x, P a) : Agree P x x := ⟨rfl, h⟩

theorem Agree.imp (h : Agree P x y) (himp : ∀ a, P a → Q a) : Agree Q x y :=
  ⟨h.same, fun a ha => himp a (h.holds a ha)⟩

/-- **What comes next agrees** on all that what comes first gives. -/
theorem Agree.bind (h : Agree P x y) (hfg : ∀ a, P a → Agree R (f a) (g a)) :
    Agree R (x.bind f) (y.bind g) := by
  obtain ⟨rfl, hP⟩ := h
  cases hx : x with
  | none => exact ⟨rfl, fun b hb => (by cases hb)⟩
  | some a => exact hfg a (hP a hx)

theorem Agree.map (h : Agree P x y) {k : α → β} (hk : ∀ a, P a → R (k a)) :
    Agree R (x.map k) (y.map k) := by
  obtain ⟨rfl, hP⟩ := h
  refine ⟨rfl, fun b hb => ?_⟩
  obtain ⟨a, ha, rfl⟩ := Option.map_eq_some_iff.mp (Option.mem_def.mp hb)
  exact hk a (hP a ha)

theorem mapM_congr {l : List α} (h : ∀ a ∈ l, f a = g a) : l.mapM f = l.mapM g := by
  induction l with
  | nil => rfl
  | cons a l ih =>
    rw [List.mapM_cons, List.mapM_cons, h a List.mem_cons_self,
      ih fun b hb => h b (List.mem_cons_of_mem a hb)]

end Lib
end Airdcpp
