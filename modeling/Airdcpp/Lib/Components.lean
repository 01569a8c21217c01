import Mathlib.Data.List.Basic

/-!
# `Lib/Components` — components of a list

A list is split at a separator, and its components are compared by an image `f` of their elements.
The components of one list stand in front of those of another when the elements of the first list
stand in front of those of the second one, and the second list ends there or has a separator
(`components_append_iff`).
-/

namespace Airdcpp
namespace Lib

variable {α β : Type} [DecidableEq α] {f : α → β} {sep : α}

/-- The images of the components. -/
def components (f : α → β) (sep : α) (l : List α) :
    List (List β) := (l.splitOn sep).map (List.map f)

/-- What elements are compared by: their images, and whether they are separators. -/
def componentKey (f : α → β) (sep : α) (a : α) : β × Bool := (f a, decide (a = sep))

theorem componentKey_eq_iff {a b : α} :
    componentKey f sep a = componentKey f sep b ↔ f a = f b ∧ (a = sep ↔ b = sep) := by
  simp [componentKey]

@[simp] theorem components_nil : components f sep [] = [[]] := by simp [components]

@[simp] theorem components_sep (l : List α) :
    components f sep (sep :: l) = [] :: components f sep l := by
  simp [components, List.splitOn_cons_eq_if_modifyHead]

theorem exists_components (f : α → β) (sep : α) (l : List α) :
    ∃ c cs, components f sep l = c :: cs := by
  have hne : components f sep l ≠ [] := by simp [components, List.splitOn_ne_nil]
  exact List.exists_cons_of_ne_nil hne

/-- An element goes to the first component. -/
theorem components_cons {a : α} (ha : a ≠ sep) {l : List α} {c : List β} {cs : List (List β)}
    (h : components f sep l = c :: cs) : components f sep (a :: l) = (f a :: c) :: cs := by
  obtain ⟨d, ds, hsplit⟩ := List.exists_cons_of_ne_nil (List.splitOn_ne_nil sep l)
  rw [components, hsplit, List.map_cons, List.cons.injEq] at h
  rw [components, List.splitOn_cons_eq_if_modifyHead, if_neg (by simpa using ha), hsplit]
  simp [h.1, h.2]

/-- **When the components of `as` stand in front of those of `bs`**, with others behind them if
    `more` are asked for. -/
theorem components_append_iff (as bs : List α) (more : Prop) :
    (∃ rest, components f sep bs = components f sep as ++ rest ∧ (more → rest ≠ [])) ↔
      as.map (componentKey f sep) <+: bs.map (componentKey f sep) ∧
        (¬ more ∧ as.length = bs.length ∨ bs[as.length]? = some sep) := by
  induction as generalizing bs with
  | nil =>
    cases bs with
    | nil => simp
    | cons b bs =>
      by_cases hb : b = sep
      · subst hb
        obtain ⟨c, cs, hbs⟩ := exists_components f b bs
        simp [hbs]
      · obtain ⟨c, cs, hbs⟩ := exists_components f sep bs
        simp [components_cons hb hbs, hb]
  | cons a as ih =>
    cases bs with
    | nil =>
      obtain ⟨c, cs, has⟩ := exists_components f sep as
      refine iff_of_false ?_ (by simp)
      by_cases ha : a = sep
      · subst ha
        simp [has]
      · simp [components_cons ha has]
    | cons b bs =>
      have ih := ih bs
      obtain ⟨c, cs, has⟩ := exists_components f sep as
      obtain ⟨d, ds, hbs⟩ := exists_components f sep bs
      rw [List.map_cons, List.map_cons, List.cons_prefix_cons, List.length_cons, List.length_cons,
        List.getElem?_cons_succ, Nat.add_right_cancel_iff, and_assoc, ← ih]
      by_cases ha : a = sep
      · subst ha
        by_cases hb : b = a
        · subst hb
          simp
        · simp [components_cons hb hbs, componentKey, hb]
      · by_cases hb : b = sep
        · subst hb
          simp [components_cons ha has, componentKey, ha]
        · rw [components_cons ha has, components_cons hb hbs, has, hbs]
          simp [componentKey, ha, hb, eq_comm, and_assoc]

end Lib
end Airdcpp
