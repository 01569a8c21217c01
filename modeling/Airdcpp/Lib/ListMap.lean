import Mathlib.Data.List.Count
import Mathlib.Logic.Function.Basic

/-!
# `Lib/ListMap` — a map of lists

A map from keys to lists in which a key without elements has no entry. `put` changes the list of a
key and creates it where there is none; `takeOut` takes one element out, and the entry with the last
one. What a map holds is read with `listAt`, where a missing entry is an empty list.
-/

namespace Airdcpp
namespace Lib

namespace ListMap

variable {κ α : Type*}

/-- The list of a key. -/
def listAt (m : κ → Option (List α)) (k : κ) : List α := (m k).getD []

/-- There is no entry without elements. -/
def Filled (m : κ → Option (List α)) : Prop := ∀ k, m k ≠ some []

section Reads

variable {m : κ → Option (List α)} {k : κ} {a : α}

theorem filled_empty : Filled fun _ : κ => (none : Option (List α)) := fun _ h => by cases h

theorem eq_some_of_mem (h : a ∈ listAt m k) : m k = some (listAt m k) := by
  unfold listAt at h ⊢
  cases hm : m k with
  | none =>
    rw [hm] at h
    exact absurd h List.not_mem_nil
  | some l => rfl

end Reads

section Put

variable [DecidableEq κ]

/-- `auto& l = m[k]`, and what is done to `l`. -/
def put (m : κ → Option (List α)) (k : κ) (f : List α → List α) : κ → Option (List α) :=
  Function.update m k (some (f (listAt m k)))

variable {m : κ → Option (List α)} {k j : κ} {f : List α → List α}

@[simp] theorem listAt_put_self : listAt (put m k f) k = f (listAt m k) := by
  rw [listAt, put, Function.update_self]
  rfl

@[simp] theorem listAt_put_ne (h : j ≠ k) : listAt (put m k f) j = listAt m j := by
  rw [listAt, put, Function.update_of_ne h]
  rfl

theorem Filled.put (h : Filled m) (hf : f (listAt m k) ≠ []) : Filled (ListMap.put m k f) := by
  intro j
  rcases eq_or_ne j k with rfl | hj
  · rw [ListMap.put, Function.update_self]
    exact fun he => hf (Option.some.inj he)
  · rw [ListMap.put, Function.update_of_ne hj]
    exact h j

/-- **One more element of one list.** -/
theorem count_listAt_put [DecidableEq α] {a b : α} (hf : (f (listAt m k)).Perm (a :: listAt m k)) :
    (listAt (put m k f) j).count b = (listAt m j).count b + if j = k ∧ b = a then 1 else 0 := by
  by_cases hj : j = k
  · subst hj
    rw [listAt_put_self, hf.count_eq]
    by_cases hb : b = a
    · rw [hb, List.count_cons_self, if_pos ⟨rfl, rfl⟩]
    · rw [List.count_cons_of_ne (Ne.symm hb), if_neg fun h => hb h.2, Nat.add_zero]
  · rw [listAt_put_ne hj, if_neg fun h => hj h.1, Nat.add_zero]

end Put

section TakeOut

variable [DecidableEq κ] [DecidableEq α]

/-- Take one element out of the list of a key. -/
def takeOut (m : κ → Option (List α)) (k : κ) (a : α) : κ → Option (List α) :=
  match m k with
  | none => m
  | some l => Function.update m k (if (l.erase a).isEmpty then none else some (l.erase a))

variable {m : κ → Option (List α)} {k j : κ} {a : α}

theorem takeOut_of_some {l : List α} (hm : m k = some l) :
    takeOut m k a =
      Function.update m k (if (l.erase a).isEmpty then none else some (l.erase a)) := by
  rw [takeOut, hm]

theorem takeOut_of_none (hm : m k = none) : takeOut m k a = m := by
  rw [takeOut, hm]

@[simp] theorem listAt_takeOut_self : listAt (takeOut m k a) k = (listAt m k).erase a := by
  cases hm : m k with
  | none => rw [takeOut_of_none hm, listAt, hm, Option.getD_none, List.erase_nil]
  | some l =>
    rw [takeOut_of_some hm, listAt, Function.update_self, listAt, hm, Option.getD_some]
    split
    · rename_i hnil
      exact (List.isEmpty_iff.mp hnil).symm
    · rfl

@[simp] theorem listAt_takeOut_ne (h : j ≠ k) : listAt (takeOut m k a) j = listAt m j := by
  cases hm : m k with
  | none => rw [takeOut_of_none hm]
  | some l => rw [takeOut_of_some hm, listAt, Function.update_of_ne h, listAt]

theorem Filled.takeOut (h : Filled m) : Filled (ListMap.takeOut m k a) := by
  cases hm : m k with
  | none => rwa [takeOut_of_none hm]
  | some l =>
    rw [takeOut_of_some hm]
    intro j
    rcases eq_or_ne j k with rfl | hj
    · rw [Function.update_self]
      split
      · exact nofun
      · rename_i hne
        exact fun he => hne (List.isEmpty_iff.mpr (Option.some.inj he))
    · rw [Function.update_of_ne hj]
      exact h j

/-- **One element less.** -/
theorem count_listAt_takeOut {b : α} :
    (listAt (takeOut m k a) j).count b = (listAt m j).count b - if j = k ∧ b = a then 1 else 0 := by
  by_cases hj : j = k
  · subst hj
    rw [listAt_takeOut_self, List.count_erase]
    simp only [true_and, beq_iff_eq, eq_comm (a := b)]
  · rw [listAt_takeOut_ne hj, if_neg fun h => hj h.1, Nat.sub_zero]

end TakeOut

end ListMap
end Lib
end Airdcpp
