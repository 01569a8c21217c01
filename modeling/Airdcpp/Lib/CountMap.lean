import Mathlib.Data.List.Count
import Mathlib.Logic.Function.Basic

/-!
# `Lib/CountMap` — a map that counts

A map from keys to numbers where a key without occurrences has no entry. It *counts* a list when
each key's entry is how often it occurs there.
-/

namespace Airdcpp
namespace Lib

namespace CountMap

variable {κ : Type*} [DecidableEq κ]

/-- `m[k]++` -/
def bump (m : κ → Option Nat) (k : κ) : κ → Option Nat :=
  Function.update m k (some ((m k).getD 0 + 1))

/-- One occurrence less; the last one takes the entry along. Without an entry nothing happens. -/
def drop (m : κ → Option Nat) (k : κ) : κ → Option Nat :=
  match m k with
  | none => m
  | some n => Function.update m k (if n - 1 = 0 then none else some (n - 1))

/-- How often a key occurs, as an entry. -/
def entry (l : List κ) (k : κ) : Option Nat :=
  if l.count k = 0 then none else some (l.count k)

def Counts (m : κ → Option Nat) (l : List κ) : Prop := ∀ k, m k = entry l k

variable {m : κ → Option Nat} {l l' : List κ} {k : κ}

theorem counts_nil : Counts (fun _ : κ => none) [] := fun _ => rfl

theorem Counts.perm (h : Counts m l) (hp : l.Perm l') : Counts m l' := by
  intro j
  rw [h j, entry, entry, hp.count_eq]

theorem getD_entry (l : List κ) (k : κ) : (entry l k).getD 0 = l.count k := by
  unfold entry
  split
  · rename_i hzero
    rw [hzero]
    rfl
  · rfl

theorem Counts.bump (h : Counts m l) (k : κ) : Counts (CountMap.bump m k) (k :: l) := by
  intro j
  by_cases hj : j = k
  · subst hj
    rw [CountMap.bump, Function.update_self, h j, getD_entry, entry, List.count_cons_self,
      if_neg (Nat.succ_ne_zero _)]
  · rw [CountMap.bump, Function.update_of_ne hj, h j, entry, entry,
      List.count_cons_of_ne (Ne.symm hj)]

theorem Counts.drop (h : Counts m (k :: l)) : Counts (CountMap.drop m k) l := by
  have hk : m k = some (l.count k + 1) := by
    rw [h k, entry, List.count_cons_self, if_neg (Nat.succ_ne_zero _)]
  intro j
  simp only [CountMap.drop, hk, Nat.add_sub_cancel]
  by_cases hj : j = k
  · subst hj
    rw [Function.update_self, entry]
  · rw [Function.update_of_ne hj, h j, entry, entry, List.count_cons_of_ne (Ne.symm hj)]

end CountMap
end Lib
end Airdcpp
