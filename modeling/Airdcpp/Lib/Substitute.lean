import Mathlib.Data.List.Basic

/-!
# `Lib/Substitute` — parts of a list replaced

`substitute needle by_ count` goes over a list from the front. Wherever `needle` stands, its first
`count` elements are replaced by `by_`, and the search goes on behind them: with `count` the length
of the needle a part is exchanged, with `count` one it is marked.

A word is still to be seen at the same places if neither the needle nor what it is replaced by
begins with an element of the word (`prefix_substitute_iff`).
-/

namespace Airdcpp
namespace Lib

variable {α : Type} [DecidableEq α]

/-- The same, with `skip` elements left of a needle that was found. -/
def substituteFrom (needle by_ : List α) (count : Nat) : (skip : Nat) → List α → List α
  | _, [] => []
  | skip + 1, _ :: s => substituteFrom needle by_ count skip s
  | 0, x :: s =>
    if needle.isPrefixOf (x :: s) then by_ ++ substituteFrom needle by_ count (count - 1) s
    else x :: substituteFrom needle by_ count 0 s

def substitute (needle by_ : List α) (count : Nat) (s : List α) : List α :=
  substituteFrom needle by_ count 0 s

variable {needle by_ s t w : List α} {count k : Nat} {x a b : α}

theorem substituteFrom_eq (k : Nat) (s : List α) :
    substituteFrom needle by_ count k s = substitute needle by_ count (s.drop k) := by
  induction s generalizing k with
  | nil => cases k <;> simp [substitute, substituteFrom]
  | cons x s ih =>
    cases k with
    | zero => rfl
    | succ k => exact ih k

@[simp] theorem substitute_nil : substitute needle by_ count [] = [] := rfl

/-- Where the needle stands. -/
theorem substitute_of_front (hne : s ≠ []) (hcount : 0 < count) (h : needle <+: s) :
    substitute needle by_ count s = by_ ++ substitute needle by_ count (s.drop count) := by
  obtain ⟨x, s, rfl⟩ := List.exists_cons_of_ne_nil hne
  obtain ⟨count, rfl⟩ := Nat.exists_eq_add_of_lt hcount
  rw [substitute, substituteFrom, if_pos (List.isPrefixOf_iff_prefix.mpr h), substituteFrom_eq,
    Nat.zero_add, Nat.add_sub_cancel, List.drop_succ_cons]

/-- Where it does not stand. -/
theorem substitute_cons (h : ¬ needle <+: x :: s) :
    substitute needle by_ count (x :: s) = x :: substitute needle by_ count s := by
  rw [substitute, substituteFrom, if_neg fun hpre => h (List.isPrefixOf_iff_prefix.mp hpre)]
  rfl

theorem substitute_cons_of_ne (h : x ≠ a) :
    substitute (a :: needle) by_ count (x :: s) = x :: substitute (a :: needle) by_ count s :=
  substitute_cons fun hpre => h (List.cons_prefix_cons.mp hpre).1.symm

/-- A part without the first element of the needle stays. -/
theorem substitute_append (h : a ∉ t) (s : List α) :
    substitute (a :: needle) by_ count (t ++ s) = t ++ substitute (a :: needle) by_ count s := by
  induction t with
  | nil => rfl
  | cons x t ih =>
    rw [List.mem_cons, not_or] at h
    rw [List.cons_append, substitute_cons_of_ne (Ne.symm h.1), ih h.2, List.cons_append]

/-- **What can still be seen.** -/
theorem prefix_substitute_iff (hcount : 0 < count) (ha : a ∉ w) (hb : b ∉ w) :
    w <+: substitute (a :: needle) (b :: by_) count s ↔ w <+: s := by
  induction w generalizing s with
  | nil => simp
  | cons y w ih =>
    rw [List.mem_cons, not_or] at ha hb
    cases s with
    | nil => simp
    | cons x s =>
      by_cases hpre : a :: needle <+: x :: s
      · obtain rfl := (List.cons_prefix_cons.mp hpre).1
        rw [substitute_of_front (List.cons_ne_nil _ _) hcount hpre, List.cons_append,
          List.cons_prefix_cons,
          List.cons_prefix_cons]
        exact iff_of_false (fun h => hb.1 h.1.symm) fun h => ha.1 h.1.symm
      · rw [substitute_cons hpre, List.cons_prefix_cons, List.cons_prefix_cons, ih ha.2 hb.2]

/-- A single element that is exchanged is gone. -/
theorem notMem_substitute (h : a ∉ by_) (s : List α) : a ∉ substitute [a] by_ 1 s := by
  induction s with
  | nil => simp
  | cons x s ih =>
    by_cases hx : a = x
    · subst hx
      rw [substitute_of_front (List.cons_ne_nil _ _) Nat.one_pos ⟨s, rfl⟩, List.mem_append]
      simp [h, ih]
    · rw [substitute_cons_of_ne (Ne.symm hx)]
      simp [hx, ih]

/-- What is neither there nor put there. -/
theorem notMem_substitute_of_notMem (hs : x ∉ s) (h : x ∉ by_) (hcount : 0 < count) :
    x ∉ substitute needle by_ count s := by
  induction hn : s.length using Nat.strongRecOn generalizing s with
  | ind n ih =>
    subst hn
    cases s with
    | nil => simp
    | cons y s =>
      by_cases hpre : needle <+: y :: s
      · rw [substitute_of_front (List.cons_ne_nil _ _) hcount hpre, List.mem_append, not_or]
        refine ⟨h, ih _ ?_ (fun hmem => hs (List.mem_of_mem_drop hmem)) rfl⟩
        rw [List.length_drop, List.length_cons]
        omega
      · rw [List.mem_cons, not_or] at hs
        rw [substitute_cons hpre, List.mem_cons, not_or]
        exact ⟨hs.1, ih _ (by simp) hs.2 rfl⟩

end Lib
end Airdcpp
