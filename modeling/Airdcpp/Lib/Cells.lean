import Mathlib.Data.List.Basic

/-!
# `Lib/Cells` — an array that is written from the front

The cells of an array on the heap hold nothing until they are written to. Reading or writing outside
of the array gives nothing, and so does reading a cell that nothing was written to: what has a
result has kept to the array.

An array that was filled up to some place is `filled`; the rules are about arrays of that form.
-/

namespace Airdcpp
namespace Lib

/-- `none` is a cell that nothing was written to. -/
abbrev Cells (α : Type) := List (Option α)

namespace Cells

variable {α : Type}

def alloc (n : Nat) : Cells α := List.replicate n none

def read (m : Cells α) (i : Nat) : Option α := m[i]?.join

def write (m : Cells α) (i : Nat) (x : α) : Option (Cells α) :=
  if i < m.length then some (m.set i (some x)) else none

/-- `n` cells from `i` on. -/
def readAll (m : Cells α) : (i n : Nat) → Option (List α)
  | _, 0 => some []
  | i, n + 1 => do
    let x ← m.read i
    let xs ← readAll m (i + 1) n
    some (x :: xs)

def writeAll (m : Cells α) : (i : Nat) → List α → Option (Cells α)
  | _, [] => some m
  | i, x :: xs => do
    let m ← m.write i x
    writeAll m (i + 1) xs

/-- The array that `s` was written to, with `k` more cells. -/
def filled (s : List α) (k : Nat) : Cells α := s.map some ++ List.replicate k none

variable {s xs : List α} {x : α} {i k n : Nat}

theorem alloc_eq (n : Nat) : (alloc n : Cells α) = filled [] n := rfl

@[simp] theorem length_filled (s : List α) (k : Nat) : (filled s k).length = s.length + k := by
  simp [filled]

theorem read_filled (h : s[i]? = some x) : (filled s k).read i = some x := by
  obtain ⟨hi, rfl⟩ := List.getElem?_eq_some_iff.mp h
  rw [read, filled, List.getElem?_append_left (by simpa using hi), List.getElem?_map, h]
  rfl

/-- The next cell. -/
theorem write_filled (s : List α) (k : Nat) (x : α) :
    (filled s (k + 1)).write s.length x = some (filled (s ++ [x]) k) := by
  have hlength : s.length < (filled s (k + 1)).length := by simp
  rw [write, if_pos hlength, filled, filled, List.set_append_right _ _ (by simp), List.length_map,
    Nat.sub_self, List.replicate_succ, List.set_cons_zero, List.map_append, List.append_assoc]
  rfl

/-- A cell that was written before. -/
theorem write_filled_set (h : i < s.length) (x : α) :
    (filled s k).write i x = some (filled (s.set i x) k) := by
  have hlength : i < (filled s k).length := by
    rw [length_filled]
    exact Nat.lt_add_right k h
  rw [write, if_pos hlength, filled, filled, List.set_append_left _ _ (by simpa using h),
    List.map_set]

theorem readAll_filled (h : i + n ≤ s.length) :
    (filled s k).readAll i n = some ((s.drop i).take n) := by
  induction n generalizing i with
  | zero => rfl
  | succ n ih =>
    have hi : i < s.length := by omega
    rw [readAll, read_filled (List.getElem?_eq_getElem hi), ih (by omega),
      List.drop_eq_getElem_cons hi, List.take_succ_cons]
    rfl

theorem writeAll_filled (s xs : List α) (k : Nat) :
    (filled s (xs.length + k)).writeAll s.length xs = some (filled (s ++ xs) k) := by
  induction xs generalizing s with
  | nil => simp [writeAll]
  | cons x xs ih =>
    have hnext := ih (s ++ [x])
    rw [List.length_append, List.length_singleton, List.append_assoc,
      List.singleton_append] at hnext
    rw [List.length_cons, Nat.add_right_comm, writeAll, write_filled]
    exact hnext

/-- A loop over the cells is one over what they hold. -/
theorem foldlM_read {β : Type} (f : β → α → Option β) (s : List α) (k i : Nat) (b : β) :
    (List.range' i (s.length - i)).foldlM (fun b i => ((filled s k).read i).bind (f b)) b =
      (s.drop i).foldlM f b := by
  induction hn : s.length - i generalizing i b with
  | zero =>
    rw [List.drop_eq_nil_of_le (Nat.le_of_sub_eq_zero hn)]
    rfl
  | succ n ih =>
    have hi : i < s.length := Nat.lt_of_sub_ne_zero (by rw [hn]; exact Nat.succ_ne_zero n)
    rw [List.range'_succ, List.drop_eq_getElem_cons hi, List.foldlM_cons, List.foldlM_cons,
      read_filled (List.getElem?_eq_getElem hi)]
    exact congrArg _ (funext fun b => ih (i + 1) b (by omega))

end Cells

end Lib
end Airdcpp
