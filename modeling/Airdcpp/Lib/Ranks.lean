import Mathlib

/-!
# `Lib/Ranks` — how many values are less, and groups by rank

`below` is the rank of a value in a list: how many elements are less than it. It does not depend on
the order of the list, and in a sorted list it is the position of the first of the equal elements.

`groupEnd` cuts the sorted values into groups of at least `g`: a group ends before the first value
that has `g` elements of the group below it. Equal values are never cut apart.
-/

namespace Airdcpp
namespace Lib
namespace Ranks

variable {ι β : Type*} [LinearOrder β] {all l : List β} {x y : β}

def below (all : List β) (x : β) : Nat := all.countP fun y => decide (y < x)

/-- How many elements are in the first `k` groups. -/
def groupEnd (all : List β) (g : Nat) : Nat → Nat
  | 0 => 0
  | k + 1 => all.countP fun y => decide (below all y < groupEnd all g k + g)

/-- The number of different values. -/
def distinct (all : List β) : Nat := all.dedup.length

/-! ## The order of the list -/

theorem below_perm (h : all.Perm l) : below all = below l := funext fun _ => h.countP_eq _

theorem groupEnd_perm (h : all.Perm l) (g k : Nat) : groupEnd all g k = groupEnd l g k := by
  induction k with
  | zero => rfl
  | succ k ih => rw [groupEnd, groupEnd, ih, below_perm h, h.countP_eq]

theorem distinct_perm (h : all.Perm l) : distinct all = distinct l := h.dedup.length_eq

/-! ## Ranks -/

theorem below_mono (h : x ≤ y) : below all x ≤ below all y := by
  refine List.countP_mono_left fun z _ hz => ?_
  rw [decide_eq_true_eq] at *
  exact lt_of_lt_of_le hz h

omit [LinearOrder β] in
/-- Where the elements before a place are less than a value and the others are not. -/
theorem countP_split {p : β → Bool} {pre post : List β} (hpre : ∀ y ∈ pre, p y = true)
    (hpost : ∀ y ∈ post, ¬ p y = true) : (pre ++ post).countP p = pre.length := by
  rw [List.countP_append, List.countP_eq_length.mpr hpre, List.countP_eq_zero.mpr hpost,
    Nat.add_zero]

/-- In a sorted list, the rank of a value that is greater than what comes before it. -/
theorem below_eq_length {pre post : List β} (hpre : ∀ y ∈ pre, y < x) (hpost : ∀ y ∈ post, x ≤ y) :
    below (pre ++ post) x = pre.length := by
  refine countP_split (fun y hy => decide_eq_true (hpre y hy)) fun y hy => ?_
  rw [decide_eq_true_eq, not_lt]
  exact hpost y hy

/-- A group ends at the place from which on the values have too many elements below them. -/
theorem groupEnd_eq_length {pre post : List β} {g k : Nat} (hall : all = pre ++ post)
    (hpre : ∀ y ∈ pre, below all y < groupEnd all g k + g)
    (hpost : ∀ y ∈ post, ¬ below all y < groupEnd all g k + g) :
    groupEnd all g (k + 1) = pre.length := by
  have hsplit : (pre ++ post).countP (fun y => decide (below all y < groupEnd all g k + g)) =
      pre.length := by
    refine countP_split (fun y hy => decide_eq_true (hpre y hy)) fun y hy => ?_
    rw [decide_eq_true_eq]
    exact hpost y hy
  rwa [← hall] at hsplit

end Ranks
end Lib
end Airdcpp
