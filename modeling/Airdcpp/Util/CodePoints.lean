import Airdcpp.Util.TextValidation

/-!
# `Util/CodePoints` — strings of code points, and their lower case

A well-formed string is a list of scalar values that `wcToUtf8` has written (`points`). It is read
back one by one, so the list is unique (`points_inj`), and `toLower` works on it value by value
(`toLower_points`). A value may take more or fewer bytes in lower case.

A code point that is no scalar value is written as U+FFFD (`scalarOf`).
-/

namespace Airdcpp
namespace Text

variable {c d : Nat} {cs ds : List Nat} {s t : Str} {locale : Locale}

instance (c : Nat) : Decidable (IsScalar c) := inferInstanceAs (Decidable (_ = false))

/-! ## One code point -/

/-- What `wcToUtf8` writes. -/
def scalarOf (c : Nat) : Nat := if decide (0x10ffff < c) || isSurrogate c then 0xfffd else c

theorem isScalar_scalarOf (c : Nat) : IsScalar (scalarOf c) := by
  unfold scalarOf
  split
  · decide
  · next h => exact Bool.eq_false_iff.mpr h

theorem scalarOf_eq (h : IsScalar c) : scalarOf c = c := if_neg (by rw [h]; decide)

theorem wcToUtf8_scalarOf (c : Nat) : wcToUtf8 (scalarOf c) = wcToUtf8 c := by
  have hsame : scalarOf (scalarOf c) = scalarOf c := scalarOf_eq (isScalar_scalarOf c)
  unfold scalarOf at hsame
  rw [wcToUtf8, wcToUtf8, scalarOf, hsame]

theorem size_pos (c : Nat) : 0 < size c := by
  unfold size
  split_ifs <;> decide

theorem size_le_four (c : Nat) : size c ≤ 4 := by
  unfold size
  split_ifs <;> decide

theorem length_wcToUtf8_of_isScalar (h : IsScalar c) : (wcToUtf8 c).length = size c := by
  rw [wcToUtf8_eq h, length_form (isSequence_size h).fits]

/-- **What is written is read.** -/
theorem utf8ToWc_wcToUtf8 (h : IsScalar c) (s : Str) :
    utf8ToWc (wcToUtf8 c ++ s) = ((size c : Int), c) := by
  rw [wcToUtf8_eq h]
  exact utf8ToWcFrom_form 0 (isSequence_size h) s

theorem wcToUtf8_cons (h : IsScalar c) : ∃ b s, wcToUtf8 c = b :: s ∧ s.length + 1 = size c := by
  have hlen := length_wcToUtf8_of_isScalar h
  cases hw : wcToUtf8 c with
  | nil =>
    rw [hw] at hlen
    exact absurd hlen.symm (size_pos c).ne'
  | cons b s =>
    rw [hw, List.length_cons] at hlen
    exact ⟨b, s, rfl, hlen⟩

/-- The first byte is null for the null character only. -/
theorem wcToUtf8_head (h : IsScalar c) : ∃ b s, wcToUtf8 c = b :: s ∧ s.length + 1 = size c ∧
    (b = 0 ↔ c = 0) := by
  obtain ⟨b, s, hw, hlen⟩ := wcToUtf8_cons h
  refine ⟨b, s, hw, hlen, ?_, ?_⟩
  · rintro rfl
    have hread := utf8ToWc_wcToUtf8 h []
    rw [hw, List.cons_append, utf8ToWc_ascii (by decide)] at hread
    exact (Prod.mk.inj hread).2.symm
  · rintro rfl
    exact (List.cons.inj hw).1.symm

/-! ## Strings -/

/-- The code points, written. -/
def points (cs : List Nat) : Str := cs.flatMap wcToUtf8

/-- The code points can be written. -/
abbrev Scalars (cs : List Nat) : Prop := ∀ c ∈ cs, IsScalar c

@[simp] theorem points_nil : points [] = [] := rfl

theorem points_cons (c : Nat) (cs : List Nat) : points (c :: cs) = wcToUtf8 c ++ points cs :=
  List.flatMap_cons

/-- **The code points of a string are unique.** -/
theorem points_inj (hcs : Scalars cs) (hds : Scalars ds) (h : points cs = points ds) : cs = ds := by
  induction cs generalizing ds with
  | nil =>
    cases ds with
    | nil => rfl
    | cons d ds =>
      obtain ⟨b, t, hw, -⟩ := wcToUtf8_cons (hds d List.mem_cons_self)
      rw [points_cons, hw] at h
      exact absurd h (by simp)
  | cons c cs ih =>
    obtain ⟨hc, hcs'⟩ := List.forall_mem_cons.mp hcs
    cases ds with
    | nil =>
      obtain ⟨b, t, hw, -⟩ := wcToUtf8_cons hc
      rw [points_cons, hw] at h
      exact absurd h (by simp)
    | cons d ds =>
      obtain ⟨hd, hds⟩ := List.forall_mem_cons.mp hds
      rw [points_cons, points_cons] at h
      have hread := utf8ToWc_wcToUtf8 hc (points cs)
      rw [h, utf8ToWc_wcToUtf8 hd] at hread
      obtain rfl : d = c := (Prod.mk.inj hread).2
      rw [ih hcs' hds (List.append_cancel_left h)]

/-! ## Lower case -/

/-- The code point that `toLower` writes for `c`. -/
def lowerPoint (locale : Locale) (c : Nat) : Nat := scalarOf (locale.towlower c)

theorem isScalar_lowerPoint (locale : Locale) (c : Nat) : IsScalar (lowerPoint locale c) :=
  isScalar_scalarOf _

theorem scalars_lower (locale : Locale) (cs : List Nat) : Scalars (cs.map (lowerPoint locale)) := by
  intro d hd
  obtain ⟨c, -, rfl⟩ := List.mem_map.mp hd
  exact isScalar_lowerPoint locale c

theorem toLowerFrom_eq (locale : Locale) (k : Nat) (s : Str) :
    toLowerFrom locale k s = toLower locale (s.drop k) := by
  induction k generalizing s with
  | zero => rfl
  | succ k ih =>
    cases s with
    | nil => rfl
    | cons b s => exact ih s

/-- **A string is lowered code point by code point.** -/
theorem toLower_points (hcs : Scalars cs) :
    toLower locale (points cs) = points (cs.map (lowerPoint locale)) := by
  induction cs with
  | nil => rfl
  | cons c cs ih =>
    obtain ⟨hc, hcs⟩ := List.forall_mem_cons.mp hcs
    obtain ⟨b, t, hw, hlen⟩ := wcToUtf8_cons hc
    have hread := utf8ToWc_wcToUtf8 hc (points cs)
    rw [List.map_cons, points_cons, points_cons, lowerPoint, wcToUtf8_scalarOf, ← ih hcs]
    rw [hw, List.cons_append] at hread ⊢
    rw [toLower, toLowerFrom, hread]
    dsimp only
    rw [if_neg (by omega), toLowerFrom_eq, Int.natAbs_natCast, ← hlen, Nat.add_sub_cancel,
      List.drop_left]

end Text
end Airdcpp
