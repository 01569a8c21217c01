import Airdcpp.Core.Utf8
import Airdcpp.Util.NoCase
import Airdcpp.Util.Positions

/-!
# `Util/NoCaseBounds` — the cursors of `stricmp` and `strnicmp`

The two loops go through both strings at once and look for the end of the first one only. A cursor
may stand on the terminator of its string, not behind it: `charsAt` is a call of `utf8ToWc` that
fails there, and the comparisons made with it fail when the ones of the source leave a string.

That depends on the characters alone. The second string is left when the first one goes on, behind
all the characters of the second, with one that is lowered to what the terminator is lowered to
(`stricmp_inRange_iff`, `strnicmp_inRange_iff`). The null character is no such character, but a bad
sequence is: `utf8ToWc` leaves `c` at zero for it.
-/

namespace Airdcpp
namespace Util

open Text

variable {locale : Locale} {a b s : Str} {n fuel i j : Nat}

/-- `strlen` -/
def strlen (s : Str) : Nat := (s.takeWhile (· ≠ 0)).length

/-- `utf8ToWc(s + i, c)`, as long as the cursor is not behind the terminator. -/
def charsAt (s : Str) (i : Nat) : Option (Int × Nat) :=
  if i ≤ strlen s then some (utf8ToWc (s.drop i)) else none

/-- What the loops of `stricmp` and `strnicmp` have in common: they go on as long as the first
    cursor is `within`. -/
def compareFrom (locale : Locale) (within : Nat → Bool) (a b : Str) :
    (fuel i j : Nat) → Option Int
  | 0, _, _ => some 0
  | fuel + 1, i, j => do
    let wa ← charsAt a i
    let wb ← charsAt b j
    let d : Int := locale.towlower wa.2 - locale.towlower wb.2
    if a.getD i 0 = 0 ∨ within i = false then pure (if within i then d else 0)
    else if d ≠ 0 then pure d
    else compareFrom locale within a b fuel (i + wa.1.natAbs) (j + wb.1.natAbs)

/-- `stricmp`, `none` when a cursor is behind a terminator. -/
def stricmpChecked (locale : Locale) (a b : Str) : Option Int :=
  compareFrom locale (fun _ => true) a b (a.length + 1) 0 0

/-- `strnicmp`, `none` when a cursor is behind a terminator. -/
def strnicmpChecked (locale : Locale) (a b : Str) (n : Nat) : Option Int :=
  compareFrom locale (fun i => decide (i < n)) a b (a.length + 1) 0 0

/-! ## Cursors -/

theorem strlen_le (s : Str) : strlen s ≤ s.length := (List.takeWhile_sublist _).length_le

theorem strlen_cons {c : UInt8} (hc : c ≠ 0) (s : Str) : strlen (c :: s) = strlen s + 1 := by
  simp [strlen, hc]

/-- In front of the terminator there is no null byte. -/
theorem getD_ne_zero (h : i < strlen s) : s.getD i 0 ≠ 0 := by
  induction s generalizing i with
  | nil => exact absurd h (Nat.not_lt_zero i)
  | cons c s ih =>
    by_cases hc : c = 0
    · subst hc
      exact absurd h (Nat.not_lt_zero i)
    · rw [strlen_cons hc] at h
      cases i with
      | zero => exact hc
      | succ i => exact ih (Nat.lt_of_succ_lt_succ h)

theorem getD_strlen (s : Str) : s.getD (strlen s) 0 = 0 := by
  induction s with
  | nil => rfl
  | cons c s ih =>
    by_cases hc : c = 0
    · subst hc
      rfl
    · rw [strlen_cons hc]
      exact ih

/-- A cursor that is not behind the terminator is on it when it finds a null byte. -/
theorem getD_eq_zero_iff (h : i ≤ strlen s) : s.getD i 0 = 0 ↔ i = strlen s := by
  constructor
  · intro hzero
    rcases Nat.eq_or_lt_of_le h with heq | hlt
    · exact heq
    · exact absurd hzero (getD_ne_zero hlt)
  · rintro rfl
    exact getD_strlen s

theorem drop_cons_of_lt (h : i < s.length) : ∃ c, s.drop i = c :: s.drop (i + 1) ∧ s.getD i 0 = c :=
  ⟨s[i], List.drop_eq_getElem_cons h, by
    rw [List.getD_eq_getElem?_getD, List.getElem?_eq_getElem h]
    rfl⟩

/-- On its terminator a string gives the null character. -/
theorem utf8ToWcFrom_strlen (k : Nat) (s : Str) : utf8ToWcFrom k (s.drop (strlen s)) = (1, 0) := by
  rcases Nat.lt_or_ge (strlen s) s.length with hlt | hge
  · obtain ⟨c, hdrop, hc⟩ := drop_cons_of_lt hlt
    rw [getD_strlen] at hc
    rw [hdrop, ← hc, utf8ToWcFrom_ascii k (by decide)]
    rfl
  · rw [List.drop_eq_nil_of_le hge]
    rfl

theorem utf8ToWc_strlen (s : Str) : utf8ToWc (s.drop (strlen s)) = (1, 0) :=
  utf8ToWcFrom_strlen 0 s

/-- There is a sequence at a cursor that is not on the terminator. -/
theorem sequence_at (k : Nat) (h : s.getD i 0 ≠ 0) :
    ∃ b, s.drop i = b :: s.drop (i + 1) ∧ s.getD i 0 = b ∧
      1 ≤ (utf8ToWcFrom k (s.drop i)).1.natAbs := by
  have hlt : i < s.length := by
    by_contra hge
    rw [List.getD_eq_default _ _ (Nat.le_of_not_lt hge)] at h
    exact h rfl
  obtain ⟨b, hdrop, hb⟩ := drop_cons_of_lt hlt
  refine ⟨b, hdrop, hb, ?_⟩
  rw [hdrop]
  exact (utf8ToWcFrom_length k b _).1

/-- **A sequence does not go over the terminator.** -/
theorem advanceFrom_le (k : Nat) (h : i < strlen s) :
    i < i + (utf8ToWcFrom k (s.drop i)).1.natAbs ∧
      i + (utf8ToWcFrom k (s.drop i)).1.natAbs ≤ strlen s := by
  obtain ⟨c, hdrop, -⟩ := drop_cons_of_lt (h.trans_le (strlen_le s))
  obtain ⟨hpos, hbytes⟩ := utf8ToWcFrom_advance k c (s.drop (i + 1))
  rw [← hdrop] at hpos hbytes
  refine ⟨Nat.lt_add_of_pos_right hpos, ?_⟩
  by_contra hover
  -- then the terminator is one of its bytes
  obtain ⟨x, hx, hne⟩ := hbytes (strlen s - i) (by omega) (by omega)
  rw [List.getElem?_drop, Nat.add_sub_cancel' h.le] at hx
  have hzero := getD_strlen s
  rw [List.getD_eq_getElem?_getD, hx] at hzero
  exact hne hzero

theorem advance_le (h : i < strlen s) :
    i < i + (utf8ToWc (s.drop i)).1.natAbs ∧ i + (utf8ToWc (s.drop i)).1.natAbs ≤ strlen s :=
  advanceFrom_le 0 h

/-! ## What the loops compare -/

/-- The characters in lower case that begin `within`, up to a null byte, from the position `i`
    on. -/
def foldWithinFrom (locale : Locale) (within : Nat → Bool) : (skip i : Nat) → Str → List Nat
  | _, _, [] => []
  | k + 1, i, _ :: s => foldWithinFrom locale within k (i + 1) s
  | 0, i, c :: s =>
    if c = 0 ∨ within i = false then []
    else
      let w := utf8ToWc (c :: s)
      locale.towlower w.2 :: foldWithinFrom locale within (w.1.natAbs - 1) (i + 1) s

/-- The characters that begin within the first `n` bytes. -/
def foldWithin (locale : Locale) (n : Nat) (s : Str) : List Nat :=
  foldWithinFrom locale (fun i => decide (i < n)) 0 0 s

/-- What is compared from a cursor on. -/
def foldAt (locale : Locale) (within : Nat → Bool) (s : Str) (i : Nat) : List Nat :=
  foldWithinFrom locale within 0 i (s.drop i)

variable {within : Nat → Bool}

theorem foldWithinFrom_skip (k : Nat) (i : Nat) (s : Str) :
    foldWithinFrom locale within k i s = foldWithinFrom locale within 0 (i + k) (s.drop k) := by
  induction k generalizing i s with
  | zero => rfl
  | succ k ih =>
    cases s with
    | nil => rfl
    | cons c s =>
      rw [foldWithinFrom, ih, List.drop_succ_cons, Nat.add_assoc, Nat.add_comm 1 k]

theorem foldWithinFrom_true (k i : Nat) (s : Str) :
    foldWithinFrom locale (fun _ => true) k i s = foldFrom locale k s := by
  induction s generalizing k i with
  | nil => cases k <;> rfl
  | cons c s ih =>
    cases k with
    | succ k => exact ih k (i + 1)
    | zero =>
      rw [foldWithinFrom, foldFrom]
      simp only [Bool.true_eq_false, or_false, ih]

theorem foldAt_true (s : Str) (i : Nat) :
    foldAt locale (fun _ => true) s i = foldCase locale (s.drop i) := foldWithinFrom_true 0 i _

theorem foldAt_zero (n : Nat) (s : Str) :
    foldAt locale (fun i => decide (i < n)) s 0 = foldWithin locale n s := rfl

theorem foldAt_stop (hstop : s.getD i 0 = 0 ∨ within i = false) :
    foldAt locale within s i = [] := by
  rcases Nat.lt_or_ge i s.length with hlt | hge
  · obtain ⟨c, hdrop, hc⟩ := drop_cons_of_lt hlt
    rw [foldAt, hdrop, foldWithinFrom, if_pos (by rwa [← hc])]
  · rw [foldAt, List.drop_eq_nil_of_le hge]
    rfl

theorem foldAt_go (hne : s.getD i 0 ≠ 0) (hwithin : within i = true) :
    foldAt locale within s i = locale.towlower (utf8ToWc (s.drop i)).2 ::
      foldAt locale within s (i + (utf8ToWc (s.drop i)).1.natAbs) := by
  obtain ⟨c, hdrop, hc, hpos⟩ := sequence_at 0 hne
  change 1 ≤ (utf8ToWc (s.drop i)).1.natAbs at hpos
  rw [foldAt, foldAt, hdrop, foldWithinFrom, ← hdrop,
    if_neg (not_or.mpr ⟨by rwa [← hc], by simp [hwithin]⟩)]
  dsimp only
  have hnext : i + 1 + ((utf8ToWc (s.drop i)).1.natAbs - 1) =
      i + (utf8ToWc (s.drop i)).1.natAbs := by
    omega
  rw [foldWithinFrom_skip, List.drop_drop, hnext]

/-- One round of the loops. -/
theorem compareFrom_succ (hi : i ≤ strlen a) (hj : j ≤ strlen b) :
    compareFrom locale within a b (fuel + 1) i j =
      let wa := utf8ToWc (a.drop i)
      let wb := utf8ToWc (b.drop j)
      let d : Int := locale.towlower wa.2 - locale.towlower wb.2
      if a.getD i 0 = 0 ∨ within i = false then some (if within i then d else 0)
      else if d ≠ 0 then some d
      else compareFrom locale within a b fuel (i + wa.1.natAbs) (j + wb.1.natAbs) := by
  rw [compareFrom, charsAt, charsAt, if_pos hi, if_pos hj]
  rfl

/-- Behind the terminator of the second string there is no next round. -/
theorem compareFrom_none (hi : i ≤ strlen a) (hj : strlen b < j) :
    compareFrom locale within a b (fuel + 1) i j = none := by
  rw [compareFrom, charsAt, charsAt, if_pos hi, if_neg (Nat.not_le.mpr hj)]
  rfl

/-- The comparison of the characters. `z` is what the null character is lowered to, and the end of
    the first string `counts` if it was within. -/
def compareFolds (z : Nat) (counts : Bool) : List Nat → List Nat → Option Int
  | [], bs => some (if counts then (z : Int) - bs.headD z else 0)
  | x :: _, [] => if x = z then none else some ((x : Int) - z)
  | x :: as, y :: bs => if x = y then compareFolds z counts as bs else some ((x : Int) - y)

/-- **The loops compare characters.** -/
theorem compareFrom_eq (hfuel : a.length < i + fuel) (hi : i ≤ strlen a) (hj : j ≤ strlen b) :
    ∃ counts, ((∀ i, within i = true) → counts = true) ∧
      compareFrom locale within a b fuel i j =
        compareFolds (locale.towlower 0) counts (foldAt locale within a i)
          (foldCase locale (b.drop j)) := by
  have hlen := strlen_le a
  induction fuel generalizing i j with
  | zero => omega
  | succ fuel ih =>
    rw [compareFrom_succ hi hj, ← foldAt_true b j]
    dsimp only
    by_cases hstop : a.getD i 0 = 0 ∨ within i = false
    · refine ⟨within i, fun hall => hall i, ?_⟩
      rw [if_pos hstop, foldAt_stop hstop, compareFolds]
      by_cases hwithin : within i = true
      · have hend : i = strlen a := by
          rcases hstop with hzero | hout
          · exact (getD_eq_zero_iff hi).mp hzero
          · exact absurd (hwithin.symm.trans hout) Bool.noConfusion
        rw [if_pos hwithin, if_pos hwithin, hend, utf8ToWc_strlen]
        rcases Nat.eq_or_lt_of_le hj with rfl | hjlt
        · rw [foldAt_stop (.inl (getD_strlen b)), utf8ToWc_strlen, List.headD_nil]
        · rw [foldAt_go (getD_ne_zero hjlt) rfl, List.headD_cons]
      · rw [if_neg hwithin, if_neg hwithin]
    · obtain ⟨hne, hwithin⟩ := not_or.mp hstop
      have hlt : i < strlen a := by
        rcases Nat.eq_or_lt_of_le hi with rfl | hlt
        · exact absurd (getD_strlen a) hne
        · exact hlt
      obtain ⟨hpos, hle⟩ := advance_le hlt
      rw [if_neg hstop, foldAt_go hne (Bool.eq_true_of_not_eq_false hwithin)]
      rcases Nat.eq_or_lt_of_le hj with rfl | hjlt
      · -- the second string has ended
        refine ⟨true, fun _ => rfl, ?_⟩
        rw [foldAt_stop (.inl (getD_strlen b)), utf8ToWc_strlen, compareFolds]
        by_cases hsame : locale.towlower (utf8ToWc (a.drop i)).2 = locale.towlower 0
        · rw [if_neg (not_not.mpr (sub_eq_zero.mpr (congrArg _ hsame))), if_pos hsame]
          obtain ⟨f, rfl⟩ : ∃ f, fuel = f + 1 := Nat.exists_eq_succ_of_ne_zero (by omega)
          exact compareFrom_none hle (Nat.lt_succ_self _)
        · rw [if_pos (by simpa [sub_eq_zero] using hsame), if_neg hsame]
      · obtain ⟨-, hjle⟩ := advance_le hjlt
        obtain ⟨counts, hcounts, hnext⟩ := ih (by omega) hle hjle
        refine ⟨counts, hcounts, ?_⟩
        rw [foldAt_go (getD_ne_zero hjlt) rfl, compareFolds]
        by_cases hsame : locale.towlower (utf8ToWc (a.drop i)).2 =
            locale.towlower (utf8ToWc (b.drop j)).2
        · rw [if_neg (not_not.mpr (sub_eq_zero.mpr (congrArg _ hsame))), if_pos hsame, hnext,
            foldAt_true]
        · rw [if_pos (by simpa [sub_eq_zero] using hsame), if_neg hsame]

/-- The second string is left behind all of its characters. -/
theorem compareFolds_inRange_iff {z : Nat} {counts : Bool} (as bs : List Nat) :
    InRange (compareFolds z counts as bs) ↔ ¬ bs ++ [z] <+: as := by
  induction as generalizing bs with
  | nil => exact iff_of_true (inRange_some _) fun h => by simpa using List.prefix_nil.mp h
  | cons x as ih =>
    cases bs with
    | nil =>
      rw [compareFolds, List.nil_append, List.cons_prefix_cons]
      by_cases hsame : x = z
      · rw [if_pos hsame]
        exact iff_of_false not_inRange_none (not_not.mpr ⟨hsame.symm, List.nil_prefix⟩)
      · rw [if_neg hsame]
        exact iff_of_true (inRange_some _) fun h => hsame h.1.symm
    | cons y bs =>
      rw [compareFolds, List.cons_append, List.cons_prefix_cons]
      by_cases hsame : x = y
      · rw [if_pos hsame, ih, and_iff_right hsame.symm]
      · rw [if_neg hsame]
        exact iff_of_true (inRange_some _) fun h => hsame h.1.symm

theorem stricmpChecked_eq (locale : Locale) (a b : Str) :
    stricmpChecked locale a b =
      compareFolds (locale.towlower 0) true (foldCase locale a) (foldCase locale b) := by
  obtain ⟨counts, hcounts, heq⟩ := @compareFrom_eq locale a b (a.length + 1) 0 0 (fun _ => true)
    (by omega) (Nat.zero_le _) (Nat.zero_le _)
  rw [hcounts fun _ => rfl, foldAt_true] at heq
  exact heq

/-! ## The checks change nothing -/

theorem getD_drop_zero (s : Str) (i : Nat) : (s.drop i).getD 0 0 = s.getD i 0 := by
  rw [List.getD_eq_getElem?_getD, List.getD_eq_getElem?_getD, List.getElem?_drop, Nat.add_zero]

/-- A round that was made has found its cursors in their strings. -/
theorem cursors_of_compareFrom {d : Int}
    (h : compareFrom locale within a b (fuel + 1) i j = some d) : i ≤ strlen a ∧ j ≤ strlen b := by
  by_contra hout
  rw [compareFrom, charsAt, charsAt] at h
  rcases not_and_or.mp hout with hi | hj
  · rw [if_neg hi] at h
    cases h
  · rw [if_neg hj] at h
    split at h <;> cases h

theorem stricmp_of_compareFrom {d : Int}
    (h : compareFrom locale (fun _ => true) a b fuel i j = some d) :
    stricmp locale fuel (a.drop i) (b.drop j) = d := by
  induction fuel generalizing i j with
  | zero => exact Option.some.inj h
  | succ fuel ih =>
    obtain ⟨hi, hj⟩ := cursors_of_compareFrom h
    rw [compareFrom_succ hi hj] at h
    rw [stricmp, getD_drop_zero]
    dsimp only at h ⊢
    by_cases hend : a.getD i 0 = 0
    · rw [if_pos (.inl hend)] at h ⊢
      exact Option.some.inj h
    · rw [if_neg (not_or.mpr ⟨hend, Bool.noConfusion⟩)] at h
      by_cases hsame : (locale.towlower (utf8ToWc (a.drop i)).2 : Int) -
          locale.towlower (utf8ToWc (b.drop j)).2 ≠ 0
      · rw [if_pos hsame] at h
        rw [if_pos (.inr hsame)]
        exact Option.some.inj h
      · rw [if_neg hsame] at h
        rw [if_neg (not_or.mpr ⟨hend, hsame⟩), List.drop_drop, List.drop_drop]
        exact ih h

theorem strnicmp_of_compareFrom {d : Int}
    (h : compareFrom locale (fun i => decide (i < n)) a b fuel i j = some d) :
    strnicmp locale fuel (a.drop i) (b.drop j) (n - i) = d := by
  induction fuel generalizing i j with
  | zero => exact Option.some.inj h
  | succ fuel ih =>
    obtain ⟨hi, hj⟩ := cursors_of_compareFrom h
    rw [compareFrom_succ hi hj] at h
    rw [strnicmp, getD_drop_zero]
    dsimp only at h ⊢
    by_cases hwithin : i < n
    · rw [if_neg (Nat.sub_ne_zero_of_lt hwithin)]
      by_cases hend : a.getD i 0 = 0
      · rw [if_pos (.inl hend), if_pos (decide_eq_true hwithin)] at h
        rw [if_pos (.inl hend)]
        exact Option.some.inj h
      · have hgo : ¬ decide (i < n) = false := by simpa using hwithin
        rw [if_neg (not_or.mpr ⟨hend, hgo⟩)] at h
        by_cases hsame : (locale.towlower (utf8ToWc (a.drop i)).2 : Int) -
            locale.towlower (utf8ToWc (b.drop j)).2 ≠ 0
        · rw [if_pos hsame] at h
          rw [if_pos (.inr hsame)]
          exact Option.some.inj h
        · rw [if_neg hsame] at h
          rw [if_neg (not_or.mpr ⟨hend, hsame⟩), List.drop_drop, List.drop_drop, Nat.sub_sub]
          exact ih h
    · rw [if_pos (.inr (decide_eq_false hwithin)), if_neg (by simp [hwithin])] at h
      rw [if_pos (Nat.sub_eq_zero_of_le (Nat.le_of_not_lt hwithin))]
      exact Option.some.inj h

/-- As long as the cursors stay in their strings, the comparisons are those of `Util/NoCase`. -/
theorem stricmp_of_checked {d : Int} (h : stricmpChecked locale a b = some d) :
    stricmp locale (a.length + 1) a b = d := stricmp_of_compareFrom h

theorem strnicmp_of_checked {d : Int} (h : strnicmpChecked locale a b n = some d) :
    strnicmp locale (a.length + 1) a b n = d := strnicmp_of_compareFrom h

/-! ## Both loops -/

theorem stricmp_inRange_iff :
    InRange (stricmpChecked locale a b) ↔
      ¬ foldCase locale b ++ [locale.towlower 0] <+: foldCase locale a := by
  rw [stricmpChecked_eq, compareFolds_inRange_iff]

theorem strnicmp_inRange_iff (n : Nat) :
    InRange (strnicmpChecked locale a b n) ↔
      ¬ foldCase locale b ++ [locale.towlower 0] <+: foldWithin locale n a := by
  obtain ⟨counts, -, heq⟩ := @compareFrom_eq locale a b (a.length + 1) 0 0 (fun i => decide (i < n))
    (by omega) (Nat.zero_le _) (Nat.zero_le _)
  rw [strnicmpChecked, heq, compareFolds_inRange_iff, foldAt_zero]
  rfl

/-- No character of encoded text is lowered to what the null character is lowered to. -/
theorem notMem_foldCase (hlower : ∀ c, locale.towlower c = locale.towlower 0 → c = 0)
    (cs : List Char) : locale.towlower 0 ∉ foldCase locale (encode cs) := by
  induction cs with
  | nil => exact List.not_mem_nil
  | cons c cs ih =>
    by_cases hc : c.val.toNat = 0
    · rw [foldCase_zero cs hc]
      exact List.not_mem_nil
    · rw [foldCase_cons cs hc, List.mem_cons]
      rintro (h | h)
      · exact hc (hlower _ h.symm)
      · exact ih h

/-- A leftover of zero is taken for the terminator: with `"\x80"` and the empty string both cursors
    go on by one, and the second one is behind its string. -/
theorem compares_behind_terminator :
    ¬ ∀ (locale : Locale) (a b : Str) (n : Nat), n ≤ strlen a →
      InRange (stricmpChecked locale a b) ∧ InRange (strnicmpChecked locale a b n) := by
  intro h
  have hread := (h ⟨id, fun s _ => s⟩ [0x80] [] 1 (by decide)).1
  revert hread
  decide +kernel

/-- **When `stricmp` and `strnicmp` stay in their strings.** They leave the second one when the
    first one goes on behind all of its characters with a character that is lowered to what the
    terminator is lowered to, for `strnicmp` within the first `n` bytes. -/
theorem compare_inRange_iff (locale : Locale) (a b : Str) (n : Nat) :
    (InRange (stricmpChecked locale a b) ↔
      ¬ foldCase locale b ++ [locale.towlower 0] <+: foldCase locale a) ∧
    (InRange (strnicmpChecked locale a b n) ↔
      ¬ foldCase locale b ++ [locale.towlower 0] <+: foldWithin locale n a) :=
  ⟨stricmp_inRange_iff, strnicmp_inRange_iff n⟩

end Util
end Airdcpp
