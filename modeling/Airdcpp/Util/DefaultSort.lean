import Airdcpp.Util.NoCaseBounds

/-!
# `Util/DefaultSort` — the comparison of names for sorting

`Util::DefaultSort` compares names character by character, and digits in a row as numbers. Its loops
over digits give `utf8ToWc` the last digit in `c` and go on by the length it returns. For a bad
sequence this length is negative, and when `c` is still a digit, the cursor goes back.

`tokens` is what the comparison sees of a string: characters, numbers, and digits that do not come
to an end (`stuck`). `defaultSort_sign` says that the strings are compared by these.
-/

namespace Airdcpp
namespace Util

open Text

/-- `iswdigit` -/
def iswdigit (c : Nat) : Bool := decide (0x30 ≤ c) && decide (c ≤ 0x39)

/-- An `int` of 32 bits. -/
def wrapInt (n : Int) : Int := n.bmod (2 ^ 32)

/-- `*s`, a signed `char` -/
def signedChar (b : UInt8) : Int := if b.toNat < 0x80 then b.toNat else (b.toNat : Int) - 0x100

/-- `v *= 10; v += *s - '0'` -/
def addDigit (v : Int) (b : UInt8) : Int := wrapInt (wrapInt (v * 10) + (signedChar b - 0x30))

/-- The loop over the digits of one string. `none` when the cursor goes back, or behind the
    terminator. -/
def digitRun (s : Str) : (fuel i : Nat) → (n : Int) → (c : Nat) → (v : Int) → Option (Int × Nat)
  | 0, _, _, _, _ => none
  | fuel + 1, i, n, c, v =>
    if iswdigit c = false then some (v, i)
    else if n < 0 then none
    else
      let v := addDigit v (s.getD i 0)
      let i := i + n.toNat
      if i ≤ strlen s then
        let w := utf8ToWcFrom c (s.drop i)
        digitRun s fuel i w.1 w.2 v
      else none

/-- The loop of `DefaultSort`. -/
def defaultSortFrom (locale : Locale) (a b : Str) : (fuel i j : Nat) → Option Int
  | 0, _, _ => none
  | fuel + 1, i, j =>
    if a.getD i 0 ≠ 0 ∧ b.getD j 0 ≠ 0 then do
      let wa ← charsAt a i
      let wb ← charsAt b j
      if iswdigit wa.2 ≠ iswdigit wb.2 then pure (if iswdigit wa.2 then -1 else 1)
      else if iswdigit wa.2 = false then
        if locale.towlower wa.2 ≠ locale.towlower wb.2 then
          pure ((locale.towlower wa.2 : Int) - locale.towlower wb.2)
        else defaultSortFrom locale a b fuel (i + wa.1.natAbs) (j + wb.1.natAbs)
      else
        let ra ← digitRun a (a.length + 1) i wa.1.natAbs wa.2 0
        let rb ← digitRun b (b.length + 1) j wb.1.natAbs wb.2 0
        if ra.1 ≠ rb.1 then pure (if ra.1 < rb.1 then -1 else 1)
        else defaultSortFrom locale a b fuel ra.2 rb.2
    else stricmpChecked locale (a.drop i) (b.drop j)

/-- `DefaultSort`, `none` when a cursor goes back or behind its terminator, or the loops do not
    end. -/
def defaultSort (locale : Locale) (a b : Str) : Option Int :=
  defaultSortFrom locale a b (a.length + 1) 0 0

/-! ## What is compared -/

inductive Token where
  | char (x : Nat)
  | number (v : Int)
  /-- Digits in front of a bad sequence that leaves a digit in `c`. -/
  | stuck
  deriving DecidableEq

/-- The characters and numbers of a string, up to its terminator; `skip` bytes belong to the
    sequence before, and `run` is the number that is being read with its last digit. -/
def tokensFrom (locale : Locale) : (skip : Nat) → (run : Option (Int × Nat)) → Str → List Token
  | _, none, [] => []
  | _, some (v, _), [] => [.number v]
  | k + 1, run, _ :: s => tokensFrom locale k run s
  | 0, none, b :: s =>
    let w := utf8ToWc (b :: s)
    if b = 0 then []
    else if iswdigit w.2 then tokensFrom locale (w.1.natAbs - 1) (some (addDigit 0 b, w.2)) s
    else .char (locale.towlower w.2) :: tokensFrom locale (w.1.natAbs - 1) none s
  | 0, some (v, c), b :: s =>
    let w := utf8ToWcFrom c (b :: s)
    if b = 0 then [.number v]
    else if iswdigit w.2 then
      if w.1 < 0 then [.stuck]
      else tokensFrom locale (w.1.natAbs - 1) (some (addDigit v b, w.2)) s
    else .number v :: .char (locale.towlower w.2) :: tokensFrom locale (w.1.natAbs - 1) none s

def tokens (locale : Locale) (s : Str) : List Token := tokensFrom locale 0 none s

namespace Token

def isNumeric : Token → Bool
  | char _ => false
  | _ => true

def value : Token → Int
  | char x => x
  | number v => v
  | stuck => 0

end Token

/-- The comparison of tokens, `-1`, `0` or `1`. `z` is what the null character is lowered to; a
    string that goes on with it is taken for one that ends. -/
def compareTokens (z : Nat) : List Token → List Token → Option Int
  | [], [] => some 0
  | [], u :: _ => some (if u = .char z then 0 else -1)
  | t :: _, [] => if t = .char z then none else some 1
  | t :: as, u :: bs =>
    if t.isNumeric ≠ u.isNumeric then some (if t.isNumeric then -1 else 1)
    else if t = .stuck ∨ u = .stuck then none
    else if t = u then compareTokens z as bs
    else some (if t.value < u.value then -1 else 1)

section

variable {z : Nat} {t u : Token} {as bs : List Token}

theorem compareTokens_chars (x y : Nat) :
    compareTokens z (.char x :: as) (.char y :: bs) =
      if x = y then compareTokens z as bs else some (if x < y then -1 else 1) := by
  by_cases hxy : x = y
  · simp [compareTokens, Token.isNumeric, hxy]
  · simp [compareTokens, Token.isNumeric, Token.value, hxy]

theorem compareTokens_numbers (v w : Int) :
    compareTokens z (.number v :: as) (.number w :: bs) =
      if v = w then compareTokens z as bs else some (if v < w then -1 else 1) := by
  by_cases hvw : v = w
  · simp [compareTokens, Token.isNumeric, hvw]
  · have hkind : ¬ (Token.number v).isNumeric ≠ (Token.number w).isNumeric := not_not.mpr rfl
    rw [compareTokens, if_neg hkind, if_neg (by simp), if_neg (by simpa using hvw), if_neg hvw]
    rfl

theorem compareTokens_numeric_char (ht : t.isNumeric = true) (y : Nat) :
    compareTokens z (t :: as) (.char y :: bs) = some (-1) := by
  rw [compareTokens, if_pos (by rw [ht]; exact Bool.noConfusion), if_pos ht]

theorem compareTokens_char_numeric (hu : u.isNumeric = true) (x : Nat) :
    compareTokens z (.char x :: as) (u :: bs) = some 1 := by
  rw [compareTokens, if_pos (by rw [hu]; exact Bool.noConfusion)]
  rfl

theorem compareTokens_stuck (ht : t.isNumeric = true) (hu : u.isNumeric = true)
    (hstuck : t = .stuck ∨ u = .stuck) : compareTokens z (t :: as) (u :: bs) = none := by
  rw [compareTokens, if_neg (not_not.mpr (ht.trans hu.symm)), if_pos hstuck]

end

/-! ## Tokens at a cursor -/

variable {locale : Locale} {s a b : Str} {i j fuel c : Nat} {v : Int}

/-- The tokens from a cursor on. -/
def tokensAt (locale : Locale) (s : Str) (run : Option (Int × Nat)) (i : Nat) : List Token :=
  tokensFrom locale 0 run (s.drop i)

theorem tokensFrom_skip (k : Nat) (run : Option (Int × Nat)) (s : Str) :
    tokensFrom locale k run s = tokensFrom locale 0 run (s.drop k) := by
  induction k generalizing s with
  | zero => rfl
  | succ k ih =>
    cases s with
    | nil => rcases run with _ | ⟨v, c⟩ <;> rfl
    | cons b s =>
      have hskip : tokensFrom locale (k + 1) run (b :: s) = tokensFrom locale k run s := by
        rcases run with _ | ⟨v, c⟩ <;> rfl
      rw [hskip, ih, List.drop_succ_cons]

/-- Behind the sequence at a cursor. -/
theorem tokensFrom_next {n : Nat} (run : Option (Int × Nat)) (hn : 1 ≤ n) :
    tokensFrom locale (n - 1) run (s.drop (i + 1)) = tokensAt locale s run (i + n) := by
  rw [tokensFrom_skip, List.drop_drop, tokensAt]
  congr 2
  omega

theorem tokensAt_end (h : s.getD i 0 = 0) : tokensAt locale s none i = [] := by
  rcases Nat.lt_or_ge i s.length with hlt | hge
  · obtain ⟨c, hdrop, hc⟩ := drop_cons_of_lt hlt
    rw [tokensAt, hdrop, tokensFrom]
    exact if_pos (hc.symm.trans h)
  · rw [tokensAt, List.drop_eq_nil_of_le hge]
    rfl

theorem tokensAt_char (h : s.getD i 0 ≠ 0) (hchar : iswdigit (utf8ToWc (s.drop i)).2 = false) :
    tokensAt locale s none i = .char (locale.towlower (utf8ToWc (s.drop i)).2) ::
      tokensAt locale s none (i + (utf8ToWc (s.drop i)).1.natAbs) := by
  obtain ⟨c, hdrop, hc, hpos⟩ := sequence_at 0 h
  change 1 ≤ (utf8ToWc (s.drop i)).1.natAbs at hpos
  rw [← tokensFrom_next none hpos, tokensAt, hdrop, tokensFrom, ← hdrop]
  rw [if_neg (by rwa [← hc]), if_neg (ne_true_of_eq_false hchar)]

theorem tokensAt_digit (h : s.getD i 0 ≠ 0) (hdigit : iswdigit (utf8ToWc (s.drop i)).2 = true) :
    tokensAt locale s none i =
      tokensAt locale s (some (addDigit 0 (s.getD i 0), (utf8ToWc (s.drop i)).2))
        (i + (utf8ToWc (s.drop i)).1.natAbs) := by
  obtain ⟨c, hdrop, hc, hpos⟩ := sequence_at 0 h
  change 1 ≤ (utf8ToWc (s.drop i)).1.natAbs at hpos
  rw [← tokensFrom_next _ hpos, tokensAt, hdrop, tokensFrom, ← hdrop]
  rw [if_neg (by rwa [← hc]), if_pos hdigit, hc]

/-- A digit of a run. -/
theorem tokensAt_run (h : s.getD i 0 ≠ 0)
    (hdigit : iswdigit (utf8ToWcFrom c (s.drop i)).2 = true) :
    tokensAt locale s (some (v, c)) i =
      if (utf8ToWcFrom c (s.drop i)).1 < 0 then [.stuck]
      else tokensAt locale s (some (addDigit v (s.getD i 0), (utf8ToWcFrom c (s.drop i)).2))
        (i + (utf8ToWcFrom c (s.drop i)).1.natAbs) := by
  obtain ⟨b, hdrop, hb, hpos⟩ := sequence_at c h
  rw [← tokensFrom_next _ hpos, tokensAt, hdrop, tokensFrom, ← hdrop]
  rw [if_neg (by rwa [← hb]), if_pos hdigit, hb]

/-- A sequence whose first byte is none keeps the digit in `c`; what others leave there does not
    depend on it. -/
theorem utf8ToWcFrom_of_not_digit (hc : iswdigit c = true)
    (hnot : iswdigit (utf8ToWcFrom c s).2 = false) : utf8ToWcFrom c s = utf8ToWc s := by
  cases s with
  | nil => rfl
  | cons b s =>
    rw [utf8ToWc, utf8ToWcFrom_cons, utf8ToWcFrom_cons] at *
    cases hlead : lead b with
    | none =>
      rw [hlead] at hnot
      exact absurd (hc.symm.trans hnot) Bool.noConfusion
    | some p => rfl

/-- The end of a run. -/
theorem tokensAt_run_end (hc : iswdigit c = true)
    (hnot : iswdigit (utf8ToWcFrom c (s.drop i)).2 = false) :
    tokensAt locale s (some (v, c)) i = .number v :: tokensAt locale s none i := by
  by_cases h : s.getD i 0 = 0
  · rw [tokensAt_end h]
    rcases Nat.lt_or_ge i s.length with hlt | hge
    · obtain ⟨b, hdrop, hb⟩ := drop_cons_of_lt hlt
      rw [tokensAt, hdrop, tokensFrom]
      exact if_pos (hb.symm.trans h)
    · rw [tokensAt, List.drop_eq_nil_of_le hge]
      rfl
  · have hsame := utf8ToWcFrom_of_not_digit hc hnot
    have hchar : iswdigit (utf8ToWc (s.drop i)).2 = false := hsame ▸ hnot
    rw [tokensAt_char h hchar]
    obtain ⟨b, hdrop, hb, hpos⟩ := sequence_at 0 h
    change 1 ≤ (utf8ToWc (s.drop i)).1.natAbs at hpos
    rw [← tokensFrom_next none hpos, tokensAt, hdrop, tokensFrom, ← hdrop, hsame]
    rw [if_neg (by rwa [← hb]), if_neg (ne_true_of_eq_false hchar)]

/-! ## The loop over digits -/

theorem strlen_of_digit (hi : i ≤ strlen s)
    (hdigit : iswdigit (utf8ToWcFrom c (s.drop i)).2 = true) :
    i < strlen s := by
  rcases Nat.eq_or_lt_of_le hi with rfl | hlt
  · rw [utf8ToWcFrom_strlen] at hdigit
    exact absurd hdigit (by decide)
  · exact hlt

/-- **The loop reads a number**, unless the digits do not come to an end. -/
theorem digitRun_spec (hfuel : s.length < i + fuel) (hi : i ≤ strlen s) (hc : iswdigit c = true) :
    (∃ v' i', digitRun s fuel i (utf8ToWcFrom c (s.drop i)).1 (utf8ToWcFrom c (s.drop i)).2 v =
        some (v', i') ∧ i ≤ i' ∧ i' ≤ strlen s ∧
        tokensAt locale s (some (v, c)) i = .number v' :: tokensAt locale s none i') ∨
      digitRun s fuel i (utf8ToWcFrom c (s.drop i)).1 (utf8ToWcFrom c (s.drop i)).2 v = none ∧
        tokensAt locale s (some (v, c)) i = [.stuck] := by
  have hlen := strlen_le s
  induction fuel generalizing i c v with
  | zero => omega
  | succ fuel ih =>
    rw [digitRun]
    by_cases hdigit : iswdigit (utf8ToWcFrom c (s.drop i)).2 = false
    · rw [if_pos hdigit]
      exact .inl ⟨v, i, rfl, le_rfl, hi, tokensAt_run_end hc hdigit⟩
    · have hdigit' := Bool.eq_true_of_not_eq_false hdigit
      have hlt := strlen_of_digit hi hdigit'
      rw [if_neg hdigit, tokensAt_run (getD_ne_zero hlt) hdigit']
      by_cases hback : (utf8ToWcFrom c (s.drop i)).1 < 0
      · rw [if_pos hback, if_pos hback]
        exact .inr ⟨rfl, rfl⟩
      · obtain ⟨hpos, hle⟩ := advanceFrom_le c hlt
        have hnat : (utf8ToWcFrom c (s.drop i)).1.toNat = (utf8ToWcFrom c (s.drop i)).1.natAbs := by
          omega
        rw [if_neg hback, if_neg hback, hnat]
        dsimp only
        rw [if_pos hle]
        rcases @ih (i + (utf8ToWcFrom c (s.drop i)).1.natAbs) (utf8ToWcFrom c (s.drop i)).2
          (addDigit v (s.getD i 0)) (by omega) hle hdigit' with ⟨v', i', hrun, hge, hle', htokens⟩ |
            hnone
        · exact .inl ⟨v', i', hrun, by omega, hle', htokens⟩
        · exact .inr hnone

/-- The loop as `DefaultSort` enters it. -/
theorem digitRun_start (hi : i < strlen s) (hdigit : iswdigit (utf8ToWc (s.drop i)).2 = true) :
    (∃ v' i', digitRun s (s.length + 1) i ((utf8ToWc (s.drop i)).1.natAbs : Int)
        (utf8ToWc (s.drop i)).2 0 = some (v', i') ∧ i < i' ∧ i' ≤ strlen s ∧
        tokensAt locale s none i = .number v' :: tokensAt locale s none i') ∨
      digitRun s (s.length + 1) i ((utf8ToWc (s.drop i)).1.natAbs : Int) (utf8ToWc (s.drop i)).2 0 =
        none ∧ tokensAt locale s none i = [.stuck] := by
  obtain ⟨hpos, hle⟩ := advance_le hi
  have hlen := strlen_le s
  rw [tokensAt_digit (getD_ne_zero hi) hdigit, digitRun, if_neg (Bool.not_eq_false _ |>.mpr hdigit),
    if_neg (Int.not_lt.mpr (Int.natCast_nonneg _)), Int.toNat_natCast]
  dsimp only
  rw [if_pos hle]
  have hfuel : s.length < i + (utf8ToWc (s.drop i)).1.natAbs + s.length := by omega
  rcases digitRun_spec hfuel hle hdigit with ⟨v', i', hrun, hge, hle', htokens⟩ | hnone
  · exact .inl ⟨v', i', hrun, by omega, hle', htokens⟩
  · exact .inr hnone

/-! ## The comparison -/

/-- What the C library says of the null character: it is its own lower case, and that of no other
    character. -/
def NullLeast (locale : Locale) : Prop := ∀ c, c ≠ 0 → locale.towlower 0 < locale.towlower c

theorem tokensAt_head_digit (hi : i < strlen s) (hdigit : iswdigit (utf8ToWc (s.drop i)).2 = true) :
    ∃ t rest, tokensAt locale s none i = t :: rest ∧ t.isNumeric = true := by
  rcases @digitRun_start locale s i hi hdigit with ⟨v, i', -, -, -, htokens⟩ | ⟨-, htokens⟩
  · exact ⟨_, _, htokens, rfl⟩
  · exact ⟨_, _, htokens, rfl⟩

/-- The first token is the null character in lower case when the first character is. -/
theorem tokensAt_head (hnull : NullLeast locale) (hi : i < strlen s) :
    ∃ t rest, tokensAt locale s none i = t :: rest ∧
      (t = .char (locale.towlower 0) ↔
        locale.towlower (utf8ToWc (s.drop i)).2 = locale.towlower 0) := by
  by_cases hdigit : iswdigit (utf8ToWc (s.drop i)).2 = true
  · obtain ⟨t, rest, htokens, hnumeric⟩ := @tokensAt_head_digit locale s i hi hdigit
    refine ⟨t, rest, htokens, iff_of_false ?_ ?_⟩
    · rintro rfl
      exact Bool.noConfusion hnumeric
    · refine (hnull _ ?_).ne'
      intro hzero
      rw [hzero] at hdigit
      exact absurd hdigit (by decide)
  · exact ⟨_, _, tokensAt_char (getD_ne_zero hi) (eq_false_of_ne_true hdigit),
      Token.char.injEq .. ▸ Iff.rfl⟩

/-- The end of the comparison, where one of the strings has ended. -/
theorem stricmpChecked_sign (hnull : NullLeast locale) (hi : i ≤ strlen a) (hj : j ≤ strlen b)
    (hend : i = strlen a ∨ j = strlen b) :
    (stricmpChecked locale (a.drop i) (b.drop j)).map Int.sign =
      compareTokens (locale.towlower 0) (tokensAt locale a none i) (tokensAt locale b none j) := by
  rw [stricmpChecked_eq, ← foldAt_true a i, ← foldAt_true b j]
  rcases Nat.eq_or_lt_of_le hi with rfl | hilt
  · rw [foldAt_stop (.inl (getD_strlen a)), tokensAt_end (getD_strlen a), compareFolds]
    rcases Nat.eq_or_lt_of_le hj with rfl | hjlt
    · rw [foldAt_stop (.inl (getD_strlen b)), tokensAt_end (getD_strlen b)]
      simp [compareTokens]
    · obtain ⟨u, rest, htokens, hu⟩ := tokensAt_head hnull hjlt
      rw [foldAt_go (getD_ne_zero hjlt) rfl, htokens, compareTokens, List.headD_cons, if_pos rfl]
      by_cases hzero : (utf8ToWc (b.drop j)).2 = 0
      · rw [if_pos (hu.mpr (by rw [hzero])), hzero]
        simp
      · have hlt := hnull _ hzero
        rw [if_neg (fun h => hlt.ne' (hu.mp h))]
        exact congrArg some (Int.sign_eq_neg_one_of_neg (by omega))
  · obtain rfl : j = strlen b := hend.resolve_left hilt.ne
    obtain ⟨t, rest, htokens, ht⟩ := tokensAt_head hnull hilt
    rw [foldAt_go (getD_ne_zero hilt) rfl, foldAt_stop (.inl (getD_strlen b)), htokens,
      tokensAt_end (getD_strlen b), compareFolds, compareTokens]
    by_cases hzero : (utf8ToWc (a.drop i)).2 = 0
    · rw [if_pos (by rw [hzero]), if_pos (ht.mpr (by rw [hzero]))]
      rfl
    · have hlt := hnull _ hzero
      rw [if_neg hlt.ne', if_neg (fun h => hlt.ne' (ht.mp h))]
      exact congrArg some (Int.sign_eq_one_of_pos (by omega))

/-- One round of the loop, with both strings still going on. -/
theorem defaultSortFrom_succ (hi : i < strlen a) (hj : j < strlen b) :
    defaultSortFrom locale a b (fuel + 1) i j =
      let wa := utf8ToWc (a.drop i)
      let wb := utf8ToWc (b.drop j)
      if iswdigit wa.2 ≠ iswdigit wb.2 then some (if iswdigit wa.2 then -1 else 1)
      else if iswdigit wa.2 = false then
        if locale.towlower wa.2 ≠ locale.towlower wb.2 then
          some ((locale.towlower wa.2 : Int) - locale.towlower wb.2)
        else defaultSortFrom locale a b fuel (i + wa.1.natAbs) (j + wb.1.natAbs)
      else
        (digitRun a (a.length + 1) i wa.1.natAbs wa.2 0).bind fun ra =>
          (digitRun b (b.length + 1) j wb.1.natAbs wb.2 0).bind fun rb =>
            if ra.1 ≠ rb.1 then some (if ra.1 < rb.1 then -1 else 1)
            else defaultSortFrom locale a b fuel ra.2 rb.2 := by
  rw [defaultSortFrom, if_pos ⟨getD_ne_zero hi, getD_ne_zero hj⟩, charsAt, charsAt, if_pos hi.le,
    if_pos hj.le]
  rfl

/-- **The loop compares tokens.** -/
theorem defaultSortFrom_sign (hnull : NullLeast locale) (hfuel : a.length < i + fuel)
    (hi : i ≤ strlen a) (hj : j ≤ strlen b) :
    (defaultSortFrom locale a b fuel i j).map Int.sign =
      compareTokens (locale.towlower 0) (tokensAt locale a none i) (tokensAt locale b none j) := by
  have hlen := strlen_le a
  induction fuel generalizing i j with
  | zero => omega
  | succ fuel ih =>
    by_cases hgo : i < strlen a ∧ j < strlen b
    · obtain ⟨hilt, hjlt⟩ := hgo
      obtain ⟨hapos, hale⟩ := advance_le hilt
      obtain ⟨hbpos, hble⟩ := advance_le hjlt
      rw [defaultSortFrom_succ hilt hjlt]
      dsimp only
      by_cases hta : iswdigit (utf8ToWc (a.drop i)).2 = true
      · by_cases htb : iswdigit (utf8ToWc (b.drop j)).2 = true
        · -- two numbers
          rw [if_neg (not_not.mpr (hta.trans htb.symm)), if_neg (by simp [hta])]
          rcases digitRun_start hilt hta with ⟨v, i', hra, hii, hile, htokens⟩ | ⟨hra, htokens⟩
          · rcases digitRun_start hjlt htb with ⟨w, j', hrb, hjj, hjle, htokens'⟩ | ⟨hrb, htokens'⟩
            · rw [hra, hrb, htokens, htokens', compareTokens_numbers]
              dsimp only [Option.bind_some]
              by_cases hvw : v = w
              · rw [if_neg (not_not.mpr hvw), if_pos hvw]
                exact ih (by omega) hile hjle
              · rw [if_pos hvw, if_neg hvw]
                exact congrArg some (by split <;> rfl)
            · rw [hra, hrb, htokens, htokens', compareTokens_stuck rfl rfl (.inr rfl)]
              rfl
          · obtain ⟨u, rest, htokens', hu⟩ := tokensAt_head_digit hjlt htb
            rw [hra, htokens, htokens', compareTokens_stuck rfl hu (.inl rfl)]
            rfl
        · obtain ⟨t, rest, htokens, ht⟩ := tokensAt_head_digit hilt hta
          rw [htokens, tokensAt_char (getD_ne_zero hjlt) (eq_false_of_ne_true htb),
            compareTokens_numeric_char ht, if_pos (by simp [hta, htb]), if_pos hta]
          rfl
      · rw [tokensAt_char (getD_ne_zero hilt) (eq_false_of_ne_true hta)]
        by_cases htb : iswdigit (utf8ToWc (b.drop j)).2 = true
        · obtain ⟨u, rest, htokens, hu⟩ := tokensAt_head_digit hjlt htb
          rw [htokens, compareTokens_char_numeric hu, if_pos (by simp [hta, htb]), if_neg hta]
          rfl
        · -- two characters
          rw [tokensAt_char (getD_ne_zero hjlt) (eq_false_of_ne_true htb), compareTokens_chars,
            if_neg (by simp [hta, htb]), if_pos (eq_false_of_ne_true hta)]
          by_cases hsame : locale.towlower (utf8ToWc (a.drop i)).2 =
              locale.towlower (utf8ToWc (b.drop j)).2
          · rw [if_neg (not_not.mpr hsame), if_pos hsame]
            exact ih (by omega) hale hble
          · rw [if_pos hsame, if_neg hsame]
            refine congrArg some ?_
            by_cases hlt : locale.towlower (utf8ToWc (a.drop i)).2 <
                locale.towlower (utf8ToWc (b.drop j)).2
            · rw [if_pos hlt, Int.sign_eq_neg_one_of_neg (by omega)]
            · rw [if_neg hlt, Int.sign_eq_one_of_pos (by omega)]
    · have hend : i = strlen a ∨ j = strlen b := by omega
      rw [defaultSortFrom, if_neg, stricmpChecked_sign hnull hi hj hend]
      rintro ⟨ha, hb⟩
      rcases hend with rfl | rfl
      · exact ha (getD_strlen a)
      · exact hb (getD_strlen b)

/-- **`DefaultSort` compares tokens.** -/
theorem defaultSort_sign (hnull : NullLeast locale) (a b : Str) :
    (defaultSort locale a b).map Int.sign =
      compareTokens (locale.towlower 0) (tokens locale a) (tokens locale b) :=
  defaultSortFrom_sign hnull (by omega) (Nat.zero_le _) (Nat.zero_le _)

end Util
end Airdcpp
