import Airdcpp.Core.Utf8
import Airdcpp.Util.NoCase

/-!
# `Util/Positions` — what text parsers do with positions

The operations of `std::string` that the parsers of NMDC text use besides those of `Util/Strings`.
`InRange` says that a function has not left the range of its strings. It goes through a function
step by step: `InRange.bind` is its rule for what comes one after the other.

A tokenizer and the loops that replace text only use positions they have found.
-/

namespace Airdcpp

/-- `s.substr(pos)` -/
def substrFrom (s : Str) (pos : Nat) : Option Str := substr s pos s.length

/-- `s[s.size() - 1]` -/
def charBack (s : Str) : Option UInt8 := charAt s (subSizeT s.length 1)

/-- `s.erase(pos)` -/
def eraseFrom (s : Str) (pos : Nat) : Option Str :=
  if pos ≤ s.length then some (s.take pos) else none

/-- `s.erase(s.begin() + i, s.begin() + j)` -/
def eraseRange (s : Str) (i j : Nat) : Option Str :=
  if i ≤ j ∧ j ≤ s.length then some (s.take i ++ s.drop j) else none

/-- `s.rfind(needle, pos)` -/
def rfindAt (s needle : Str) (pos : Nat) : Option Nat :=
  (List.range (min pos s.length + 1)).reverse.find? fun i => needle.isPrefixOf (s.drop i)

/-- `s.rfind(needle)` -/
def rfindLast (s needle : Str) : Option Nat := rfindAt s needle s.length

/-- `s.replace(i, needle.size(), by_)` wherever the needle is found, going on `step` behind it. -/
def replaceLoop (needle by_ : Str) (step : Nat) : (fuel : Nat) → (s : Str) → (i : Nat) → Str
  | 0, s, _ => s
  | fuel + 1, s, i =>
    match find s needle i with
    | none => s
    | some i =>
      replaceLoop needle by_ step fuel (s.take i ++ by_ ++ s.drop (i + needle.length)) (i + step)

/-- `Util::replace` -/
def Util.replace (needle by_ s : Str) : Str := replaceLoop needle by_ by_.length (s.length + 1) s 0

/-- The loop of `StringTokenizer`. -/
def tokenLoop (s token : Str) (allowEmpty : Bool) : (fuel : Nat) → (j : Nat) → List Str
  | 0, _ => []
  | fuel + 1, j =>
    match find s token j with
    | some i =>
      (if allowEmpty ∨ j ≠ i then [(s.drop j).take (i - j)] else []) ++
        tokenLoop s token allowEmpty fuel (i + token.length)
    | none => if j < s.length ∨ allowEmpty ∧ j = s.length then [s.drop j] else []

/-- `StringTokenizer(s, token, allowEmpty).getTokens()` -/
def tokens (s token : Str) (allowEmpty : Bool) : List Str :=
  tokenLoop s token allowEmpty (s.length + 1) 0

/-! ## In range -/

variable {α β : Type} {s needle : Str} {pos i j n : Nat}

/-- No position was out of range. -/
def InRange (x : Option α) : Prop := x.isSome = true

instance (x : Option α) : Decidable (InRange x) := inferInstanceAs (Decidable (x.isSome = true))

theorem inRange_some (a : α) : InRange (some a) := rfl

theorem inRange_pure (a : α) : InRange (pure a : Option α) := rfl

theorem not_inRange_none : ¬ InRange (none : Option α) := Bool.false_ne_true

/-- What comes first is in range, and what comes next is for all that it gives. -/
theorem InRange.bind {x : Option α} {f : α → Option β} (hx : InRange x)
    (hf : ∀ a, x = some a → InRange (f a)) : InRange (x >>= f) := by
  cases x with
  | none => exact absurd hx not_inRange_none
  | some a => exact hf a rfl

theorem InRange.map {x : Option α} (h : InRange x) (f : α → β) : InRange (x.map f) := by
  rwa [InRange, Option.isSome_map]

theorem inRange_substr (h : pos ≤ s.length) : InRange (substr s pos n) := by
  rw [substr_of_le h]
  exact inRange_some _

theorem substrFrom_of_le (h : pos ≤ s.length) : substrFrom s pos = some (s.drop pos) := by
  rw [substrFrom, substr_of_le h, List.take_of_length_le]
  rw [List.length_drop]
  exact Nat.sub_le _ _

theorem inRange_substrFrom (h : pos ≤ s.length) : InRange (substrFrom s pos) := inRange_substr h

theorem inRange_charAt (h : i ≤ s.length) : InRange (charAt s i) := by
  rw [charAt_of_le h]
  exact inRange_some _

theorem inRange_charBack (h : s ≠ []) : InRange (charBack s) := by
  have hpos : 1 ≤ s.length := List.length_pos_iff.mpr h
  refine inRange_charAt ?_
  rw [subSizeT, if_pos hpos]
  exact Nat.sub_le _ _

theorem inRange_eraseFrom (h : pos ≤ s.length) : InRange (eraseFrom s pos) := by
  rw [eraseFrom, if_pos h]
  exact inRange_some _

theorem inRange_eraseRange (hi : i ≤ j) (hj : j ≤ s.length) : InRange (eraseRange s i j) := by
  rw [eraseRange, if_pos ⟨hi, hj⟩]
  exact inRange_some _

theorem inRange_ite {p : Prop} [Decidable p] {x y : Option α} (hx : p → InRange x)
    (hy : ¬ p → InRange y) : InRange (if p then x else y) := by
  split
  · rename_i h
    exact hx h
  · rename_i h
    exact hy h

/-! ## What is found -/

theorem find_le (h : find s needle pos = some i) : pos ≤ i ∧ i + needle.length ≤ s.length :=
  ⟨(find_eq_some h).1, find_add_le h⟩

theorem rfindAt_le (h : rfindAt s needle pos = some i) :
    i ≤ pos ∧ i + needle.length ≤ s.length := by
  have hmem := List.mem_of_find?_eq_some h
  have hpre := List.find?_some h
  rw [List.mem_reverse, List.mem_range] at hmem
  rw [List.isPrefixOf_iff_prefix] at hpre
  have hlength := hpre.length_le
  rw [List.length_drop] at hlength
  omega

theorem char_isPrefixOf_iff {c : UInt8} :
    [c].isPrefixOf (s.drop i) = true ↔ s[i]? = some c := by
  rw [List.isPrefixOf_iff_prefix, ← List.head?_drop]
  cases s.drop i with
  | nil => simp
  | cons x rest => simp [List.cons_prefix_cons, eq_comm]

theorem drop_of_find {c : UInt8} (h : find s [c] pos = some i) :
    s.drop i = c :: s.drop (i + 1) := by
  have hpre := List.find?_some h
  have hat := char_isPrefixOf_iff.mp hpre
  obtain ⟨hlt, hc⟩ := List.getElem?_eq_some_iff.mp hat
  rw [List.drop_eq_getElem_cons hlt, hc]

/-- What stands before the first `c` from `pos` on. -/
theorem takeWhile_of_find {c : UInt8} (h : find s [c] pos = some i) :
    (s.drop pos).takeWhile (· != c) = (s.drop pos).take (i - pos) := by
  obtain ⟨-, -, hfirst⟩ := List.find?_range'_eq_some.mp h
  obtain ⟨hpos, hend⟩ := find_le h
  have hbefore : ∀ x ∈ (s.drop pos).take (i - pos), (x != c) = true := by
    intro x hx
    obtain ⟨m, hm, hx⟩ := List.mem_take_iff_getElem.mp hx
    rw [lt_min_iff] at hm
    have hnot := hfirst (pos + m) (by omega) (by omega)
    rw [Bool.not_eq_true', Bool.eq_false_iff, ne_eq, char_isPrefixOf_iff] at hnot
    rw [bne_iff_ne]
    rintro rfl
    refine hnot ?_
    rw [← hx, List.getElem_drop, List.getElem?_eq_getElem]
  have hsplit : s.drop pos = (s.drop pos).take (i - pos) ++ c :: s.drop (i + 1) := by
    conv_lhs => rw [← List.take_append_drop (i - pos) (s.drop pos), List.drop_drop]
    rw [Nat.add_sub_cancel' hpos, drop_of_find h]
  rw [hsplit, List.takeWhile_append_of_pos hbefore, List.takeWhile_cons_of_neg (by simp), ← hsplit,
    List.append_nil]

/-- No `c` stands from `pos` on. -/
theorem takeWhile_of_find_none {c : UInt8} (h : find s [c] pos = none) :
    (s.drop pos).takeWhile (· != c) = s.drop pos := by
  rw [List.takeWhile_eq_self_iff]
  intro x hx
  obtain ⟨m, hm⟩ := List.mem_iff_getElem?.mp hx
  rw [List.getElem?_drop] at hm
  obtain ⟨hlt, -⟩ := List.getElem?_eq_some_iff.mp hm
  have hnot := List.find?_eq_none.mp h (pos + m) (List.mem_range'_1.mpr ⟨by omega, by omega⟩)
  rw [char_isPrefixOf_iff, hm] at hnot
  rw [bne_iff_ne]
  rintro rfl
  exact hnot rfl

theorem takeWhile_append_char {c : UInt8} {a : Str} (ha : c ∉ a) (b : Str) :
    (a ++ c :: b).takeWhile (· != c) = a := by
  rw [List.takeWhile_append_of_pos, List.takeWhile_cons_of_neg (by simp), List.append_nil]
  intro x hx
  rw [bne_iff_ne]
  rintro rfl
  exact ha hx

/-- A string is split at its first `c` in one way. -/
theorem split_char_inj {c : UInt8} {a a' b b' : Str} (ha : c ∉ a) (ha' : c ∉ a')
    (h : a ++ c :: b = a' ++ c :: b') : a = a' ∧ b = b' := by
  have hword := congrArg (List.takeWhile (· != c)) h
  rw [takeWhile_append_char ha, takeWhile_append_char ha'] at hword
  subst hword
  exact ⟨rfl, (List.cons.inj (List.append_cancel_left h)).2⟩

/-! ## Texts that begin alike -/

/-- Only the null character is like it. -/
def NulApart (locale : Locale) : Prop := ∀ c, c ≠ 0 → locale.towlower c ≠ locale.towlower 0

/-- A text that begins like another one is as long. -/
theorem length_of_strnicmp {locale : Locale} (hlocale : NulApart locale) {fuel : Nat} {a b : Str}
    (hb : ∀ c ∈ b, c ≠ 0 ∧ c.toNat < 128) (hn : n ≤ b.length) (hfuel : a.length < fuel)
    (h : Util.strnicmp locale fuel a b n = 0) : n ≤ a.length := by
  induction fuel generalizing a b n with
  | zero => exact absurd hfuel (Nat.not_lt_zero _)
  | succ fuel ih =>
    rw [Util.strnicmp] at h
    by_cases hzero : n = 0
    · rw [hzero]
      exact Nat.zero_le _
    · rw [if_neg hzero] at h
      obtain ⟨x, b, rfl⟩ : ∃ x b', b = x :: b' := List.exists_cons_of_ne_nil fun hnil => by
        rw [hnil] at hn
        exact hzero (Nat.le_zero.mp hn)
      obtain ⟨hx, hascii⟩ := hb x List.mem_cons_self
      have hwb : Text.utf8ToWc (x :: b) = (1, x.toNat) := Text.utf8ToWc_ascii hascii b
      by_cases hend : a.getD 0 0 = 0
      · -- the text ends here, and what it is compared with does not
        have hwa : (Text.utf8ToWc a).2 = 0 := by
          cases a with
          | nil => rfl
          | cons y a =>
            obtain rfl : y = 0 := hend
            rw [Util.utf8ToWc_zero]
        rw [if_pos (.inl hend), hwa, hwb] at h
        have hne := hlocale x.toNat fun h0 => hx (UInt8.toNat.inj h0)
        exact absurd (Int.ofNat.inj (sub_eq_zero.mp h)).symm hne
      · by_cases hdiff : (locale.towlower (Text.utf8ToWc a).2 : Int) -
            locale.towlower (Text.utf8ToWc (x :: b)).2 = 0
        · rw [if_neg (by rw [not_or, not_not]; exact ⟨hend, hdiff⟩), hwb] at h
          obtain ⟨y, a, rfl⟩ : ∃ y a', a = y :: a' := List.exists_cons_of_ne_nil fun hnil => by
            rw [hnil] at hend
            exact hend rfl
          obtain ⟨hpos, hle⟩ := Text.utf8ToWc_length y a
          have hrest := ih (fun c hc => hb c (List.mem_of_mem_drop hc)) ?_ ?_ h
          · rw [List.length_drop] at hrest
            omega
          · rw [List.length_drop]
            simp only [Int.natAbs_one]
            omega
          · rw [List.length_drop]
            omega
        · rw [if_pos (.inr hdiff)] at h
          exact absurd h hdiff

end Airdcpp
