import Airdcpp.Lib.Rounding
import Airdcpp.Util.NumberText

/-!
# `Util/DoubleText` — numbers with two decimals as text

A `double` is written with two decimals, by the decimal point of the locale, and read again by
`toDouble`, which puts the point of its own locale in place of the last dot or comma. The number
that is read is the rounded one (`toDouble_fixed2`), and it is not more than half of the second
decimal away (`abs_fixed2Value_sub_le`), apart from the rounding of the `double` itself.

The numbers of the formats are rational ones (`Lib.nearest`), so nothing overflows.
-/

namespace Airdcpp
namespace Util

/-- A `double` -/
def double (x : ℚ) : ℚ := Lib.nearest 53 x

/-- A `float` -/
def float (x : ℚ) : ℚ := Lib.nearest 24 x

/-- The decimal points of the locales -/
def IsPoint (c : UInt8) : Prop := c = chr '.' ∨ c = chr ','

instance (c : UInt8) : Decidable (IsPoint c) := inferInstanceAs (Decidable (_ ∨ _))

/-! ## Writing -/

/-- The decimal digit of a number below ten. -/
def digitChar (d : Nat) : UInt8 := UInt8.ofNat (48 + d)

/-- The number of hundredths that is written. -/
def hundredths (x : ℚ) : Nat := (Lib.roundEven (|x| * 100)).toNat

/-- `snprintf` of `"%.02f"`; `point` is the decimal point of the locale. -/
def fixed2 (point : UInt8) (x : ℚ) : Str :=
  let n := hundredths x
  (if x < 0 then [chr '-'] else []) ++ natText (n / 100) ++
    [point, digitChar (n % 100 / 10), digitChar (n % 100 % 10)]

/-! ## Reading -/

def isDigit (c : UInt8) : Bool := (digit? 10 c).isSome

/-- What stands behind the digits: `e` and a number. -/
def exponent : Str → Int
  | e :: s :: rest =>
    if e = chr 'e' ∨ e = chr 'E' then
      if s = chr '-' then -digits 10 0 rest
      else if s = chr '+' then digits 10 0 rest
      else digits 10 0 (s :: rest)
    else 0
  | _ => 0

/-- The number that stands at the beginning of a text without a sign. -/
def decimal (point : UInt8) (s : Str) : ℚ :=
  let whole := s.takeWhile isDigit
  let behind := s.dropWhile isDigit
  let fraction := if behind.head? = some point then behind.tail.takeWhile isDigit else []
  let rest := if behind.head? = some point then behind.tail.dropWhile isDigit else behind
  digits 10 0 (whole ++ fraction) * 10 ^ (exponent rest - fraction.length)

/-- Infinity, what is no number, and numbers of base 16 -/
def isOtherNotation (s : Str) : Bool :=
  (str "inf").isPrefixOf (s.map fun c => UInt8.ofNat (asciiToLower c)) ||
    (str "nan").isPrefixOf (s.map fun c => UInt8.ofNat (asciiToLower c)) ||
    decide (skipHexPrefix s ≠ s)

/-- `atof`, of what is no decimal number `none`. -/
def atof (point : UInt8) (s : Str) : Option ℚ :=
  let (minus, s) := sign s
  if isOtherNotation s then none
  else some (double (if minus then -decimal point s else decimal point s))

/-- The last dot or comma is replaced by the point of the locale. -/
def withPoint (point : UInt8) (aString : Str) : Str :=
  match aString.rdropWhile (fun c => ¬ IsPoint c) with
  | [] => aString
  | front => front.dropLast ++ point :: aString.rtakeWhile (fun c => ¬ IsPoint c)

def toDouble (point : UInt8) (aString : Str) : Option ℚ := atof point (withPoint point aString)

def toFloat (point : UInt8) (aString : Str) : Option ℚ := (toDouble point aString).map float

/-! ## What is read is what was written -/

theorem isDigit_digitChar {d : Nat} (hd : d < 10) :
    digit? 10 (digitChar d) = some d ∧ ¬ IsPoint (digitChar d) := by
  revert d
  decide

theorem isDigit_facts : ∀ c : UInt8, isDigit c →
    isSpace c = false ∧ c ≠ chr '-' ∧ c ≠ chr '+' ∧ ¬ IsPoint c ∧
      UInt8.ofNat (asciiToLower c) ≠ chr 'i' ∧ UInt8.ofNat (asciiToLower c) ≠ chr 'n' ∧
      c ≠ chr 'x' ∧ c ≠ chr 'X' := by
  decide +kernel

theorem not_isDigit_of_isPoint {c : UInt8} (h : IsPoint c) : isDigit c = false := by
  rcases h with rfl | rfl <;> rfl

theorem natText_isDigit {n : Nat} {c : UInt8} (hc : c ∈ natText n) : isDigit c := natText_digit hc

theorem natText_ne_nil (n : Nat) : natText n ≠ [] := by
  intro h
  have hlen : (Nat.toDigits 10 n).length = 0 := by
    rw [← List.length_map (f := fun c : Char => c.toNat.toUInt8)]
    exact List.length_eq_zero_iff.mpr h
  have hpos := Nat.length_toDigits_pos (b := 10) (n := n)
  omega

/-- A text that begins with a digit has no sign. -/
theorem sign_digit {c : UInt8} (s : Str) (hc : isDigit c) : sign (c :: s) = (false, c :: s) := by
  obtain ⟨hs, hminus, hplus, -⟩ := isDigit_facts c hc
  simp [sign, hs, hminus, hplus]

/-- And it is a decimal number, unless an `x` follows. -/
theorem isOtherNotation_digit {c : UInt8} {s : Str} (hc : isDigit c)
    (hx : chr 'x' ∉ s ∧ chr 'X' ∉ s) : isOtherNotation (c :: s) = false := by
  obtain ⟨-, -, -, -, hi, hn, -, -⟩ := isDigit_facts c hc
  have hinf (t : Str) : (chr 'i' :: t).isPrefixOf
      ((c :: s).map fun c => UInt8.ofNat (asciiToLower c)) = false := by
    simp [List.isPrefixOf, Ne.symm hi]
  have hnan (t : Str) : (chr 'n' :: t).isPrefixOf
      ((c :: s).map fun c => UInt8.ofNat (asciiToLower c)) = false := by
    simp [List.isPrefixOf, Ne.symm hn]
  have hhex : skipHexPrefix (c :: s) = c :: s := by
    unfold skipHexPrefix
    split
    · rename_i z x d rest heq
      obtain ⟨rfl, rfl⟩ := List.cons.inj heq
      rw [if_neg]
      rintro ⟨-, rfl | rfl, -⟩
      · exact hx.1 List.mem_cons_self
      · exact hx.2 List.mem_cons_self
    · rfl
  have hinf' := hinf (str "nf")
  have hnan' := hnan (str "an")
  rw [isOtherNotation, hhex]
  simp only [ne_eq, not_true_eq_false, decide_false, Bool.or_false]
  exact Bool.or_eq_false_iff.mpr ⟨hinf', hnan'⟩

theorem atof_digit {c : UInt8} {s : Str} (point : UInt8) (hc : isDigit c)
    (hx : chr 'x' ∉ s ∧ chr 'X' ∉ s) :
    atof point (c :: s) = some (double (decimal point (c :: s))) := by
  simp only [atof, sign_digit s hc, isOtherNotation_digit hc hx, Bool.false_eq_true, if_false]

/-- The last dot or comma is found. -/
theorem withPoint_append (point : UInt8) (a : Str) {q : UInt8} {b : Str} (hq : IsPoint q)
    (hb : ∀ c ∈ b, ¬ IsPoint c) : withPoint point (a ++ q :: b) = a ++ point :: b := by
  have hdrop : (a ++ q :: b).rdropWhile (fun c => ¬ IsPoint c) = a ++ [q] := by
    rw [List.rdropWhile, List.reverse_append, List.reverse_cons, List.append_assoc,
      List.dropWhile_append_of_pos (by simpa using hb), List.singleton_append,
      List.dropWhile_cons_of_neg (by simpa using hq), List.reverse_cons, List.reverse_reverse]
  have htake : (a ++ q :: b).rtakeWhile (fun c => ¬ IsPoint c) = b := by
    rw [List.rtakeWhile, List.reverse_append, List.reverse_cons, List.append_assoc,
      List.takeWhile_append_of_pos (by simpa using hb), List.singleton_append,
      List.takeWhile_cons_of_neg (by simpa using hq), List.append_nil, List.reverse_reverse]
  obtain ⟨x, front, hfront⟩ := List.exists_cons_of_ne_nil (List.concat_ne_nil q a)
  rw [withPoint, hdrop, htake, hfront]
  dsimp only
  rw [← hfront, List.dropLast_concat]

theorem withPoint_of_none (point : UInt8) {a : Str} (ha : ∀ c ∈ a, ¬ IsPoint c) :
    withPoint point a = a := by
  have hdrop : a.rdropWhile (fun c => ¬ IsPoint c) = [] := by
    rw [List.rdropWhile_eq_nil_iff]
    simpa using ha
  rw [withPoint, hdrop]

/-- **A whole number is read.** -/
theorem toDouble_natText (point : UInt8) (n : Nat) :
    toDouble point (natText n) = some (double n) := by
  have hdigit : ∀ c ∈ natText n, isDigit c := fun c hc => natText_isDigit hc
  obtain ⟨c, s, hs⟩ := List.exists_cons_of_ne_nil (natText_ne_nil n)
  have hwith : withPoint point (natText n) = natText n :=
    withPoint_of_none point fun c hc => (isDigit_facts c (hdigit c hc)).2.2.2.1
  have hdecimal : decimal point (natText n) = n := by
    have htake : (natText n).takeWhile isDigit = natText n :=
      List.takeWhile_eq_self_iff.mpr hdigit
    have hdrop : (natText n).dropWhile isDigit = [] := List.dropWhile_eq_nil_iff.mpr hdigit
    have hdigits := digits_natText n []
    rw [List.append_nil] at hdigits
    rw [decimal, htake, hdrop]
    simp [hdigits, digits, exponent]
  rw [toDouble, hwith]
  rw [hs] at hdigit hdecimal ⊢
  rw [atof_digit point (hdigit c List.mem_cons_self), hdecimal]
  constructor
  · exact fun h => (isDigit_facts _ (hdigit _ (List.mem_cons_of_mem _ h))).2.2.2.2.2.2.1 rfl
  · exact fun h => (isDigit_facts _ (hdigit _ (List.mem_cons_of_mem _ h))).2.2.2.2.2.2.2 rfl

/-- The number that is written. -/
def fixed2Value (x : ℚ) : ℚ := hundredths x / 100

section Hundredths

variable {point point' : UInt8} {d d' : Nat}

theorem isDigit_of_mem_pair (hd : d < 10) (hd' : d' < 10) {c : UInt8}
    (hc : c ∈ [digitChar d, digitChar d']) : isDigit c ∧ ¬ IsPoint c := by
  simp only [List.mem_cons, List.not_mem_nil, or_false] at hc
  rcases hc with rfl | rfl
  · obtain ⟨hdigit, hpoint⟩ := isDigit_digitChar hd
    exact ⟨by rw [isDigit, hdigit]; rfl, hpoint⟩
  · obtain ⟨hdigit, hpoint⟩ := isDigit_digitChar hd'
    exact ⟨by rw [isDigit, hdigit]; rfl, hpoint⟩

theorem decimal_hundredths (hp : IsPoint point) (w : Nat) (hd : d < 10) (hd' : d' < 10) :
    decimal point (natText w ++ point :: [digitChar d, digitChar d']) =
      ((w * 10 + d) * 10 + d' : Nat) / 100 := by
  have hwhole : ∀ c ∈ natText w, isDigit c := fun c hc => natText_isDigit hc
  have hnot : ¬ isDigit point = true := by rw [not_isDigit_of_isPoint hp]; exact Bool.false_ne_true
  have hpair : ∀ c ∈ [digitChar d, digitChar d'], isDigit c :=
    fun c hc => (isDigit_of_mem_pair hd hd' hc).1
  have hdigits : digits 10 0 (natText w ++ [digitChar d, digitChar d']) =
      (w * 10 + d) * 10 + d' := by
    rw [digits_natText, digits, (isDigit_digitChar hd).1]
    simp only [digits, (isDigit_digitChar hd').1]
  rw [decimal, List.takeWhile_append_of_pos hwhole, List.dropWhile_append_of_pos hwhole,
    List.takeWhile_cons_of_neg hnot, List.dropWhile_cons_of_neg hnot, List.append_nil]
  simp only [List.head?_cons, if_true, List.tail_cons, List.takeWhile_eq_self_iff.mpr hpair,
    List.dropWhile_eq_nil_iff.mpr hpair, hdigits, exponent, List.length_cons, List.length_nil]
  rw [zero_sub, zpow_neg, ← div_eq_mul_inv]
  norm_num

theorem toDouble_hundredths (hp : IsPoint point) (hp' : IsPoint point') (w : Nat) (hd : d < 10)
    (hd' : d' < 10) :
    toDouble point' (natText w ++ point :: [digitChar d, digitChar d']) =
      some (double (((w * 10 + d) * 10 + d' : Nat) / 100)) := by
  have hwith : withPoint point' (natText w ++ point :: [digitChar d, digitChar d']) =
      natText w ++ point' :: [digitChar d, digitChar d'] :=
    withPoint_append point' _ hp fun c hc => (isDigit_of_mem_pair hd hd' hc).2
  have hdecimal := decimal_hundredths hp' w hd hd'
  have hwhole : ∀ c ∈ natText w, isDigit c := fun c hc => natText_isDigit hc
  obtain ⟨c, s, hs⟩ := List.exists_cons_of_ne_nil (natText_ne_nil w)
  rw [toDouble, hwith]
  rw [hs] at hwhole hdecimal ⊢
  rw [List.cons_append] at hdecimal ⊢
  have hletter (x : UInt8) (hx : isDigit x = false) (hpoint : ¬ IsPoint x) :
      x ∉ s ++ point' :: [digitChar d, digitChar d'] := by
    intro hmem
    rcases List.mem_append.mp hmem with h | h
    · exact Bool.eq_false_iff.mp hx (hwhole x (List.mem_cons_of_mem _ h))
    · rcases List.mem_cons.mp h with rfl | h
      · exact hpoint hp'
      · exact Bool.eq_false_iff.mp hx (isDigit_of_mem_pair hd hd' h).1
  rw [atof_digit point' (hwhole c List.mem_cons_self) ⟨hletter _ rfl (by decide),
    hletter _ rfl (by decide)⟩, hdecimal]

/-- **What was written with two decimals is read**, by the point of any locale. -/
theorem toDouble_fixed2 (hp : IsPoint point) (hp' : IsPoint point') {x : ℚ} (hx : 0 ≤ x) :
    toDouble point' (fixed2 point x) = some (double (fixed2Value x)) := by
  obtain ⟨n, hn⟩ : ∃ n, hundredths x = n := ⟨_, rfl⟩
  have hsum : (n / 100 * 10 + n % 100 / 10) * 10 + n % 100 % 10 = n := by omega
  have htext : fixed2 point x = natText (n / 100) ++
      point :: [digitChar (n % 100 / 10), digitChar (n % 100 % 10)] := by
    simp only [fixed2, hn, if_neg (not_lt.mpr hx), List.nil_append]
  rw [htext, toDouble_hundredths hp hp' (n / 100) (by omega) (by omega), hsum, fixed2Value, hn]

end Hundredths

/-- **Two decimals are wrong by no more than half of the second.** -/
theorem abs_fixed2Value_sub_le {x : ℚ} (hx : 0 ≤ x) : |fixed2Value x - x| ≤ 1 / 200 := by
  have hround := Lib.abs_roundEven_sub_le (x * 100)
  have hnonneg : 0 ≤ Lib.roundEven (x * 100) := Lib.roundEven_nonneg (by positivity)
  have hcast : ((hundredths x : Nat) : ℚ) = Lib.roundEven (x * 100) := by
    rw [hundredths, abs_of_nonneg hx]
    exact_mod_cast Int.toNat_of_nonneg hnonneg
  rw [fixed2Value, hcast]
  rw [abs_le] at hround ⊢
  constructor <;> linarith [hround.1, hround.2]

end Util
end Airdcpp
