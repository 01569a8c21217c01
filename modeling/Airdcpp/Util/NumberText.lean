import Airdcpp.Util.Strings

/-!
# `Util/NumberText` — integers as text

`Util::toString` of an integer: a minus where it is negative, and its decimal digits. The digits are
read back by `digits`, so different numbers have different texts.
-/

namespace Airdcpp
namespace Util

/-- The decimal digits. -/
def natText (n : Nat) : Str := (Nat.toDigits 10 n).map fun c => c.toNat.toUInt8

/-- `Util::toString` -/
def toString : Int → Str
  | .ofNat n => natText n
  | .negSucc n => chr '-' :: natText (n + 1)

theorem digit?_of_isDigit {c : Char} (h : c.isDigit) :
    digit? 10 c.toNat.toUInt8 = some (c.toNat - 48) := by
  have hrange : 48 ≤ c.toNat ∧ c.toNat ≤ 57 := by
    simp only [Char.isDigit, Bool.and_eq_true, decide_eq_true_eq, ge_iff_le] at h
    exact ⟨h.1, h.2⟩
  obtain ⟨n, hn⟩ : ∃ n, c.toNat = n := ⟨_, rfl⟩
  rw [hn] at hrange ⊢
  obtain ⟨hlo, hhi⟩ := hrange
  interval_cases n <;> rfl

theorem digits_map {l : List Char} (hl : ∀ c ∈ l, c.isDigit) (acc : Nat) (rest : Str) :
    digits 10 acc (l.map (fun c => c.toNat.toUInt8) ++ rest) =
      digits 10 (Nat.ofDigitChars 10 l acc) rest := by
  induction l generalizing acc with
  | nil => rw [Nat.ofDigitChars_nil]; rfl
  | cons c l ih =>
    have hc := digit?_of_isDigit (hl c List.mem_cons_self)
    have hrest := ih (fun d hd => hl d (List.mem_cons_of_mem _ hd)) (10 * acc + (c.toNat - 48))
    rw [List.map_cons, List.cons_append, digits, hc, Nat.ofDigitChars_cons, Nat.mul_comm acc]
    exact hrest

theorem digits_natText (n : Nat) (rest : Str) :
    digits 10 0 (natText n ++ rest) = digits 10 n rest := by
  rw [natText, digits_map, Nat.ofDigitChars_ten_toDigits]
  intro c hc
  exact Nat.isDigit_of_mem_toDigits (by decide) (by decide) hc

theorem natText_inj {m n : Nat} (h : natText m = natText n) : m = n := by
  have hm := digits_natText m []
  rw [h, digits_natText] at hm
  exact hm.symm

theorem natText_digit {n : Nat} {c : UInt8} (hc : c ∈ natText n) : (digit? 10 c).isSome := by
  obtain ⟨d, hd, rfl⟩ := List.mem_map.mp hc
  simp [digit?_of_isDigit (Nat.isDigit_of_mem_toDigits (by decide) (by decide) hd)]

/-- The digits of a number have no sign in front of them. -/
theorem sign_natText (n : Nat) : sign (natText n) = (false, natText n) := by
  have hspace : ∀ c : UInt8, (digit? 10 c).isSome →
      isSpace c = false ∧ c ≠ chr '-' ∧ c ≠ chr '+' := by decide +kernel
  cases htext : natText n with
  | nil => rfl
  | cons c s =>
    have hc : c ∈ natText n := by simp [htext]
    obtain ⟨hs, hminus, hplus⟩ := hspace c (natText_digit hc)
    simp [sign, hs, hminus, hplus]

/-- **A 64-bit number is read back from its text.** -/
theorem toInt64_toString {i : Int} (hlo : -2 ^ 63 ≤ i) (hhi : i < 2 ^ 63) :
    toInt64 (toString i) = i := by
  have hdigits (n : Nat) : digits 10 0 (natText n) = n := by
    have h := digits_natText n []
    rwa [List.append_nil] at h
  cases i with
  | ofNat n =>
    simp only [toString, toInt64, sign_natText, hdigits, Bool.false_eq_true, if_false]
    simp only [Int.ofNat_eq_natCast] at hhi ⊢
    omega
  | negSucc n =>
    have hsign : sign (chr '-' :: natText (n + 1)) = (true, natText (n + 1)) := rfl
    simp only [toString, toInt64, hsign, hdigits, if_true]
    omega

/-- A 32-bit number is read back from its text. -/
theorem toInt_toString {i : Int} (hlo : -2 ^ 31 ≤ i) (hhi : i < 2 ^ 31) :
    toInt (toString i) = i := by
  have hlong : toInt (toString i) = (toInt64 (toString i)).bmod (2 ^ 32) := rfl
  rw [hlong, toInt64_toString (by omega) (by omega), Int.bmod_eq_of_le (by omega) (by omega)]

end Util
end Airdcpp
