import Mathlib

/-!
# `Lib/Rounding` — rational numbers rounded to binary floating point

`nearest p x` is the number of `p` significant bits that is nearest to `x`, and of two such numbers
the one whose last bit is even. There is no bound of the exponent: nothing overflows, and nothing
is too small.

Rounding is monotone (`nearest_mono`), it does not change a number that has `p` bits already
(`nearest_eq_self`), and it is wrong by no more than one part of `2 ^ p` (`abs_nearest_sub_le`).
-/

namespace Airdcpp
namespace Lib

/-! ## To the next integer -/

/-- The nearest integer, and of two of them the even one. -/
def roundEven (x : ℚ) : ℤ :=
  let f := ⌊x⌋
  if x - f < 1 / 2 then f
  else if 1 / 2 < x - f then f + 1
  else if f % 2 = 0 then f
  else f + 1

/-- It is one of the two neighbours. -/
theorem roundEven_cases (x : ℚ) :
    roundEven x = ⌊x⌋ ∧ x - ⌊x⌋ ≤ 1 / 2 ∨ roundEven x = ⌊x⌋ + 1 ∧ 1 / 2 ≤ x - ⌊x⌋ := by
  simp only [roundEven]
  split_ifs with hlow hhigh heven
  · exact .inl ⟨rfl, hlow.le⟩
  · exact .inr ⟨rfl, hhigh.le⟩
  · exact .inl ⟨rfl, not_lt.mp hhigh⟩
  · exact .inr ⟨rfl, not_lt.mp hlow⟩

theorem abs_roundEven_sub_le (x : ℚ) : |(roundEven x : ℚ) - x| ≤ 1 / 2 := by
  have hlow := Int.floor_le x
  have hhigh := Int.lt_floor_add_one x
  rcases roundEven_cases x with ⟨h, hx⟩ | ⟨h, hx⟩
  · rw [h, abs_le]
    constructor <;> linarith
  · rw [h, abs_le]
    push_cast
    constructor <;> linarith

theorem roundEven_intCast (n : ℤ) : roundEven (n : ℚ) = n := by
  simp only [roundEven, Int.floor_intCast, sub_self]
  norm_num

theorem roundEven_mono : Monotone roundEven := by
  intro x y hxy
  have hfloor : ⌊x⌋ ≤ ⌊y⌋ := Int.floor_mono hxy
  rcases hfloor.lt_or_eq with hlt | heq
  · -- between the two there is the integer `⌊y⌋`
    have hx : roundEven x ≤ ⌊x⌋ + 1 := by
      rcases roundEven_cases x with ⟨h, -⟩ | ⟨h, -⟩ <;> omega
    have hy : ⌊y⌋ ≤ roundEven y := by
      rcases roundEven_cases y with ⟨h, -⟩ | ⟨h, -⟩ <;> omega
    omega
  · have hsub : x - ⌊x⌋ ≤ y - ⌊y⌋ := by
      rw [heq]
      linarith
    simp only [roundEven]
    rw [← heq] at hsub ⊢
    split_ifs <;> first | omega | (exfalso; linarith)

theorem roundEven_nonneg {x : ℚ} (hx : 0 ≤ x) : 0 ≤ roundEven x := by
  have h := roundEven_mono hx
  rwa [← Int.cast_zero, roundEven_intCast] at h

theorem roundEven_neg (x : ℚ) : roundEven (-x) = -roundEven x := by
  by_cases hint : (⌊x⌋ : ℚ) = x
  · rw [← hint, roundEven_intCast, ← Int.cast_neg, roundEven_intCast]
  · have hlow : (⌊x⌋ : ℚ) < x := lt_of_le_of_ne (Int.floor_le x) hint
    have hhigh := Int.lt_floor_add_one x
    have hfloor : ⌊-x⌋ = -⌊x⌋ - 1 := by
      rw [Int.floor_eq_iff]
      push_cast
      constructor <;> linarith
    simp only [roundEven, hfloor]
    push_cast
    split_ifs <;> first | omega | (exfalso; linarith)

/-! ## To `p` bits -/

/-- The distance of the numbers of `p` bits around `x`. -/
def ulp (p : ℕ) (x : ℚ) : ℚ := 2 ^ (Int.log 2 |x| + 1 - p)

/-- `x`, rounded to `p` bits. -/
def nearest (p : ℕ) (x : ℚ) : ℚ := roundEven (x / ulp p x) * ulp p x

variable {p : ℕ} {x y : ℚ}

theorem ulp_pos (p : ℕ) (x : ℚ) : 0 < ulp p x := zpow_pos (by norm_num) _

@[simp] theorem ulp_neg (p : ℕ) (x : ℚ) : ulp p (-x) = ulp p x := by rw [ulp, ulp, abs_neg]

theorem ulp_le (hx : x ≠ 0) : ulp p x ≤ |x| * 2 ^ (1 - p : ℤ) := by
  have hlog : (2 : ℚ) ^ Int.log 2 |x| ≤ |x| :=
    Int.zpow_log_le_self (by norm_num) (abs_pos.mpr hx)
  rw [ulp, add_sub_assoc, zpow_add₀ (by norm_num)]
  exact mul_le_mul_of_nonneg_right hlog (by positivity)

/-- **The error is at most one part of `2 ^ p`.** -/
theorem abs_nearest_sub_le (p : ℕ) (x : ℚ) : |nearest p x - x| ≤ |x| * 2 ^ (-p : ℤ) := by
  by_cases hx : x = 0
  · subst hx
    have hzero : roundEven 0 = 0 := roundEven_intCast 0
    simp [nearest, hzero]
  · have hulp := ulp_pos p x
    have hround := abs_roundEven_sub_le (x / ulp p x)
    calc |nearest p x - x| = |(roundEven (x / ulp p x) : ℚ) - x / ulp p x| * ulp p x := by
          rw [← abs_of_pos hulp, ← abs_mul, abs_of_pos hulp, sub_mul,
            div_mul_cancel₀ x hulp.ne', nearest]
      _ ≤ 1 / 2 * ulp p x := mul_le_mul_of_nonneg_right hround hulp.le
      _ ≤ 1 / 2 * (|x| * 2 ^ (1 - p : ℤ)) := by linarith [@ulp_le p x hx]
      _ = |x| * 2 ^ (-p : ℤ) := by
          rw [sub_eq_add_neg, zpow_add₀ (by norm_num), zpow_one]
          ring

theorem nearest_neg (p : ℕ) (x : ℚ) : nearest p (-x) = -nearest p x := by
  rw [nearest, ulp_neg, neg_div, roundEven_neg, nearest]
  push_cast
  ring

theorem nearest_zero (p : ℕ) : nearest p 0 = 0 := by
  have hzero : roundEven 0 = 0 := roundEven_intCast 0
  simp [nearest, hzero]

/-- Integers that are multiples of the distance stay as they are. -/
theorem nearest_of_multiple {n : ℤ} (h : x = n * ulp p x) : nearest p x = x := by
  have hdiv : x / ulp p x = n := by
    rw [div_eq_iff (ulp_pos p x).ne']
    exact h
  rw [nearest, hdiv, roundEven_intCast, ← h]

/-- A power of two that is not below the distance is a multiple of it. -/
theorem ulp_eq_of_le {k : ℤ} (hx : 0 < x) (hk : Int.log 2 x + 1 - p ≤ k) :
    ∃ n : ℕ, (2 : ℚ) ^ k = (2 ^ n : ℕ) * ulp p x := by
  obtain ⟨n, hn⟩ := Int.eq_ofNat_of_zero_le (sub_nonneg.mpr hk)
  refine ⟨n, ?_⟩
  have hsum : k = n + (Int.log 2 x + 1 - p) := by omega
  rw [ulp, abs_of_pos hx, hsum, zpow_add₀ (by norm_num), zpow_natCast]
  push_cast
  rfl

/-- **A number of `p` bits is not rounded.** -/
theorem nearest_eq_self {m : ℕ} {e : ℤ} (hm : m < 2 ^ p) (hx : x = m * 2 ^ e) :
    nearest p x = x := by
  rcases Nat.eq_zero_or_pos m with rfl | hpos
  · rw [hx, Nat.cast_zero, zero_mul, nearest_zero]
  · have hxpos : 0 < x := by
      rw [hx]
      positivity
    have hlog : Int.log 2 x < p + e := by
      rw [← Int.lt_zpow_iff_log_lt (by norm_num) hxpos, hx, zpow_add₀ (by norm_num)]
      refine mul_lt_mul_of_pos_right ?_ (by positivity)
      exact_mod_cast hm
    obtain ⟨n, hn⟩ := @ulp_eq_of_le p x e hxpos (by omega)
    refine @nearest_of_multiple p x (m * (2 ^ n : ℕ)) ?_
    calc x = m * 2 ^ e := hx
      _ = ((m * (2 ^ n : ℕ) : ℤ) : ℚ) * ulp p x := by
        rw [hn]
        push_cast
        ring

theorem nearest_two_pow_mul {e : ℤ} : nearest (p + 1) ((2 : ℚ) ^ e) = 2 ^ e :=
  @nearest_eq_self (p + 1) _ 1 e (Nat.one_lt_two_pow (by omega)) (by simp)

theorem nearest_nonneg (hx : 0 ≤ x) : 0 ≤ nearest p x := by
  have hulp := ulp_pos p x
  have hround : (0 : ℚ) ≤ roundEven (x / ulp p x) := by
    exact_mod_cast roundEven_nonneg (div_nonneg hx hulp.le)
  exact mul_nonneg hround hulp.le

/-- Within the numbers of one length, rounding is that of the integers. -/
theorem nearest_le_of_ulp_eq (hxy : x ≤ y) (h : ulp p x = ulp p y) :
    nearest p x ≤ nearest p y := by
  have hulp := ulp_pos p y
  rw [nearest, nearest, h]
  refine mul_le_mul_of_nonneg_right ?_ hulp.le
  exact_mod_cast roundEven_mono (div_le_div_of_nonneg_right hxy hulp.le)

/-- Rounding does not pass a power of two. -/
theorem nearest_mono_pos (hp : 0 < p) (hx : 0 < x) (hxy : x ≤ y) :
    nearest p x ≤ nearest p y := by
  have hy : 0 < y := hx.trans_le hxy
  have hlog : Int.log 2 x ≤ Int.log 2 y := Int.log_mono_right hx hxy
  rcases hlog.lt_or_eq with hlt | heq
  · -- the power of two between them is reached from below, and not left from above
    obtain ⟨p, rfl⟩ : ∃ k, p = k + 1 := Nat.exists_eq_succ_of_ne_zero hp.ne'
    have hxlt : x ≤ 2 ^ (Int.log 2 x + 1) := (Int.lt_zpow_succ_log_self (by norm_num) x).le
    have hyle : (2 : ℚ) ^ (Int.log 2 y) ≤ y := Int.zpow_log_le_self (by norm_num) hy
    have hpow : (2 : ℚ) ^ (Int.log 2 x + 1) ≤ 2 ^ (Int.log 2 y) :=
      zpow_le_zpow_right₀ (by norm_num) (by omega)
    have hlow : nearest (p + 1) x ≤ 2 ^ (Int.log 2 x + 1) := by
      obtain ⟨n, hn⟩ := @ulp_eq_of_le (p + 1) x (Int.log 2 x + 1) hx (by omega)
      have hulp := ulp_pos (p + 1) x
      have hdiv : x / ulp (p + 1) x ≤ ((2 ^ n : ℕ) : ℤ) := by
        rw [div_le_iff₀ hulp]
        push_cast at hn ⊢
        rw [← hn]
        exact hxlt
      have hround := roundEven_mono hdiv
      rw [roundEven_intCast] at hround
      rw [nearest, hn]
      exact mul_le_mul_of_nonneg_right (by exact_mod_cast hround) hulp.le
    have hhigh : (2 : ℚ) ^ (Int.log 2 y) ≤ nearest (p + 1) y := by
      obtain ⟨n, hn⟩ := @ulp_eq_of_le (p + 1) y (Int.log 2 y) hy (by push_cast; omega)
      have hulp := ulp_pos (p + 1) y
      have hdiv : (((2 ^ n : ℕ) : ℤ) : ℚ) ≤ y / ulp (p + 1) y := by
        rw [le_div_iff₀ hulp]
        push_cast at hn ⊢
        rw [← hn]
        exact hyle
      have hround := roundEven_mono hdiv
      rw [roundEven_intCast] at hround
      rw [nearest, hn]
      exact mul_le_mul_of_nonneg_right (by exact_mod_cast hround) hulp.le
    exact hlow.trans (hpow.trans hhigh)
  · exact nearest_le_of_ulp_eq hxy (by rw [ulp, ulp, abs_of_pos hx, abs_of_pos hy, heq])

/-- **Rounding is monotone.** -/
theorem nearest_mono (hp : 0 < p) : Monotone (nearest p) := by
  intro x y hxy
  rcases lt_trichotomy x 0 with hx | rfl | hx
  · rcases lt_or_ge y 0 with hy | hy
    · have h := nearest_mono_pos hp (neg_pos.mpr hy) (neg_le_neg hxy)
      rw [nearest_neg, nearest_neg] at h
      exact neg_le_neg_iff.mp h
    · have h : 0 ≤ nearest p (-x) := nearest_nonneg (neg_nonneg.mpr hx.le)
      rw [nearest_neg] at h
      exact (neg_nonneg.mp h).trans (nearest_nonneg hy)
  · rw [nearest_zero]
    exact nearest_nonneg hxy
  · exact nearest_mono_pos hp hx hxy

end Lib
end Airdcpp
