import Mathlib

/-!
# `Lib/Bytes` — numbers in memory

What `memcpy` of an integer makes of it on a machine that keeps the lowest byte first: `write` are
the `w` lowest bytes of a number, `read` is the number of some bytes. Signed numbers are kept modulo
`256 ^ w` and read back into the middle of that range (`readInt_writeInt`).

`Concat` is the same for a list of values of one width: they are stored one after the other, and the
`i`-th begins at `i * w` (`slice_flatMap`).
-/

namespace Airdcpp
namespace Bytes

/-- The `w` lowest bytes of `n`. -/
def write : (w n : Nat) → List UInt8
  | 0, _ => []
  | w + 1, n => UInt8.ofNat n :: write w (n / 256)

/-- The number of some bytes. -/
def read : List UInt8 → Nat
  | [] => 0
  | b :: s => b.toNat + 256 * read s

@[simp] theorem length_write (w n : Nat) : (write w n).length = w := by
  induction w generalizing n with
  | zero => rfl
  | succ w ih => rw [write, List.length_cons, ih]

theorem read_write (w n : Nat) : read (write w n) = n % 256 ^ w := by
  induction w generalizing n with
  | zero => rw [write, read, pow_zero, Nat.mod_one]
  | succ w ih =>
    rw [write, read, ih, UInt8.toNat_ofNat']
    change n % 256 + 256 * (n / 256 % 256 ^ w) = n % 256 ^ (w + 1)
    rw [pow_succ', Nat.mod_mul]

theorem read_lt (s : List UInt8) : read s < 256 ^ s.length := by
  induction s with
  | nil => exact Nat.one_pos
  | cons b s ih =>
    have hb := b.toNat_lt
    rw [read, List.length_cons, pow_succ]
    omega

/-- Eight bytes as an `int64_t`. -/
def readInt (s : List UInt8) : Int := (read s : Int).bmod (2 ^ 64)

def writeInt (n : Int) : List UInt8 := write 8 (n % 2 ^ 64).toNat

theorem read_writeInt (n : Int) : (read (writeInt n) : Int) = n % 2 ^ 64 := by
  have hmod : 0 ≤ n % 2 ^ 64 := Int.emod_nonneg n (by norm_num)
  have hlt : n % 2 ^ 64 < 2 ^ 64 := Int.emod_lt_of_pos n (by norm_num)
  rw [writeInt, read_write, Nat.mod_eq_of_lt (by omega), Int.toNat_of_nonneg hmod]

theorem length_writeInt (n : Int) : (writeInt n).length = 8 := length_write 8 _

theorem readInt_writeInt {n : Int} (h : -2 ^ 63 ≤ n) (h' : n < 2 ^ 63) :
    readInt (writeInt n) = n := by
  unfold readInt
  rw [read_writeInt, Int.bmod_def]
  have hdiv := Int.emod_add_mul_ediv n (2 ^ 64)
  have hmod : 0 ≤ n % 2 ^ 64 := Int.emod_nonneg n (by norm_num)
  have hlt : n % 2 ^ 64 < 2 ^ 64 := Int.emod_lt_of_pos n (by norm_num)
  split <;> omega

/-! ## Values of one width -/

/-- The `i`-th value of width `w`. -/
def slice (w : Nat) (s : List UInt8) (i : Nat) : List UInt8 := (s.drop (i * w)).take w

theorem slice_flatMap {α : Type*} {f : α → List UInt8} {w : Nat} {xs : List α}
    (hf : ∀ x, (f x).length = w) {i : Nat} (hi : i < xs.length) :
    slice w (xs.flatMap f) i = f xs[i] := by
  induction xs generalizing i with
  | nil => cases hi
  | cons x xs ih =>
    rw [List.flatMap_cons, slice]
    cases i with
    | zero => rw [Nat.zero_mul, List.drop_zero, List.take_left' (hf x)]; rfl
    | succ i =>
      have hdrop : (f x ++ xs.flatMap f).drop ((i + 1) * w) = (xs.flatMap f).drop (i * w) := by
        rw [Nat.succ_mul, Nat.add_comm, ← List.drop_drop, List.drop_left' (hf x)]
      rw [hdrop]
      exact ih (Nat.lt_of_succ_lt_succ hi)

theorem length_flatMap {α : Type*} {f : α → List UInt8} {w : Nat} {xs : List α}
    (hf : ∀ x, (f x).length = w) : (xs.flatMap f).length = xs.length * w := by
  induction xs with
  | nil => rw [List.flatMap_nil, List.length_nil, List.length_nil, Nat.zero_mul]
  | cons x xs ih =>
    rw [List.flatMap_cons, List.length_append, hf, ih, List.length_cons, Nat.succ_mul, Nat.add_comm]

end Bytes
end Airdcpp
