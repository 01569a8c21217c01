import Mathlib.Tactic.IntervalCases

/-!
# `Lib/Bits` — the bits of bytes

`bits` are the eight bits of a byte, the highest first. A list of bytes is known by its bits
(`flatMap_bits_inj`), so that what a code does to bytes can be said bit by bit.
-/

namespace Airdcpp
namespace Lib

/-- The bits of a byte, the highest first. -/
def bits (b : UInt8) : List Bool := (List.range 8).map b.toBitVec.getMsbD

theorem bits_eq (b : UInt8) : bits b =
    [b.toBitVec.getMsbD 0, b.toBitVec.getMsbD 1, b.toBitVec.getMsbD 2, b.toBitVec.getMsbD 3,
      b.toBitVec.getMsbD 4, b.toBitVec.getMsbD 5, b.toBitVec.getMsbD 6, b.toBitVec.getMsbD 7] := rfl

@[simp] theorem length_bits (b : UInt8) : (bits b).length = 8 := rfl

@[simp] theorem bits_zero : bits 0 = List.replicate 8 false := by decide

theorem bits_inj {a b : UInt8} (h : bits a = bits b) : a = b := by
  apply UInt8.toBitVec_inj.mp
  apply BitVec.eq_of_getMsbD_eq
  intro i hi
  simp only [bits_eq, List.cons.injEq] at h
  interval_cases i <;> simp only [h]

@[simp] theorem length_flatMap_bits (x : List UInt8) : (x.flatMap bits).length = 8 * x.length := by
  induction x with
  | nil => rfl
  | cons b x ih =>
    rw [List.flatMap_cons, List.length_append, length_bits, ih, List.length_cons]
    omega

/-- The bits of null bytes. -/
@[simp] theorem flatMap_bits_replicate (n : Nat) :
    (List.replicate n (0 : UInt8)).flatMap bits = List.replicate (8 * n) false := by
  induction n with
  | zero => rfl
  | succ n ih =>
    rw [List.replicate_succ, List.flatMap_cons, ih, bits_zero, List.replicate_append_replicate]
    congr 1
    omega

/-- Bytes with the same bits are the same. -/
theorem flatMap_bits_inj {x y : List UInt8} (h : x.flatMap bits = y.flatMap bits) : x = y := by
  induction x generalizing y with
  | nil =>
    cases y with
    | nil => rfl
    | cons c y => simp [bits_eq] at h
  | cons b x ih =>
    cases y with
    | nil => simp [bits_eq] at h
    | cons c y =>
      rw [List.flatMap_cons, List.flatMap_cons] at h
      obtain ⟨hhead, htail⟩ := List.append_inj h rfl
      rw [bits_inj hhead, ih htail]

end Lib
end Airdcpp
