import Airdcpp.Lib.Bits
import Mathlib.Data.List.Basic

/-!
# `Lib/BitTable` — tables of bits that are only set

The table of a Bloom filter is a vector of bits. Adding something sets the bits at some positions
(`assignAll`), and matching looks whether the bits at some positions are all set (`allSet`). Both
are loops that read or write at positions they compute, `none` where one is outside of the table.

The positions depend on the size of the table, which stays.

`foldlM_range` is the rule of a counting loop whose rounds may fail. With it, the bits of a vector
that are packed into bytes, the lowest bit first, are read back in their order (`packBits_spec`).
-/

namespace Airdcpp
namespace Lib

/-! ## Counting loops -/

section Counting

variable {β : Type*} {f : β → Nat → Option β} {P : Nat → β → Prop} {n : Nat} {b : β}

/-- **The invariant of a counting loop.** Each round succeeds and keeps it for the next number. -/
theorem foldlM_range (h0 : P 0 b)
    (hstep : ∀ i < n, ∀ c, P i c → ∃ d, f c i = some d ∧ P (i + 1) d) :
    ∃ c, (List.range n).foldlM f b = some c ∧ P n c := by
  induction n with
  | zero => exact ⟨b, rfl, h0⟩
  | succ n ih =>
    obtain ⟨c, hc, hP⟩ := ih fun i hi => hstep i (Nat.lt_succ_of_lt hi)
    obtain ⟨d, hd, hQ⟩ := hstep n n.lt_succ_self c hP
    refine ⟨d, ?_, hQ⟩
    rw [List.range_succ, List.foldlM_append, hc]
    simpa using hd

end Counting

/-! ## Tables -/

variable {t : List Bool} {p q n : Nat}

/-- The bit at the position is set. -/
def Has (t : List Bool) (p : Nat) : Prop := t[p]? = some true

instance (t : List Bool) (p : Nat) : Decidable (Has t p) :=
  inferInstanceAs (Decidable (t[p]? = some true))

/-- `t[p] = true` -/
def assign (t : List Bool) (p : Nat) : Option (List Bool) :=
  if p < t.length then some (t.set p true) else none

theorem has_set : Has (t.set p true) q ↔ Has t q ∨ q = p ∧ p < t.length := by
  rw [Has, Has, List.getElem?_set]
  by_cases hpq : p = q
  · subst hpq
    by_cases hlt : p < t.length
    · simp [hlt]
    · simp [hlt]
  · simp [hpq, Ne.symm hpq]

theorem assign_of_lt (h : p < t.length) : assign t p = some (t.set p true) := if_pos h

/-! ## Setting the bits at some positions -/

/-- `n` times: `t[pos(i)] = true`. The position is computed from the size of the table. -/
def assignAll (pos : Nat → Nat → Option Nat) (n : Nat) (t : List Bool) : Option (List Bool) :=
  (List.range n).foldlM (fun u i => (pos u.length i).bind (assign u)) t

/-- **The bits at the positions are set**, and no other is. -/
theorem assignAll_spec {pos : Nat → Nat → Option Nat} {at_ : Nat → Nat}
    (hpos : ∀ i < n, pos t.length i = some (at_ i) ∧ at_ i < t.length) :
    ∃ u, assignAll pos n t = some u ∧ u.length = t.length ∧
      ∀ q, Has u q ↔ Has t q ∨ ∃ i < n, q = at_ i := by
  refine foldlM_range (P := fun i u => u.length = t.length ∧ ∀ q, Has u q ↔
    Has t q ∨ ∃ j < i, q = at_ j) ⟨rfl, by simp⟩ ?_
  rintro i hi u ⟨hlen, hhas⟩
  obtain ⟨hat, hlt⟩ := hpos i hi
  rw [← hlen] at hat hlt
  refine ⟨u.set (at_ i) true, ?_, by rw [List.length_set, hlen], fun q => ?_⟩
  · rw [hat, Option.bind_some, assign_of_lt hlt]
  · rw [has_set, hhas, or_assoc, and_iff_left hlt]
    refine or_congr_right ⟨?_, ?_⟩
    · rintro (⟨j, hj, rfl⟩ | rfl)
      · exact ⟨j, Nat.lt_succ_of_lt hj, rfl⟩
      · exact ⟨i, i.lt_succ_self, rfl⟩
    · rintro ⟨j, hj, rfl⟩
      rcases Nat.lt_succ_iff_lt_or_eq.mp hj with hj | rfl
      · exact .inl ⟨j, hj, rfl⟩
      · exact .inr rfl

/-! ## Looking at the bits at some positions -/

/-- Whether the bits are all set. The first one that is not ends the loop. -/
def allSet (pos : Nat → Nat → Option Nat) (t : List Bool) : List Nat → Option Bool
  | [] => some true
  | i :: is =>
    ((pos t.length i).bind fun p => t[p]?).bind fun v => if v then allSet pos t is else some false

/-- **The loop finds all bits set exactly when they are.** -/
theorem allSet_spec {pos : Nat → Nat → Option Nat} {at_ : Nat → Nat} {is : List Nat}
    (hpos : ∀ i ∈ is, pos t.length i = some (at_ i) ∧ at_ i < t.length) :
    ∃ r, allSet pos t is = some r ∧ (r = true ↔ ∀ i ∈ is, Has t (at_ i)) := by
  induction is with
  | nil => exact ⟨true, rfl, by simp⟩
  | cons i is ih =>
    obtain ⟨hat, hlt⟩ := hpos i List.mem_cons_self
    obtain ⟨r, hr, hiff⟩ := ih fun j hj => hpos j (List.mem_cons_of_mem i hj)
    have hread : t[at_ i]? = some t[at_ i] := List.getElem?_eq_getElem hlt
    rw [allSet, hat, Option.bind_some, hread, Option.bind_some, List.forall_mem_cons]
    cases hbit : t[at_ i] with
    | true => exact ⟨r, by simpa using hr, by rw [hiff, Has, hread, hbit]; simp⟩
    | false => exact ⟨false, rfl, by rw [Has, hread, hbit]; simp⟩

/-! ## Bits in bytes -/

/-- The bits of a byte, the lowest first. -/
def lowBits (b : UInt8) : List Bool := (List.range 8).map b.toBitVec.getLsbD

/-- `v[i / 8] |= bit << (i % 8)` -/
def orBit (v : List UInt8) (i : Nat) (bit : Bool) : Option (List UInt8) :=
  v[i / 8]?.map fun byte => v.set (i / 8) (byte ||| (bit.toUInt8 <<< UInt8.ofNat (i % 8)))

/-- Each bit is put in its place. -/
def packBits (bits : List Bool) (v : List UInt8) : Option (List UInt8) :=
  (List.range bits.length).foldlM (fun v i => bits[i]?.bind (orBit v i)) v

/-- The bit at the position, over all bytes. -/
def bitAt (v : List UInt8) (j : Nat) : Bool := (v.getD (j / 8) 0).toBitVec.getLsbD (j % 8)

@[simp] theorem length_lowBits (b : UInt8) : (lowBits b).length = 8 := rfl

@[simp] theorem length_flatMap_lowBits (v : List UInt8) :
    (v.flatMap lowBits).length = 8 * v.length := by
  simp [List.length_flatMap, Nat.mul_comm]

theorem getElem?_flatMap_lowBits {v : List UInt8} {j : Nat} (h : j < 8 * v.length) :
    (v.flatMap lowBits)[j]? = some (bitAt v j) := by
  induction v generalizing j with
  | nil => exact absurd h (by simp)
  | cons b v ih =>
    rw [List.flatMap_cons]
    rcases Nat.lt_or_ge j 8 with hj | hj
    · rw [List.getElem?_append_left (by simpa using hj), bitAt, Nat.div_eq_of_lt hj,
        Nat.mod_eq_of_lt hj, List.getD_cons_zero, lowBits, List.getElem?_map,
        List.getElem?_range hj, Option.map_some]
    · rw [List.length_cons] at h
      rw [List.getElem?_append_right (by simpa using hj), length_lowBits, ih (by omega)]
      have hdiv : j / 8 = (j - 8) / 8 + 1 := by omega
      have hmod : j % 8 = (j - 8) % 8 := by omega
      rw [bitAt, bitAt, hdiv, hmod, List.getD_cons_succ]

/-- A bit that is put in a byte. -/
theorem getLsbD_or_shiftLeft (b : UInt8) (bit : Bool) {i j : Nat} (hi : i < 8) (hj : j < 8) :
    (b ||| (bit.toUInt8 <<< UInt8.ofNat i)).toBitVec.getLsbD j =
      (b.toBitVec.getLsbD j || bit && decide (j = i)) := by
  have hone : ∀ bit : Bool, ∀ i j : Fin 8,
      (bit.toUInt8 <<< UInt8.ofNat i.val).toBitVec.getLsbD j.val =
        (bit && decide (j.val = i.val)) := by decide
  rw [UInt8.toBitVec_or, BitVec.getLsbD_or, hone bit ⟨i, hi⟩ ⟨j, hj⟩]

theorem getElem?_eq_getD {α : Type*} {l : List α} {i : Nat} {d : α} (h : i < l.length) :
    l[i]? = some (l.getD i d) := by
  rw [List.getD_eq_getElem?_getD, List.getElem?_eq_getElem h, Option.getD_some]

/-- **Bits that are packed into null bytes are read back in their order.** -/
theorem packBits_spec {bits : List Bool} {n : Nat} (h : bits.length = 8 * n) :
    ∃ v, packBits bits (List.replicate n 0) = some v ∧ v.flatMap lowBits = bits := by
  -- the bits before the position have their values, and those behind it are null
  have hloop : ∃ v, packBits bits (List.replicate n 0) = some v ∧ v.length = n ∧
      ∀ j < 8 * n, bitAt v j = (decide (j < bits.length) && bits.getD j false) := by
    refine foldlM_range (P := fun i v => v.length = n ∧ ∀ j < 8 * n,
      bitAt v j = (decide (j < i) && bits.getD j false)) ⟨List.length_replicate, ?_⟩ ?_
    · intro j hj
      have hnull : (List.replicate n (0 : UInt8)).getD (j / 8) 0 = 0 := by
        rw [List.getD_eq_getElem?_getD, List.getElem?_replicate]
        split <;> rfl
      rw [bitAt, hnull]
      simp
    · rintro i hi v ⟨hlen, hbits⟩
      have hbyte : i / 8 < v.length := by omega
      have hread : bits[i]? = some (bits.getD i false) := getElem?_eq_getD hi
      have hget : v[i / 8]? = some (v.getD (i / 8) 0) := getElem?_eq_getD hbyte
      refine ⟨_, by rw [hread, Option.bind_some, orBit, hget, Option.map_some],
        by rw [List.length_set, hlen], fun j hj => ?_⟩
      by_cases hdiv : i / 8 = j / 8
      · rw [bitAt, ← hdiv, List.getD_eq_getElem?_getD, List.getElem?_set_self hbyte,
          Option.getD_some, getLsbD_or_shiftLeft _ _ (Nat.mod_lt i (by omega))
          (Nat.mod_lt j (by omega))]
        have hold := hbits j hj
        rw [bitAt, ← hdiv] at hold
        rw [hold]
        by_cases hij : j = i
        · subst hij
          simp
        · have hmod : j % 8 ≠ i % 8 := by omega
          have hlt : j < i + 1 ↔ j < i := by omega
          simp [hmod, hlt]
      · have hij : j < i + 1 ↔ j < i := by omega
        rw [bitAt, List.getD_eq_getElem?_getD, List.getElem?_set_ne hdiv,
          ← List.getD_eq_getElem?_getD, ← bitAt, hbits j hj]
        simp only [hij]
  obtain ⟨v, hv, hlen, hbits⟩ := hloop
  refine ⟨v, hv, List.ext_getElem? fun j => ?_⟩
  rcases Nat.lt_or_ge j (8 * n) with hj | hj
  · rw [getElem?_flatMap_lowBits (by omega), hbits j hj]
    have hlt : j < bits.length := by omega
    simp [hlt]
  · rw [List.getElem?_eq_none (by rw [length_flatMap_lowBits]; omega),
      List.getElem?_eq_none (by omega)]

end Lib
end Airdcpp
