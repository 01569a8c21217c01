import Airdcpp.Core.Text

/-!
# `Core/Utf8` — which sequences `utf8ToWc` reads

A sequence of `n` bytes has a payload `c`: the low bits of its first byte and six bits of each of
the others (`form`). `utf8ToWc` reads every form whose payload is a scalar value, the overlong ones
too, of which RFC 3629 has none: the payload is never compared with the number of bytes.

`utf8ToWc_eq_iff` says this; `sequences` are the sequences of a string, one after the other, good
and bad.
-/

namespace Airdcpp
namespace Text

/-! ## The first byte -/

/-- How many bytes a sequence has, and the payload of its first one. -/
def lead (b : UInt8) : Option (Nat × Nat) :=
  if b.toNat < 0x80 then some (1, b.toNat)
  else if b.toNat < 0xc0 then none
  else if b.toNat < 0xe0 then some (2, b.toNat - 0xc0)
  else if b.toNat < 0xf0 then some (3, b.toNat - 0xe0)
  else if b.toNat < 0xf8 then some (4, b.toNat - 0xf0)
  else none

/-- What the first byte of a longer sequence is, in the terms of `utf8ToWc`. -/
theorem lead_high (b : UInt8) (h : b.toNat &&& 0xc0 = 0xc0) :
    lead b =
      let bytes := 2 + (if b.toNat &&& 0x20 ≠ 0 then 1 else 0) +
        (if b.toNat &&& 0x30 = 0x30 then 1 else 0)
      if b.toNat &&& 1 <<< (7 - bytes) ≠ 0 then none
      else some (bytes, (1 <<< (7 - bytes) - 1) &&& b.toNat) := by
  revert b
  decide +kernel

theorem lead_low (b : UInt8) (h : ¬ b.toNat &&& 0xc0 = 0xc0) :
    lead b = if b.toNat &&& 0x80 = 0 then some (1, b.toNat) else none := by
  revert b
  decide +kernel

/-- The end of `utf8ToWc`, behind the first byte. -/
def readTail (str : Str) (bytes c : Nat) : Int × Nat :=
  match utf8Tail str bytes (bytes - 1) c with
  | .error (i, c) => (-(i : Int), c)
  | .ok c => if decide (0x10ffff < c) || isSurrogate c then (-(bytes : Int), 0xfffd) else (bytes, c)

theorem utf8ToWcFrom_cons (k : Nat) (b : UInt8) (s : Str) :
    utf8ToWcFrom k (b :: s) =
      match lead b with
      | none => (-1, k)
      | some (bytes, c) => readTail (b :: s) bytes c := by
  rw [utf8ToWcFrom]
  dsimp only
  rw [List.getD_cons_zero]
  by_cases hhigh : b.toNat &&& 0xc0 = 0xc0
  · rw [if_pos hhigh, lead_high b hhigh]
    dsimp only
    generalize 2 + (if b.toNat &&& 0x20 ≠ 0 then 1 else 0) +
      (if b.toNat &&& 0x30 = 0x30 then 1 else 0) = bytes
    by_cases hcheck : b.toNat &&& 1 <<< (7 - bytes) ≠ 0
    · rw [if_pos hcheck, if_pos hcheck]
    · rw [if_neg hcheck, if_neg hcheck]
      rfl
  · rw [if_neg hhigh, lead_low b hhigh]
    by_cases hlow : b.toNat &&& 0x80 = 0
    · rw [if_pos hlow, if_pos hlow]
      have hsmall : b.toNat < 128 := by
        revert b
        decide +kernel
      have hnot : (decide (0x10ffff < b.toNat) || isSurrogate b.toNat) = false := by
        simp only [isSurrogate, Bool.or_eq_false_iff, decide_eq_false_iff_not,
          Bool.and_eq_false_iff]
        omega
      dsimp only
      rw [readTail, utf8Tail]
      simp only [hnot]
      rfl
    · rw [if_neg hlow, if_neg hlow]

/-! ## The other bytes -/

/-- The six bits of a byte that is not the first one. -/
def tailBits (c : UInt8) : Option Nat :=
  if c.toNat &&& 0xc0 = 0x80 then some (c.toNat &&& 0x3f) else none

theorem tailBits_zero : tailBits 0 = none := by decide

theorem tailBits_eq_some {c : UInt8} {a : Nat} (h : tailBits c = some a) :
    a < 64 ∧ c = UInt8.ofNat (a + 0x80) := by
  revert h
  have hall : ∀ c : UInt8, ∀ a ∈ tailBits c, a < 64 ∧ c = UInt8.ofNat (a + 0x80) := by
    decide +kernel
  exact hall c a

theorem utf8Tail_cons (str : Str) (bytes k c : Nat) :
    utf8Tail str bytes (k + 1) c =
      match tailBits (str.getD (bytes - (k + 1)) 0) with
      | none => .error (bytes - (k + 1), c)
      | some a => utf8Tail str bytes k (64 * c + a) := by
  rw [utf8Tail, tailBits]
  by_cases hgood : (str.getD (bytes - (k + 1)) 0).toNat &&& 0xc0 = 0x80
  · have hlt : (str.getD (bytes - (k + 1)) 0).toNat &&& 0x3f < 64 :=
      lt_of_le_of_lt Nat.and_le_right (by decide)
    rw [if_neg (not_not.mpr hgood), if_pos hgood]
    dsimp only
    rw [shift_or hlt]
  · rw [if_pos hgood, if_neg hgood]

/-! ## Forms -/

/-- Not a surrogate, and not too large. -/
def IsScalar (c : Nat) : Prop := (decide (0x10ffff < c) || isSurrogate c) = false

/-- The sequence of `n` bytes with the payload `c`. -/
def form : (n c : Nat) → Str
  | 1, c => [UInt8.ofNat c]
  | 2, c => [UInt8.ofNat (c / 64 + 0xc0), UInt8.ofNat (c % 64 + 0x80)]
  | 3, c => [UInt8.ofNat (c / 4096 + 0xe0), UInt8.ofNat (c / 64 % 64 + 0x80),
      UInt8.ofNat (c % 64 + 0x80)]
  | 4, c => [UInt8.ofNat (c / 262144 + 0xf0), UInt8.ofNat (c / 4096 % 64 + 0x80),
      UInt8.ofNat (c / 64 % 64 + 0x80), UInt8.ofNat (c % 64 + 0x80)]
  | _, _ => []

/-- The payloads that `n` bytes have room for. -/
def room : (n : Nat) → Nat
  | 1 => 0x80
  | 2 => 0x800
  | 3 => 0x10000
  | 4 => 0x200000
  | _ => 0

/-- A number of bytes with a scalar value in them. -/
structure IsSequence (n c : Nat) : Prop where
  fits : c < room n
  scalar : IsScalar c

theorem length_form {n c : Nat} (h : c < room n) : (form n c).length = n := by
  rcases n with _ | _ | _ | _ | _ | n
  · cases h
  · rfl
  · rfl
  · rfl
  · rfl
  · cases h

theorem IsSequence.pos {n c : Nat} (h : IsSequence n c) : 0 < n := by
  rcases n with _ | n
  · cases h.fits
  · exact Nat.succ_pos n

/-- The first bytes of the forms. -/
theorem lead_two {a : Nat} (h : a < 32) : lead (UInt8.ofNat (a + 0xc0)) = some (2, a) :=
  (by decide +kernel : ∀ a < 32, lead (UInt8.ofNat (a + 0xc0)) = some (2, a)) a h

theorem lead_three {a : Nat} (h : a < 16) : lead (UInt8.ofNat (a + 0xe0)) = some (3, a) :=
  (by decide +kernel : ∀ a < 16, lead (UInt8.ofNat (a + 0xe0)) = some (3, a)) a h

theorem lead_four {a : Nat} (h : a < 8) : lead (UInt8.ofNat (a + 0xf0)) = some (4, a) :=
  (by decide +kernel : ∀ a < 8, lead (UInt8.ofNat (a + 0xf0)) = some (4, a)) a h

theorem readTail_of_ok {str : Str} {bytes a c : Nat} (h : utf8Tail str bytes (bytes - 1) a = .ok c)
    (hscalar : IsScalar c) : readTail str bytes a = ((bytes : Int), c) := by
  rw [IsScalar] at hscalar
  rw [readTail, h]
  simp only [hscalar]
  rfl

/-- **A form is read.** -/
theorem utf8ToWcFrom_form (k : Nat) {n c : Nat} (h : IsSequence n c) (rest : Str) :
    utf8ToWcFrom k (form n c ++ rest) = ((n : Int), c) := by
  obtain ⟨hfits, hscalar⟩ := h
  rcases n with _ | _ | _ | _ | _ | n
  · cases hfits
  · have hc : c < 0x80 := hfits
    obtain ⟨hval, -, -⟩ := headOne hc
    rw [form, List.singleton_append, utf8ToWcFrom_ascii k (by rw [hval]; exact hc), hval]
    rfl
  · have hc : c < 0x800 := hfits
    rw [form, List.cons_append, utf8ToWcFrom_cons, lead_two (by omega)]
    refine readTail_of_ok ?_ hscalar
    change utf8Tail _ 2 (0 + 1) _ = _
    rw [utf8Tail_succ (show c % 64 < 64 by omega) rfl, utf8Tail]
    congr 1
    omega
  · have hc : c < 0x10000 := hfits
    rw [form, List.cons_append, utf8ToWcFrom_cons, lead_three (by omega)]
    refine readTail_of_ok ?_ hscalar
    change utf8Tail _ 3 (1 + 1) _ = _
    rw [utf8Tail_succ (show c / 64 % 64 < 64 by omega) rfl,
      utf8Tail_succ (show c % 64 < 64 by omega) rfl, utf8Tail]
    congr 1
    omega
  · have hc : c < 0x200000 := hfits
    rw [form, List.cons_append, utf8ToWcFrom_cons, lead_four (by omega)]
    refine readTail_of_ok ?_ hscalar
    change utf8Tail _ 4 (2 + 1) _ = _
    rw [utf8Tail_succ (show c / 4096 % 64 < 64 by omega) rfl,
      utf8Tail_succ (show c / 64 % 64 < 64 by omega) rfl,
      utf8Tail_succ (show c % 64 < 64 by omega) rfl, utf8Tail]
    congr 1
    omega
  · cases hfits

/-! ## Only forms are read -/

theorem readTail_pos {str : Str} {bytes a c : Nat} {n : Int} (h : readTail str bytes a = (n, c))
    (hn : 0 < n) :
    n = bytes ∧ utf8Tail str bytes (bytes - 1) a = .ok c ∧ IsScalar c := by
  rw [readTail] at h
  cases htail : utf8Tail str bytes (bytes - 1) a with
  | error x =>
    rw [htail] at h
    obtain ⟨i, c'⟩ := x
    obtain ⟨rfl, -⟩ := Prod.mk.inj h
    omega
  | ok c' =>
    rw [htail] at h
    dsimp only at h
    split at h
    · obtain ⟨rfl, -⟩ := Prod.mk.inj h
      omega
    · rename_i hscalar
      obtain ⟨rfl, rfl⟩ := Prod.mk.inj h
      exact ⟨rfl, rfl, eq_false_of_ne_true hscalar⟩

/-- A byte of a sequence that is read. -/
theorem utf8Tail_ok {str : Str} {bytes k c c' : Nat} (h : utf8Tail str bytes (k + 1) c = .ok c') :
    ∃ a < 64, str[bytes - (k + 1)]? = some (UInt8.ofNat (a + 0x80)) ∧
      utf8Tail str bytes k (64 * c + a) = .ok c' := by
  rw [utf8Tail_cons] at h
  cases hbits : tailBits (str.getD (bytes - (k + 1)) 0) with
  | none =>
    rw [hbits] at h
    cases h
  | some a =>
    rw [hbits] at h
    obtain ⟨ha, hbyte⟩ := tailBits_eq_some hbits
    refine ⟨a, ha, ?_, h⟩
    cases hget : str[bytes - (k + 1)]? with
    | some b => rw [← hbyte, List.getD_eq_getElem?_getD, hget]; rfl
    | none =>
      -- there is no byte, and the terminator is no good one
      rw [List.getD_eq_getElem?_getD, hget] at hbits
      exact absurd (hbits.symm.trans tailBits_zero) (Option.some_ne_none a)

theorem lead_eq_some {b : UInt8} {bytes a : Nat} (h : lead b = some (bytes, a)) :
    (bytes = 1 ∧ a < 0x80 ∧ b = UInt8.ofNat a) ∨
    (bytes = 2 ∧ a < 32 ∧ b = UInt8.ofNat (a + 0xc0)) ∨
    (bytes = 3 ∧ a < 16 ∧ b = UInt8.ofNat (a + 0xe0)) ∨
    (bytes = 4 ∧ a < 8 ∧ b = UInt8.ofNat (a + 0xf0)) := by
  have hall : ∀ b : UInt8, ∀ p ∈ lead b,
      (p.1 = 1 ∧ p.2 < 0x80 ∧ b = UInt8.ofNat p.2) ∨
      (p.1 = 2 ∧ p.2 < 32 ∧ b = UInt8.ofNat (p.2 + 0xc0)) ∨
      (p.1 = 3 ∧ p.2 < 16 ∧ b = UInt8.ofNat (p.2 + 0xe0)) ∨
      (p.1 = 4 ∧ p.2 < 8 ∧ b = UInt8.ofNat (p.2 + 0xf0)) := by
    decide +kernel
  exact hall b _ h

/-- **What is read is a form.** -/
theorem form_of_utf8ToWcFrom {k : Nat} {b : UInt8} {s : Str} {n : Int} {c : Nat}
    (h : utf8ToWcFrom k (b :: s) = (n, c)) (hn : 0 < n) :
    ∃ m : Nat, n = m ∧ IsSequence m c ∧ ∃ rest, b :: s = form m c ++ rest := by
  rw [utf8ToWcFrom_cons] at h
  cases hlead : lead b with
  | none =>
    rw [hlead] at h
    obtain ⟨rfl, -⟩ := Prod.mk.inj h
    omega
  | some p =>
    obtain ⟨bytes, a⟩ := p
    rw [hlead] at h
    obtain ⟨rfl, htail, hscalar⟩ := readTail_pos h hn
    refine ⟨bytes, rfl, ?_⟩
    rcases lead_eq_some hlead with ⟨rfl, ha, rfl⟩ | ⟨rfl, ha, rfl⟩ | ⟨rfl, ha, rfl⟩ | ⟨rfl, ha, rfl⟩
    · obtain rfl : a = c := Except.ok.inj htail
      exact ⟨⟨ha, hscalar⟩, s, rfl⟩
    · obtain ⟨a₁, h₁, hget₁, htail⟩ := utf8Tail_ok (k := 0) htail
      obtain rfl : 64 * a + a₁ = c := Except.ok.inj htail
      rcases s with _ | ⟨b₁, s⟩
      · cases hget₁
      · obtain rfl := Option.some.inj hget₁
        refine ⟨⟨show _ < 0x800 by omega, hscalar⟩, s, ?_⟩
        rw [form, show (64 * a + a₁) / 64 = a by omega, show (64 * a + a₁) % 64 = a₁ by omega]
        rfl
    · obtain ⟨a₁, h₁, hget₁, htail⟩ := utf8Tail_ok (k := 1) htail
      obtain ⟨a₂, h₂, hget₂, htail⟩ := utf8Tail_ok (k := 0) htail
      obtain rfl : 64 * (64 * a + a₁) + a₂ = c := Except.ok.inj htail
      rcases s with _ | ⟨b₁, _ | ⟨b₂, s⟩⟩
      · cases hget₁
      · cases hget₂
      · obtain rfl := Option.some.inj hget₁
        obtain rfl := Option.some.inj hget₂
        refine ⟨⟨show _ < 0x10000 by omega, hscalar⟩, s, ?_⟩
        rw [form, show (64 * (64 * a + a₁) + a₂) / 4096 = a by omega,
          show (64 * (64 * a + a₁) + a₂) / 64 % 64 = a₁ by omega,
          show (64 * (64 * a + a₁) + a₂) % 64 = a₂ by omega]
        rfl
    · obtain ⟨a₁, h₁, hget₁, htail⟩ := utf8Tail_ok (k := 2) htail
      obtain ⟨a₂, h₂, hget₂, htail⟩ := utf8Tail_ok (k := 1) htail
      obtain ⟨a₃, h₃, hget₃, htail⟩ := utf8Tail_ok (k := 0) htail
      obtain rfl : 64 * (64 * (64 * a + a₁) + a₂) + a₃ = c := Except.ok.inj htail
      rcases s with _ | ⟨b₁, _ | ⟨b₂, _ | ⟨b₃, s⟩⟩⟩
      · cases hget₁
      · cases hget₂
      · cases hget₃
      · obtain rfl := Option.some.inj hget₁
        obtain rfl := Option.some.inj hget₂
        obtain rfl := Option.some.inj hget₃
        refine ⟨⟨show _ < 0x200000 by omega, hscalar⟩, s, ?_⟩
        rw [form, show (64 * (64 * (64 * a + a₁) + a₂) + a₃) / 262144 = a by omega,
          show (64 * (64 * (64 * a + a₁) + a₂) + a₃) / 4096 % 64 = a₁ by omega,
          show (64 * (64 * (64 * a + a₁) + a₂) + a₃) / 64 % 64 = a₂ by omega,
          show (64 * (64 * (64 * a + a₁) + a₂) + a₃) % 64 = a₃ by omega]
        rfl

theorem form_of_utf8ToWc {b : UInt8} {s : Str} (hn : 0 < (utf8ToWc (b :: s)).1) :
    ∃ m : Nat, (utf8ToWc (b :: s)).1 = m ∧ IsSequence m (utf8ToWc (b :: s)).2 ∧
      ∃ rest, b :: s = form m (utf8ToWc (b :: s)).2 ++ rest :=
  form_of_utf8ToWcFrom (k := 0) (n := (utf8ToWc (b :: s)).1) (c := (utf8ToWc (b :: s)).2) rfl hn

/-! ## How far a sequence goes -/

/-- Where `utf8Tail` stops. -/
def tailEnd (bytes : Nat) : Except (Nat × Nat) Nat → Nat
  | .error (i, _) => i
  | .ok _ => bytes

/-- The bytes it has gone over are there, and none of them is the terminator. -/
theorem utf8Tail_advance {str : Str} {bytes k c : Nat} (hk : k < bytes) :
    bytes - k ≤ tailEnd bytes (utf8Tail str bytes k c) ∧
      ∀ j, bytes - k ≤ j → j < tailEnd bytes (utf8Tail str bytes k c) →
        ∃ x, str[j]? = some x ∧ x ≠ 0 := by
  induction k generalizing c with
  | zero => exact ⟨le_rfl, fun j hj hlt => absurd hlt (Nat.not_lt.mpr hj)⟩
  | succ k ih =>
    rw [utf8Tail_cons]
    cases hbits : tailBits (str.getD (bytes - (k + 1)) 0) with
    | none => exact ⟨le_rfl, fun j hj hlt => absurd hlt (Nat.not_lt.mpr hj)⟩
    | some a =>
      obtain ⟨hle, hbytes⟩ := ih (c := 64 * c + a) (by omega)
      refine ⟨by dsimp only; omega, fun j hj hlt => ?_⟩
      rcases Nat.eq_or_lt_of_le hj with rfl | hj
      · have hne : str.getD (bytes - (k + 1)) 0 ≠ 0 := by
          intro hzero
          rw [hzero] at hbits
          exact absurd (hbits.symm.trans tailBits_zero) (Option.some_ne_none a)
        cases hget : str[bytes - (k + 1)]? with
        | none =>
          rw [List.getD_eq_getElem?_getD, hget] at hne
          exact absurd rfl hne
        | some x =>
          rw [List.getD_eq_getElem?_getD, hget] at hne
          exact ⟨x, rfl, hne⟩
      · exact hbytes j (by omega) hlt

theorem natAbs_readTail (str : Str) (bytes c : Nat) :
    (readTail str bytes c).1.natAbs = tailEnd bytes (utf8Tail str bytes (bytes - 1) c) := by
  rw [readTail]
  cases utf8Tail str bytes (bytes - 1) c with
  | error x =>
    obtain ⟨i, c'⟩ := x
    exact Int.natAbs_neg _
  | ok c' =>
    dsimp only
    split
    · exact Int.natAbs_neg _
    · rfl

/-- **A sequence ends in front of the terminator**: behind its first byte it has no null byte. -/
theorem utf8ToWcFrom_advance (k : Nat) (b : UInt8) (s : Str) :
    1 ≤ (utf8ToWcFrom k (b :: s)).1.natAbs ∧
      ∀ j, 1 ≤ j → j < (utf8ToWcFrom k (b :: s)).1.natAbs → ∃ x, (b :: s)[j]? = some x ∧ x ≠ 0 := by
  rw [utf8ToWcFrom_cons]
  cases hlead : lead b with
  | none => exact ⟨le_rfl, fun j hj hlt => absurd hlt (Nat.not_lt.mpr hj)⟩
  | some p =>
    obtain ⟨bytes, a⟩ := p
    have hpos : 1 ≤ bytes := by
      rcases lead_eq_some hlead with ⟨rfl, -⟩ | ⟨rfl, -⟩ | ⟨rfl, -⟩ | ⟨rfl, -⟩ <;> decide
    dsimp only
    rw [natAbs_readTail]
    have hadvance := @utf8Tail_advance (b :: s) bytes (bytes - 1) a (by omega)
    rwa [Nat.sub_sub_self hpos] at hadvance

theorem utf8ToWcFrom_length (k : Nat) (b : UInt8) (s : Str) :
    1 ≤ (utf8ToWcFrom k (b :: s)).1.natAbs ∧
      (utf8ToWcFrom k (b :: s)).1.natAbs ≤ (b :: s).length := by
  obtain ⟨hpos, hbytes⟩ := utf8ToWcFrom_advance k b s
  refine ⟨hpos, ?_⟩
  by_contra hlong
  rw [List.length_cons] at hlong
  obtain ⟨x, hx, -⟩ := hbytes (s.length + 1) (by omega) (by omega)
  rw [List.getElem?_eq_none (by simp)] at hx
  cases hx

theorem utf8ToWc_length (b : UInt8) (s : Str) :
    1 ≤ (utf8ToWc (b :: s)).1.natAbs ∧ (utf8ToWc (b :: s)).1.natAbs ≤ (b :: s).length :=
  utf8ToWcFrom_length 0 b s

/-- Going through a string, one sequence after the other. -/
theorem sequence_induction {P : Str → Prop} (nil : P [])
    (cons : ∀ b s, P ((b :: s).drop (utf8ToWc (b :: s)).1.natAbs) → P (b :: s))
    (s : Str) : P s := by
  induction hlength : s.length using Nat.strong_induction_on generalizing s with
  | _ n ih =>
    rcases s with _ | ⟨b, s⟩
    · exact nil
    · have hpos := (utf8ToWc_length b s).1
      refine cons b s (ih _ ?_ _ rfl)
      rw [← hlength, List.length_drop, List.length_cons]
      omega

/-! ## The sequences of a string -/

/-- What `utf8ToWc` gives for one sequence after the other; `skip` bytes belong to the one
    before. -/
def sequencesFrom : (skip : Nat) → Str → List (Int × Nat)
  | _, [] => []
  | k + 1, _ :: s => sequencesFrom k s
  | 0, b :: s => utf8ToWc (b :: s) :: sequencesFrom ((utf8ToWc (b :: s)).1.natAbs - 1) s

def sequences (s : Str) : List (Int × Nat) := sequencesFrom 0 s

theorem sequencesFrom_eq (k : Nat) (s : Str) : sequencesFrom k s = sequences (s.drop k) := by
  induction k generalizing s with
  | zero => rfl
  | succ k ih =>
    cases s with
    | nil => rfl
    | cons b s => exact ih s

theorem sequences_cons (b : UInt8) (s : Str) :
    sequences (b :: s) =
      utf8ToWc (b :: s) :: sequences ((b :: s).drop (utf8ToWc (b :: s)).1.natAbs) := by
  have hpos : 1 ≤ (utf8ToWc (b :: s)).1.natAbs := (utf8ToWc_length b s).1
  obtain ⟨n, hn⟩ : ∃ n, (utf8ToWc (b :: s)).1.natAbs = n + 1 := Nat.exists_eq_add_of_le' hpos
  rw [sequences, sequencesFrom, sequencesFrom_eq, hn]
  rfl

theorem validateFrom_eq (k : Nat) (s : Str) : validateFrom k s = validateUtf8 (s.drop k) := by
  induction k generalizing s with
  | zero => rfl
  | succ k ih =>
    cases s with
    | nil => rfl
    | cons b s => exact ih s

/-- A string is valid when all its sequences are good. -/
theorem validateUtf8_iff (s : Str) : validateUtf8 s = true ↔ ∀ w ∈ sequences s, 0 < w.1 := by
  induction s using sequence_induction with
  | nil => exact iff_of_true rfl fun w hw => absurd hw (List.not_mem_nil)
  | cons b s ih =>
    have hpos : 1 ≤ (utf8ToWc (b :: s)).1.natAbs := (utf8ToWc_length b s).1
    rw [sequences_cons, List.forall_mem_cons, ← ih, validateUtf8, validateFrom]
    by_cases hbad : (utf8ToWc (b :: s)).1 < 0
    · rw [if_pos hbad]
      exact iff_of_false Bool.false_ne_true fun h => absurd h.1 (by omega)
    · obtain ⟨n, hn⟩ : ∃ n : Nat, (utf8ToWc (b :: s)).1 = n + 1 :=
        ⟨(utf8ToWc (b :: s)).1.natAbs - 1, by omega⟩
      have hdrop : (utf8ToWc (b :: s)).1.natAbs = n + 1 := by omega
      rw [if_neg hbad, validateFrom_eq, hdrop, hn, and_iff_right (by omega)]
      rfl

/-- Forms are read one after the other. -/
theorem sequences_form {n c : Nat} (h : IsSequence n c) (rest : Str) :
    sequences (form n c ++ rest) = ((n : Int), c) :: sequences rest := by
  have hread := utf8ToWcFrom_form 0 h rest
  have hlength := length_form h.fits
  rcases hform : form n c with _ | ⟨b, t⟩
  · rw [hform] at hlength
    exact absurd h.pos (by simp [← hlength])
  · rw [hform] at hread hlength
    rw [List.cons_append] at hread ⊢
    rw [sequences_cons, utf8ToWc, hread, Int.natAbs_natCast, ← List.cons_append,
      List.drop_left' hlength]

end Text
end Airdcpp
