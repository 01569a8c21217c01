import Airdcpp.Core.Types

/-!
# `Core/Text` — UTF-8

What the XML reader needs of `Text`. A pointer into a string is the part of the string behind it;
behind the end there is the null byte that ends a C string, so `str[i]` is `str.getD i 0`. The
code points are `wchar_t`s of 32 bits, which no sequence of four bytes overflows.

`towlower` and `iconv` belong to the C library: `Locale` stands for them.
-/

namespace Airdcpp

/-- What the C library decides. -/
structure Locale where
  towlower : Nat → Nat
  /-- `convert(str, fromCharset, utf8)` -/
  convert : (str fromCharset : Str) → Str

namespace Text

def utf8 : Str := str "utf-8"

def isSurrogate (c : Nat) : Bool := decide (0xd800 ≤ c) && decide (c ≤ 0xdfff)

/-- The loop over the bytes `bytes - k, …` of a sequence: the code point, or how many bytes are
    good and what they make up. -/
def utf8Tail (str : Str) (bytes : Nat) : (k c : Nat) → Except (Nat × Nat) Nat
  | 0, c => .ok c
  | k + 1, c =>
    let ci := (str.getD (bytes - (k + 1)) 0).toNat
    if ci &&& 0xc0 ≠ 0x80 then .error (bytes - (k + 1), c)
    else utf8Tail str bytes k (c <<< 6 ||| (ci &&& 0x3f))

/-- `utf8ToWc(str, c)`: the number of bytes at the beginning of `str` that make up a code point, or,
    negative, the number of bytes that make up none; and `c` as it is left. -/
def utf8ToWcFrom (c : Nat) (str : Str) : Int × Nat :=
  let c0 := (str.getD 0 0).toNat
  let bytes := 2 + (if c0 &&& 0x20 ≠ 0 then 1 else 0) + (if c0 &&& 0x30 = 0x30 then 1 else 0)
  if c0 &&& 0xc0 = 0xc0 then
    -- number of bytes of leading 1's; check for 0 next
    let check_bit := 1 <<< (7 - bytes)
    if c0 &&& check_bit ≠ 0 then (-1, c)
    else
      match utf8Tail str bytes (bytes - 1) ((check_bit - 1) &&& c0) with
      | .error (i, c) => (-(i : Int), c)
      | .ok c =>
        if decide (0x10ffff < c) || isSurrogate c then (-(bytes : Int), 0xfffd) else (bytes, c)
  else if c0 &&& 0x80 = 0 then (1, c0)
  else (-1, c)

/-- `utf8ToWc` as most of its callers use it, with `c` zero before. -/
def utf8ToWc (str : Str) : Int × Nat := utf8ToWcFrom 0 str

def wcToUtf8 (c : Nat) : Str :=
  let c := if decide (0x10ffff < c) || isSurrogate c then 0xfffd else c
  if 0x10000 ≤ c then
    [(0xf0 ||| c >>> 18).toUInt8, (0x80 ||| (c >>> 12 &&& 0x3f)).toUInt8,
      (0x80 ||| (c >>> 6 &&& 0x3f)).toUInt8, (0x80 ||| (c &&& 0x3f)).toUInt8]
  else if 0x0800 ≤ c then
    [(0xe0 ||| c >>> 12).toUInt8, (0x80 ||| (c >>> 6 &&& 0x3f)).toUInt8,
      (0x80 ||| (c &&& 0x3f)).toUInt8]
  else if 0x0080 ≤ c then [(0xc0 ||| c >>> 6).toUInt8, (0x80 ||| (c &&& 0x3f)).toUInt8]
  else [c.toUInt8]

/-- The loops over a string: `skip` bytes of it belong to the sequence before. -/
def validateFrom : (skip : Nat) → Str → Bool
  | _, [] => true
  | k + 1, _ :: str => validateFrom k str
  | 0, c :: str =>
    let j := (utf8ToWc (c :: str)).1
    if j < 0 then false else validateFrom (j.toNat - 1) str

def validateUtf8 (str : Str) : Bool := validateFrom 0 str

/-- The loop of `sanitizeUtf8`, `i` bytes into the string. The underscores for a bad sequence are
    inserted at `i`; `none` is the `out_of_range` of an insertion behind the end of `tgt`, which
    ends the program. -/
def sanitizeFrom : (skip i : Nat) → (tgt : Str) → Str → Option Str
  | _, _, tgt, [] => some tgt
  | k + 1, i, tgt, _ :: str => sanitizeFrom k (i + 1) tgt str
  | 0, i, tgt, c :: str =>
    let (x, wc) := utf8ToWc (c :: str)
    if x < 0 then
      if i ≤ tgt.length then
        sanitizeFrom (x.natAbs - 1) (i + 1)
          (tgt.take i ++ List.replicate x.natAbs (chr '_') ++ tgt.drop i) str
      else none
    else sanitizeFrom (x.natAbs - 1) (i + 1) (tgt ++ wcToUtf8 wc) str

def sanitizeUtf8 (str : Str) : Option Str := sanitizeFrom 0 0 [] str

/-- The loop of `toLower`. -/
def toLowerFrom (locale : Locale) : (skip : Nat) → Str → Str
  | _, [] => []
  | k + 1, _ :: str => toLowerFrom locale k str
  | 0, c :: str =>
    let (n, wc) := utf8ToWc (c :: str)
    (if n < 0 then [chr '_'] else wcToUtf8 (locale.towlower wc)) ++
      toLowerFrom locale (n.natAbs - 1) str

def toLower (locale : Locale) (str : Str) : Str := toLowerFrom locale 0 str

def toUtf8 (locale : Locale) (str fromCharset : Str) : Str :=
  if str.isEmpty then str
  else if fromCharset.isEmpty then str  -- the system encoding is taken for UTF-8
  else locale.convert str fromCharset

/-! ## UTF-8 is valid -/

/-- A string of characters, encoded. -/
def IsUtf8 (s : Str) : Prop := ∃ cs : List Char, s = cs.flatMap String.utf8EncodeChar

theorem tailByte {a : Nat} (h : a < 64) :
    (UInt8.ofNat (a + 0x80)).toNat &&& 0xc0 = 0x80 ∧ (UInt8.ofNat (a + 0x80)).toNat &&& 0x3f = a :=
  (by decide : ∀ a < 64, (UInt8.ofNat (a + 0x80)).toNat &&& 0xc0 = 0x80 ∧
    (UInt8.ofNat (a + 0x80)).toNat &&& 0x3f = a) a h

theorem shift_or {a b : Nat} (h : b < 64) : a <<< 6 ||| b = 64 * a + b := by
  rw [← Nat.shiftLeft_add_eq_or_of_lt (show b < 2 ^ 6 from h), Nat.shiftLeft_eq, Nat.mul_comm]

/-- A good byte of a sequence. -/
theorem utf8Tail_succ {str : Str} {bytes k c a : Nat} (ha : a < 64)
    (hbyte : str.getD (bytes - (k + 1)) 0 = UInt8.ofNat (a + 0x80)) :
    utf8Tail str bytes (k + 1) c = utf8Tail str bytes k (64 * c + a) := by
  obtain ⟨hhigh, hlow⟩ := tailByte ha
  rw [utf8Tail]
  simp only [hbyte, hhigh, hlow, shift_or ha]
  rfl

theorem notSurrogate (c : Char) : isSurrogate c.val.toNat = false := by
  have hvalid := c.valid
  simp only [UInt32.isValidChar, Nat.isValidChar] at hvalid
  simp only [isSurrogate, Bool.and_eq_false_iff, decide_eq_false_iff_not]
  omega

theorem char_le (c : Char) : c.val.toNat ≤ 0x10ffff := by
  have hvalid := c.valid
  simp only [UInt32.isValidChar, Nat.isValidChar] at hvalid
  omega

/-- What the head of a sequence of `bytes` bytes with the payload `a` says. -/
theorem utf8ToWcFrom_of_head {k : Nat} {b : UInt8} {str : Str} {bytes a : Nat} {c : Char}
    (hhigh : b.toNat &&& 0xc0 = 0xc0)
    (hbytes : 2 + (if b.toNat &&& 0x20 ≠ 0 then 1 else 0) +
      (if b.toNat &&& 0x30 = 0x30 then 1 else 0) = bytes)
    (hcheck : b.toNat &&& (1 <<< (7 - bytes)) = 0) (ha : (1 <<< (7 - bytes) - 1) &&& b.toNat = a)
    (htail : utf8Tail (b :: str) bytes (bytes - 1) a = .ok c.val.toNat) :
    utf8ToWcFrom k (b :: str) = ((bytes : Int), c.val.toNat) := by
  have hle : decide (0x10ffff < c.val.toNat) = false := by
    have := char_le c
    simpa using this
  unfold utf8ToWcFrom
  simp only [List.getD_cons_zero, hbytes, hhigh, hcheck, ha, htail, hle, notSurrogate]
  rfl

theorem headOne {a : Nat} (h : a < 128) : (UInt8.ofNat a).toNat = a ∧ a &&& 0xc0 ≠ 0xc0 ∧
    a &&& 0x80 = 0 :=
  (by decide : ∀ a < 128, (UInt8.ofNat a).toNat = a ∧ a &&& 0xc0 ≠ 0xc0 ∧ a &&& 0x80 = 0) a h

theorem headTwo {a : Nat} (h : a < 32) : (UInt8.ofNat (a + 0xc0)).toNat &&& 0xc0 = 0xc0 ∧
    (UInt8.ofNat (a + 0xc0)).toNat &&& 0x20 = 0 ∧
    (UInt8.ofNat (a + 0xc0)).toNat &&& 0x30 ≠ 0x30 ∧ 31 &&& (UInt8.ofNat (a + 0xc0)).toNat = a :=
  (by decide : ∀ a < 32, (UInt8.ofNat (a + 0xc0)).toNat &&& 0xc0 = 0xc0 ∧
    (UInt8.ofNat (a + 0xc0)).toNat &&& 0x20 = 0 ∧
    (UInt8.ofNat (a + 0xc0)).toNat &&& 0x30 ≠ 0x30 ∧
    31 &&& (UInt8.ofNat (a + 0xc0)).toNat = a) a h

theorem headThree {a : Nat} (h : a < 16) : (UInt8.ofNat (a + 0xe0)).toNat &&& 0xc0 = 0xc0 ∧
    (UInt8.ofNat (a + 0xe0)).toNat &&& 0x20 ≠ 0 ∧
    (UInt8.ofNat (a + 0xe0)).toNat &&& 0x30 ≠ 0x30 ∧
    (UInt8.ofNat (a + 0xe0)).toNat &&& 16 = 0 ∧ 15 &&& (UInt8.ofNat (a + 0xe0)).toNat = a :=
  (by decide : ∀ a < 16, (UInt8.ofNat (a + 0xe0)).toNat &&& 0xc0 = 0xc0 ∧
    (UInt8.ofNat (a + 0xe0)).toNat &&& 0x20 ≠ 0 ∧
    (UInt8.ofNat (a + 0xe0)).toNat &&& 0x30 ≠ 0x30 ∧
    (UInt8.ofNat (a + 0xe0)).toNat &&& 16 = 0 ∧ 15 &&& (UInt8.ofNat (a + 0xe0)).toNat = a) a h

theorem headFour {a : Nat} (h : a < 8) : (UInt8.ofNat (a + 0xf0)).toNat &&& 0xc0 = 0xc0 ∧
    (UInt8.ofNat (a + 0xf0)).toNat &&& 0x20 ≠ 0 ∧
    (UInt8.ofNat (a + 0xf0)).toNat &&& 0x30 = 0x30 ∧
    (UInt8.ofNat (a + 0xf0)).toNat &&& 8 = 0 ∧ 7 &&& (UInt8.ofNat (a + 0xf0)).toNat = a :=
  (by decide : ∀ a < 8, (UInt8.ofNat (a + 0xf0)).toNat &&& 0xc0 = 0xc0 ∧
    (UInt8.ofNat (a + 0xf0)).toNat &&& 0x20 ≠ 0 ∧
    (UInt8.ofNat (a + 0xf0)).toNat &&& 0x30 = 0x30 ∧
    (UInt8.ofNat (a + 0xf0)).toNat &&& 8 = 0 ∧ 7 &&& (UInt8.ofNat (a + 0xf0)).toNat = a) a h

/-- A byte of ASCII is a character. -/
theorem utf8ToWcFrom_ascii (k : Nat) {c : UInt8} (h : c.toNat < 128) (s : Str) :
    utf8ToWcFrom k (c :: s) = (1, c.toNat) := by
  obtain ⟨-, hhigh, hlow⟩ := headOne h
  rw [utf8ToWcFrom]
  simp [hhigh, hlow]

theorem utf8ToWc_ascii {c : UInt8} (h : c.toNat < 128) (s : Str) :
    utf8ToWc (c :: s) = (1, c.toNat) := utf8ToWcFrom_ascii 0 h s

/-- The decoder reads what the encoder of a character writes. -/
theorem utf8ToWcFrom_encode (k : Nat) (c : Char) (rest : Str) :
    utf8ToWcFrom k (String.utf8EncodeChar c ++ rest) =
      (((String.utf8EncodeChar c).length : Int), c.val.toNat) := by
  have hmax := char_le c
  unfold String.utf8EncodeChar
  dsimp only
  split
  · next h =>
    obtain ⟨hval, hhigh, hlow⟩ := headOne (show c.val.toNat < 128 by omega)
    unfold utf8ToWcFrom
    simp only [List.cons_append, List.getD_cons_zero, hval]
    rw [if_neg hhigh, if_pos hlow]
    rfl
  split
  · obtain ⟨h1, h2, h3, h4⟩ := headTwo (show c.val.toNat / 64 % 0x20 < 32 by omega)
    refine utf8ToWcFrom_of_head h1 (by rw [if_neg (not_not_intro h2), if_neg h3]; rfl) h2 h4 ?_
    change utf8Tail _ 2 (0 + 1) _ = _
    rw [utf8Tail_succ (show c.val.toNat % 0x40 < 64 by omega) rfl, utf8Tail]
    congr 1
    omega
  split
  · obtain ⟨h1, h2, h3, h4, h5⟩ := headThree (show c.val.toNat / 4096 % 0x10 < 16 by omega)
    refine utf8ToWcFrom_of_head h1 (by rw [if_pos h2, if_neg h3]; rfl) h4 h5 ?_
    change utf8Tail _ 3 (1 + 1) _ = _
    rw [utf8Tail_succ (show c.val.toNat / 64 % 0x40 < 64 by omega) rfl,
      utf8Tail_succ (show c.val.toNat % 0x40 < 64 by omega) rfl, utf8Tail]
    congr 1
    omega
  · obtain ⟨h1, h2, h3, h4, h5⟩ := headFour (show c.val.toNat / 262144 % 0x08 < 8 by omega)
    refine utf8ToWcFrom_of_head h1 (by rw [if_pos h2, if_pos h3]; rfl) h4 h5 ?_
    change utf8Tail _ 4 (2 + 1) _ = _
    rw [utf8Tail_succ (show c.val.toNat / 4096 % 0x40 < 64 by omega) rfl,
      utf8Tail_succ (show c.val.toNat / 64 % 0x40 < 64 by omega) rfl,
      utf8Tail_succ (show c.val.toNat % 0x40 < 64 by omega) rfl, utf8Tail]
    congr 1
    omega

theorem utf8ToWc_encode (c : Char) (rest : Str) :
    utf8ToWc (String.utf8EncodeChar c ++ rest) =
      (((String.utf8EncodeChar c).length : Int), c.val.toNat) := utf8ToWcFrom_encode 0 c rest

theorem validateFrom_append {k : Nat} {s : Str} (hk : s.length = k) (rest : Str) :
    validateFrom k (s ++ rest) = validateFrom 0 rest := by
  induction s generalizing k with
  | nil => rw [← hk]; rfl
  | cons c s ih =>
    obtain ⟨k, rfl⟩ : ∃ j, k = j + 1 := ⟨s.length, hk.symm⟩
    rw [List.cons_append, validateFrom, ih (Nat.succ.inj hk)]

/-- **Every encoded string is valid.** -/
theorem validateUtf8_of_isUtf8 {s : Str} (h : IsUtf8 s) : validateUtf8 s = true := by
  obtain ⟨cs, rfl⟩ := h
  induction cs with
  | nil => rfl
  | cons c cs ih =>
    have hread := utf8ToWc_encode c (cs.flatMap String.utf8EncodeChar)
    have hne : String.utf8EncodeChar c ≠ [] := String.utf8EncodeChar_ne_nil
    rw [List.flatMap_cons]
    generalize String.utf8EncodeChar c = s at hread hne
    cases s with
    | nil => exact absurd rfl hne
    | cons b s =>
      rw [List.cons_append] at hread ⊢
      rw [validateUtf8, validateFrom, hread]
      simp only [List.length_cons, Int.natCast_add, Int.cast_ofNat_Int, Int.toNat_natCast_add_one]
      rw [if_neg (by omega), Nat.add_sub_cancel, validateFrom_append rfl]
      exact ih

end Text
end Airdcpp
