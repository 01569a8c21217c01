import Airdcpp.Util.CodePoints

/-!
# `Util/DualString` — a name in lower case and as it is

A `DualString` stores a string in lower case, and for each byte of it a bit that says whether a
character begins there that is another one in the original. The bits are in an array of 32-bit words
that is made when the first such character is found, for as many bits as the original has bytes.

The lower case may be longer. Then the bits of the last characters may be behind the end of the
array, where `init` writes and `getNormal` reads (`none`). And `init` ends at the first null byte,
so that what is behind one stays in lower case. `lossless_iff` says which strings come back.
-/

namespace Airdcpp

open Text

structure DualString where
  /-- `none` is the null pointer. -/
  charSizes : Option (List UInt32) := none
  str : Str
deriving DecidableEq, Repr

namespace DualString

def ARRAY_BITS : Nat := 32

/-- Where the loops are in the array. -/
structure Cursor where
  arrayPos : Nat := 0
  bitPos : Nat := 0
deriving DecidableEq, Repr

namespace Cursor

/-- `bitPos += n`, and on to the next word. -/
def advance (p : Cursor) (n : Nat) : Cursor :=
  if ARRAY_BITS ≤ p.bitPos + n then ⟨p.arrayPos + 1, p.bitPos + n - ARRAY_BITS⟩
  else ⟨p.arrayPos, p.bitPos + n⟩

/-- `1 << bitPos` -/
def bit (p : Cursor) : UInt32 := 1 <<< UInt32.ofNat p.bitPos

end Cursor

def initSizeArray (strLen : Nat) : List UInt32 :=
  List.replicate (if strLen % ARRAY_BITS =
    0 then strLen / ARRAY_BITS else strLen / ARRAY_BITS + 1) 0

/-- `charSizes[arrayPos] |= (1 << bitPos)` -/
def setBit (charSizes : List UInt32) (p : Cursor) : Option (List UInt32) :=
  charSizes[p.arrayPos]?.map fun word => charSizes.set p.arrayPos (word ||| p.bit)

/-- A character that is another one in the original of `size` bytes. -/
def mark (size : Nat) (charSizes : Option (List UInt32)) (p : Cursor) :
    Option (Option (List UInt32)) :=
  (setBit (charSizes.getD (initSizeArray size)) p).map some

/-- The loop of `init`; `skip` bytes belong to the character before. -/
def initFrom (size : Nat) : (skip : Nat) → (iLower iNormal : Str) → Cursor →
    Option (List UInt32) → Option (Option (List UInt32))
  | _, [], _, _, charSizes => some charSizes
  | k + 1, _ :: iLower, iNormal, p, charSizes => initFrom size k iLower iNormal p charSizes
  | 0, b :: iLower, iNormal, p, charSizes =>
    if b = 0 then some charSizes
    else
      let normal := utf8ToWc iNormal
      let lower := utf8ToWc (b :: iLower)
      (if normal.2 ≠ lower.2 then mark size charSizes p else some charSizes).bind
        (initFrom size (lower.1.natAbs - 1) iLower (iNormal.drop normal.1.natAbs)
          (p.advance lower.1.natAbs))

/-- The constructor. -/
def new (locale : Locale) (aStr : Str) : Option DualString :=
  (initFrom aStr.length 0 (toLower locale aStr) aStr {} none).map fun charSizes =>
    { charSizes := charSizes, str := toLower locale aStr }

def getLower (d : DualString) : Str := d.str

/-- The loop of `getNormal`. -/
def normalFrom (towupper : Nat → Nat) (charSizes : List UInt32) :
    (skip : Nat) → (iLower : Str) → Cursor → Option Str
  | _, [], _ => some []
  | k + 1, _ :: iLower, p => normalFrom towupper charSizes k iLower p
  | 0, b :: iLower, p =>
    charSizes[p.arrayPos]?.bind fun word =>
      if word &&& p.bit ≠ 0 then
        let lower := utf8ToWc (b :: iLower)
        (normalFrom towupper charSizes (lower.1.natAbs - 1) iLower
          (p.advance lower.1.natAbs)).map (wcToUtf8 (towupper lower.2) ++ ·)
      else (normalFrom towupper charSizes 0 iLower (p.advance 1)).map (b :: ·)

def getNormal (d : DualString) (towupper : Nat → Nat) : Option Str :=
  d.charSizes.elim (some d.str) fun charSizes => normalFrom towupper charSizes 0 d.str {}

def lowerCaseOnly (d : DualString) : Bool := d.charSizes.isNone

/-! ## The array -/

variable {locale : Locale} {towupper : Nat → Nat} {mask : List UInt32} {o n q A : Nat}
  {c : Nat} {cs : List Nat} {s u : Str}

/-- The cursor for the byte at `o`. -/
def cursorAt (o : Nat) : Cursor := ⟨o / 32, o % 32⟩

/-- The bit for the byte at `o`. -/
def bitOf (mask : List UInt32) (o : Nat) : Bool := (mask.getD (o / 32) 0).toBitVec.getLsbD (o % 32)

theorem advance_cursorAt (h : n ≤ 32) : (cursorAt o).advance n = cursorAt (o + n) := by
  rw [cursorAt, cursorAt, Cursor.advance, ARRAY_BITS]
  dsimp only
  split <;> rw [Cursor.mk.injEq] <;> omega

theorem getLsbD_bit {i j : Nat} (hi : i < 32) (hj : j < 32) :
    ((1 : UInt32) <<< UInt32.ofNat i).toBitVec.getLsbD j = decide (j = i) := by
  have hall : ∀ i j : Fin 32, ((1 : UInt32) <<< UInt32.ofNat i.val).toBitVec.getLsbD j.val =
      decide (j.val = i.val) := by decide +kernel
  exact hall ⟨i, hi⟩ ⟨j, hj⟩

theorem and_bit_ne_zero {word : UInt32} {i : Nat} (hi : i < 32) :
    word &&& (1 <<< UInt32.ofNat i) ≠ 0 ↔ word.toBitVec.getLsbD i = true := by
  constructor
  · intro hne
    by_contra hbit
    refine hne (UInt32.toBitVec_inj.mp (BitVec.eq_of_getLsbD_eq fun j hj => ?_))
    rw [UInt32.toBitVec_and, BitVec.getLsbD_and, getLsbD_bit hi hj]
    by_cases hji : j = i
    · subst hji
      simp [hbit]
    · simp [hji]
  · intro hbit hzero
    have hread := congrArg (fun w : UInt32 => w.toBitVec.getLsbD i) hzero
    simp only [UInt32.toBitVec_and, BitVec.getLsbD_and, getLsbD_bit hi hi, hbit] at hread
    simp at hread

theorem read_cursorAt (h : o < 32 * mask.length) :
    mask[(cursorAt o).arrayPos]? = some (mask.getD (o / 32) 0) ∧
      (mask.getD (o / 32) 0 &&& (cursorAt o).bit ≠ 0 ↔ bitOf mask o = true) := by
  have hlt : o / 32 < mask.length := by omega
  constructor
  · rw [cursorAt, List.getD_eq_getElem?_getD, List.getElem?_eq_getElem hlt, Option.getD_some]
  · exact and_bit_ne_zero (Nat.mod_lt o (by decide))

theorem read_cursorAt_none (h : 32 * mask.length ≤ o) : mask[(cursorAt o).arrayPos]? = none := by
  rw [List.getElem?_eq_none_iff]
  show mask.length ≤ o / 32
  omega

theorem setBit_cursorAt (h : o < 32 * mask.length) :
    ∃ mask', setBit mask (cursorAt o) = some mask' ∧ mask'.length = mask.length ∧
      ∀ q, bitOf mask' q = true ↔ bitOf mask q = true ∨ q = o := by
  have hlt : o / 32 < mask.length := by omega
  refine ⟨_, by rw [setBit, (read_cursorAt h).1, Option.map_some], List.length_set, fun q => ?_⟩
  rw [bitOf, bitOf, List.getD_eq_getElem?_getD]
  by_cases hword : o / 32 = q / 32
  · have hmod : q % 32 = o % 32 ↔ q = o := by omega
    rw [show (cursorAt o).arrayPos = q / 32 from hword, List.getElem?_set_self (by omega),
      Option.getD_some, UInt32.toBitVec_or, BitVec.getLsbD_or, cursorAt, Cursor.bit,
      getLsbD_bit (Nat.mod_lt o (by decide)) (Nat.mod_lt q (by decide)), hword, Bool.or_eq_true,
      decide_eq_true_iff, hmod]
  · have hne : q ≠ o := fun h => hword (by rw [h])
    rw [show (cursorAt o).arrayPos = o / 32 from rfl, List.getElem?_set_ne hword,
      ← List.getD_eq_getElem?_getD, or_iff_left hne]

theorem setBit_cursorAt_none (h : 32 * mask.length ≤ o) : setBit mask (cursorAt o) = none := by
  rw [setBit, read_cursorAt_none h, Option.map_none]

/-- The words of the array. -/
def words (strLen : Nat) : Nat := (initSizeArray strLen).length

theorem bitOf_initSizeArray (strLen q : Nat) : bitOf (initSizeArray strLen) q = false := by
  have hzero : (initSizeArray strLen).getD (q / 32) 0 = 0 := by
    rw [initSizeArray, List.getD_eq_getElem?_getD, List.getElem?_replicate]
    split_ifs <;> rfl
  rw [bitOf, hzero]
  simp

/-! ## What `init` marks -/

/-- The bytes where a character begins that is another one in the original, up to a null character;
    the first one is the byte at `o`. -/
def marks (locale : Locale) : (o : Nat) → List Nat → List Nat
  | _, [] => []
  | o, c :: cs =>
    if lowerPoint locale c = 0 then []
    else (if lowerPoint locale c ≠ c then [o] else []) ++
      marks locale (o + size (lowerPoint locale c)) cs

/-- One after the other is marked. -/
def markAll (strLen : Nat) (charSizes : Option (List UInt32)) (offsets : List Nat) :
    Option (Option (List UInt32)) :=
  offsets.foldlM (fun charSizes o => mark strLen charSizes (cursorAt o)) charSizes

theorem initFrom_skip {k strLen : Nat} {p : Cursor} {charSizes : Option (List UInt32)} {t : Str} :
    initFrom strLen k s t p charSizes = initFrom strLen 0 (s.drop k) t p charSizes := by
  induction k generalizing s with
  | zero => rfl
  | succ k ih =>
    cases s with
    | nil => rfl
    | cons b s => exact ih

theorem initFrom_points {strLen : Nat} {charSizes : Option (List UInt32)} (hcs : Scalars cs) :
    initFrom strLen 0 (points (cs.map (lowerPoint locale))) (points cs) (cursorAt o) charSizes =
      markAll strLen charSizes (marks locale o cs) := by
  induction cs generalizing o charSizes with
  | nil => rfl
  | cons c cs ih =>
    obtain ⟨hc, hcs⟩ := List.forall_mem_cons.mp hcs
    have hlower := isScalar_lowerPoint locale c
    obtain ⟨b, t, hw, hlen, hzero⟩ := wcToUtf8_head hlower
    have hread := utf8ToWc_wcToUtf8 hlower (points (cs.map (lowerPoint locale)))
    rw [List.map_cons, points_cons, points_cons, marks]
    rw [hw, List.cons_append] at hread ⊢
    rw [initFrom]
    by_cases hnull : lowerPoint locale c = 0
    · rw [if_pos (hzero.mpr hnull), if_pos hnull]
      rfl
    · rw [if_neg (fun h => hnull (hzero.mp h)), if_neg hnull]
      dsimp only
      rw [hread, utf8ToWc_wcToUtf8 hc, markAll, List.foldlM_append]
      have hrest : ∀ charSizes, initFrom strLen (((size (lowerPoint locale c) : Int)).natAbs - 1)
          (t ++ points (cs.map (lowerPoint locale)))
          ((wcToUtf8 c ++ points cs).drop ((size c : Int)).natAbs)
          ((cursorAt o).advance ((size (lowerPoint locale c) : Int)).natAbs) charSizes =
          markAll strLen charSizes (marks locale (o + size (lowerPoint locale c)) cs) := by
        intro charSizes
        have hsize := size_le_four (lowerPoint locale c)
        rw [initFrom_skip, Int.natAbs_natCast, Int.natAbs_natCast, ← hlen, Nat.add_sub_cancel,
          List.drop_left, hlen, advance_cursorAt (by omega), ← length_wcToUtf8_of_isScalar hc,
          List.drop_left]
        exact ih hcs
      by_cases hsame : lowerPoint locale c = c
      · rw [if_neg (not_not_intro hsame.symm), if_neg (not_not_intro hsame), Option.bind_some,
          hrest]
        rfl
      · rw [if_pos (Ne.symm hsame), if_pos hsame, List.foldlM_cons]
        cases mark strLen charSizes (cursorAt o) with
        | none => rfl
        | some charSizes => exact hrest charSizes

/-- An array with the marks in it. -/
def Marked (strLen : Nat) (offsets : List Nat) (mask : List UInt32) : Prop :=
  mask.length = words strLen ∧ ∀ q, bitOf mask q = true ↔ q ∈ offsets

theorem markAll_concat {strLen : Nat} {offsets : List Nat} :
    markAll strLen none (offsets ++ [o]) =
      (markAll strLen none offsets).bind fun charSizes => mark strLen charSizes (cursorAt o) := by
  rw [markAll, List.foldlM_append, ← markAll]
  refine congrArg (Option.bind _) (funext fun charSizes => ?_)
  show (mark strLen charSizes (cursorAt o)).bind _ = _
  cases mark strLen charSizes (cursorAt o) <;> rfl

/-- One more mark is in the array exactly when there is room. -/
theorem mark_eq_some {strLen : Nat} {offsets : List Nat} {charSizes : Option (List UInt32)}
    (h : Marked strLen offsets (charSizes.getD (initSizeArray strLen))) :
    (o < 32 * words strLen ∧ ∃ mask, mark strLen charSizes (cursorAt o) = some (some mask) ∧
      Marked strLen (offsets ++ [o]) mask) ∨
    32 * words strLen ≤ o ∧ mark strLen charSizes (cursorAt o) = none := by
  obtain ⟨hlen, hbits⟩ := h
  rcases Nat.lt_or_ge o (32 * words strLen) with hlt | hge
  · obtain ⟨mask, hmask, hmasklen, hmaskbits⟩ := setBit_cursorAt (hlen ▸ hlt)
    refine .inl ⟨hlt, mask, by rw [mark, hmask, Option.map_some], hmasklen.trans hlen, fun q => ?_⟩
    rw [hmaskbits, hbits, List.mem_append, List.mem_singleton]
  · exact .inr ⟨hge, by rw [mark, setBit_cursorAt_none (hlen ▸ hge), Option.map_none]⟩

/-- **The marks are in the array exactly when it has room for all of them.** -/
theorem markAll_spec {strLen : Nat} {offsets : List Nat} :
    ((∀ q ∈ offsets, q < 32 * words strLen) ∧ ∃ charSizes,
      markAll strLen none offsets = some charSizes ∧ charSizes.isSome = !offsets.isEmpty ∧
      Marked strLen offsets (charSizes.getD (initSizeArray strLen))) ∨
    markAll strLen none offsets = none ∧ ∃ q ∈ offsets, 32 * words strLen ≤ q := by
  induction offsets using List.reverseRecOn with
  | nil => exact .inl ⟨by simp, none, rfl, rfl, rfl, by simp [bitOf_initSizeArray]⟩
  | append_singleton offsets o ih =>
    rw [markAll_concat]
    rcases ih with ⟨hfits, charSizes, hall, -, hmarked⟩ | ⟨hall, q, hq, hge⟩
    · rw [hall, Option.bind_some]
      rcases @mark_eq_some o _ _ _ hmarked with ⟨hlt, mask, hmask, hmarked⟩ | ⟨hge, hnone⟩
      · refine .inl ⟨fun q hq => ?_, some mask, hmask, by simp, hmarked⟩
        rcases List.mem_append.mp hq with hq | hq
        · exact hfits q hq
        · rwa [List.mem_singleton.mp hq]
      · exact .inr ⟨hnone, o, by simp, hge⟩
    · exact .inr ⟨by rw [hall, Option.bind_none], q, List.mem_append_left _ hq, hge⟩

/-! ## What `getNormal` reads -/

theorem normalFrom_skip {k : Nat} {p : Cursor} :
    normalFrom towupper mask k s p = normalFrom towupper mask 0 (s.drop k) p := by
  induction k generalizing s with
  | zero => rfl
  | succ k ih =>
    cases s with
    | nil => rfl
    | cons b s => exact ih

/-- Bytes without a mark are taken as they are. -/
theorem normalFrom_unmarked (hbits : ∀ q, o ≤ q → q < o + u.length → bitOf mask q = false) :
    normalFrom towupper mask 0 (u ++ s) (cursorAt o) =
      if u = [] ∨ o + u.length ≤ 32 * mask.length then
        (normalFrom towupper mask 0 s (cursorAt (o + u.length))).map (u ++ ·)
      else none := by
  induction u generalizing o with
  | nil =>
    rw [if_pos (.inl rfl), List.length_nil, List.nil_append, Nat.add_zero]
    cases normalFrom towupper mask 0 s (cursorAt o) <;> rfl
  | cons b u ih =>
    rw [List.length_cons] at hbits ⊢
    rw [List.cons_append, normalFrom]
    simp only [List.cons_ne_nil, false_or]
    rcases Nat.lt_or_ge o (32 * mask.length) with hlt | hge
    · obtain ⟨hread, hbit⟩ := read_cursorAt hlt
      have hclear : ¬ (mask.getD (o / 32) 0 &&& (cursorAt o).bit ≠ 0) := by
        rw [hbit, hbits o le_rfl (by omega)]
        exact Bool.false_ne_true
      rw [hread, Option.bind_some, if_neg hclear, advance_cursorAt (by decide),
        ih fun q hq hlt => hbits q (by omega) (by omega)]
      have hsum : o + 1 + u.length = o + (u.length + 1) := by omega
      have hlast : (u = [] ∨ o + (u.length + 1) ≤ 32 * mask.length) ↔
          o + (u.length + 1) ≤ 32 * mask.length := by
        refine or_iff_right_of_imp ?_
        rintro rfl
        exact hlt
      simp only [hsum, hlast]
      split
      · rw [Option.map_map]
        rfl
      · rfl
    · rw [read_cursorAt_none hge, Option.bind_none, if_neg (by omega)]

/-- A character with a mark. -/
theorem normalFrom_marked (hc : IsScalar c) (hbit : bitOf mask o = true)
    (hlt : o < 32 * mask.length) :
    normalFrom towupper mask 0 (wcToUtf8 c ++ s) (cursorAt o) =
      (normalFrom towupper mask 0 s (cursorAt (o + size c))).map
        (wcToUtf8 (towupper c) ++ ·) := by
  obtain ⟨b, t, hw, hlen⟩ := wcToUtf8_cons hc
  have hread := utf8ToWc_wcToUtf8 hc s
  have hsize := size_le_four c
  obtain ⟨hword, hiff⟩ := read_cursorAt hlt
  rw [hw, List.cons_append] at hread ⊢
  rw [normalFrom, hword, Option.bind_some, if_pos (hiff.mpr hbit)]
  dsimp only
  rw [hread, normalFrom_skip, Int.natAbs_natCast, ← hlen, Nat.add_sub_cancel, List.drop_left, hlen,
    advance_cursorAt (by omega)]

theorem normalFrom_out (h : 32 * mask.length ≤ o) (hs : s ≠ []) :
    normalFrom towupper mask 0 s (cursorAt o) = none := by
  cases s with
  | nil => exact absurd rfl hs
  | cons b s => rw [normalFrom, read_cursorAt_none h, Option.bind_none]

/-! ## When the string comes back -/

theorem le_of_mem_marks (h : q ∈ marks locale o cs) : o ≤ q := by
  induction cs generalizing o with
  | nil => cases h
  | cons c cs ih =>
    rw [marks] at h
    split at h
    · cases h
    · rcases List.mem_append.mp h with h | h
      · split at h
        · exact (List.mem_singleton.mp h).ge
        · cases h
      · exact Nat.le_trans (Nat.le_add_right o _) (ih h)

/-- `getNormal` gives the characters back, in an array of `A` bits, from the byte at `o` on. -/
def Keeps (locale : Locale) (A : Nat) : (o : Nat) → List Nat → Prop
  | _, [] => True
  | o, c :: cs =>
    if lowerPoint locale c = 0 then
      (∀ d ∈ c :: cs, lowerPoint locale d = d) ∧
        o + (points ((c :: cs).map (lowerPoint locale))).length ≤ A
    else
      (if lowerPoint locale c = c then o + size c ≤ A else o < A) ∧
        Keeps locale A (o + size (lowerPoint locale c)) cs

theorem map_append_eq_some {x : Option Str} {r : Str} :
    x.map (u ++ ·) = some (u ++ r) ↔ x = some r := by
  cases x with
  | none => simp
  | some y => simp

theorem map_lowerPoint_eq_iff :
    cs.map (lowerPoint locale) = cs ↔ ∀ c ∈ cs, lowerPoint locale c = c := by
  have hiff := List.map_inj_left (l := cs) (f := lowerPoint locale) (g := id)
  rwa [List.map_id] at hiff

theorem points_lower_eq_iff (hcs : Scalars cs) :
    points (cs.map (lowerPoint locale)) = points cs ↔ ∀ c ∈ cs, lowerPoint locale c = c := by
  rw [← map_lowerPoint_eq_iff]
  exact ⟨points_inj (scalars_lower locale cs) hcs, fun h => by rw [h]⟩

theorem points_ne_nil (hcs : Scalars cs) (h : cs ≠ []) : points cs ≠ [] := fun hnil =>
  h (points_inj hcs (fun _ hd => absurd hd List.not_mem_nil) hnil)

/-- **The loop gives the string back exactly when it stays in the array**, and the characters from a
    null character on are in lower case. -/
theorem normalFrom_points (hcs : Scalars cs)
    (hupper : ∀ c ∈ cs, lowerPoint locale c ≠ c → towupper (lowerPoint locale c) = c)
    (hbits : ∀ q, o ≤ q → (bitOf mask q = true ↔ q ∈ marks locale o cs)) :
    normalFrom towupper mask 0 (points (cs.map (lowerPoint locale))) (cursorAt o) =
      some (points cs) ↔ Keeps locale (32 * mask.length) o cs := by
  induction cs generalizing o with
  | nil => exact iff_of_true rfl trivial
  | cons c cs ih =>
    have hlower := scalars_lower locale (c :: cs)
    rw [Keeps]
    rw [marks] at hbits
    by_cases hnull : lowerPoint locale c = 0
    · rw [if_pos hnull] at hbits ⊢
      have hne := points_ne_nil hlower (by simp)
      have hall := @normalFrom_unmarked towupper mask o []
        (points ((c :: cs).map (lowerPoint locale))) fun q hq _ => by
          rw [← Bool.not_eq_true, hbits q hq]
          exact List.not_mem_nil
      rw [List.append_nil] at hall
      rw [hall, ← points_lower_eq_iff hcs]
      simp only [hne, false_or]
      split
      · next hle =>
        rw [and_iff_left hle]
        simp [normalFrom]
      · next hle => exact iff_of_false nofun fun h => hle h.2
    · rw [if_neg hnull] at hbits ⊢
      obtain ⟨hc, hcs⟩ := List.forall_mem_cons.mp hcs
      obtain ⟨hupperc, hupper⟩ := List.forall_mem_cons.mp hupper
      have hl := isScalar_lowerPoint locale c
      have hsize := size_pos (lowerPoint locale c)
      -- behind the character the marks are those of the rest
      have hrest : ∀ q, o + size (lowerPoint locale c) ≤ q → (bitOf mask q = true ↔
          q ∈ marks locale (o + size (lowerPoint locale c)) cs) := by
        intro q hq
        rw [hbits q (by omega), List.mem_append]
        refine or_iff_right fun hmem => ?_
        split at hmem
        · rw [List.mem_singleton.mp hmem] at hq
          omega
        · cases hmem
      rw [← ih hcs hupper hrest, List.map_cons, points_cons, points_cons]
      by_cases hsame : lowerPoint locale c = c
      · have hclear : ∀ q, o ≤ q → q < o + (wcToUtf8 c).length → bitOf mask q = false := by
          intro q hq hlt
          rw [length_wcToUtf8_of_isScalar hc] at hlt
          rw [if_neg (not_not_intro hsame), List.nil_append] at hbits
          rw [← Bool.not_eq_true, hbits q hq]
          intro hmem
          have hle := le_of_mem_marks hmem
          rw [hsame] at hle
          omega
        have hne : wcToUtf8 c ≠ [] := by
          obtain ⟨b, t, hw, -⟩ := wcToUtf8_cons hc
          rw [hw]
          exact List.cons_ne_nil b t
        rw [hsame, normalFrom_unmarked hclear, length_wcToUtf8_of_isScalar hc]
        simp only [hne, false_or, if_true]
        split
        · next hle => rw [map_append_eq_some, and_iff_right hle]
        · next hle => exact iff_of_false nofun fun h => hle h.1
      · have hbit : bitOf mask o = true := by
          rw [hbits o le_rfl, if_pos hsame]
          simp
        rw [if_neg hsame]
        rcases Nat.lt_or_ge o (32 * mask.length) with hlt | hge
        · rw [normalFrom_marked hl hbit hlt, hupperc hsame, map_append_eq_some, and_iff_right hlt]
        · obtain ⟨b, t, hw, -⟩ := wcToUtf8_cons hl
          have hout := @normalFrom_out towupper mask o (wcToUtf8 (lowerPoint locale c) ++
            points (cs.map (lowerPoint locale))) hge (by rw [hw]; simp)
          rw [hout]
          exact iff_of_false nofun fun h => absurd h.1 (Nat.not_lt.mpr hge)

/-- The byte of the string in lower case that `getNormal` looks at last. -/
def lastPosition (locale : Locale) (cs : List Nat) : Nat :=
  (points (cs.dropLast.map (lowerPoint locale))).length +
    cs.getLast?.elim 0 fun c => if lowerPoint locale c = c then size c - 1 else 0

theorem length_points_cons (hc : IsScalar c) (cs : List Nat) :
    (points (c :: cs)).length = size c + (points cs).length := by
  rw [points_cons, List.length_append, length_wcToUtf8_of_isScalar hc]

theorem lastPosition_cons (locale : Locale) (c : Nat) (hne : cs ≠ []) :
    lastPosition locale (c :: cs) = size (lowerPoint locale c) + lastPosition locale cs := by
  obtain ⟨d, ds, rfl⟩ := List.exists_cons_of_ne_nil hne
  rw [lastPosition, lastPosition, List.dropLast_cons_cons, List.map_cons,
    length_points_cons (isScalar_lowerPoint locale c), List.getLast?_cons_cons, Nat.add_assoc]

/-- Without a character that changes, it is the last byte. -/
theorem lastPosition_same (hne : cs ≠ []) (hsame : ∀ c ∈ cs, lowerPoint locale c = c) :
    lastPosition locale cs + 1 = (points (cs.map (lowerPoint locale))).length := by
  induction cs with
  | nil => exact absurd rfl hne
  | cons c cs ih =>
    obtain ⟨hc, hcs⟩ := List.forall_mem_cons.mp hsame
    rw [List.map_cons, length_points_cons (isScalar_lowerPoint locale c)]
    rcases eq_or_ne cs [] with rfl | hcs'
    · have hsize := size_pos c
      simp only [lastPosition, List.dropLast_singleton, List.map_nil, points_nil, List.length_nil,
        List.getLast?_singleton, Option.elim_some, hc, if_true]
      omega
    · rw [lastPosition_cons locale c hcs', ← ih hcs' hcs, Nat.add_assoc]

theorem keeps_iff (hne : cs ≠ []) :
    Keeps locale A o cs ↔ (∀ c ∈ cs.dropWhile (lowerPoint locale · ≠ 0), lowerPoint locale c = c) ∧
      o + lastPosition locale cs < A := by
  induction cs generalizing o with
  | nil => exact absurd rfl hne
  | cons c cs ih =>
    rw [Keeps, List.dropWhile_cons]
    by_cases hnull : lowerPoint locale c = 0
    · simp only [hnull, if_true, ne_eq, not_true_eq_false, decide_false, Bool.false_eq_true,
        if_false]
      refine and_congr_right fun hsame => ?_
      have hlast := lastPosition_same hne hsame
      omega
    · simp only [hnull, if_false, ne_eq, not_false_eq_true, decide_true, if_true]
      have hsize := size_pos (lowerPoint locale c)
      rcases eq_or_ne cs [] with rfl | hcs
      · simp only [Keeps, and_true, List.dropWhile_nil, List.not_mem_nil, false_implies,
          implies_true, true_and, lastPosition, List.dropLast_singleton, List.map_nil, points_nil,
          List.length_nil, List.getLast?_singleton, Option.elim_some]
        split
        · next hsame =>
          rw [hsame] at hsize
          omega
        · omega
      · rw [ih hcs, lastPosition_cons locale c hcs, and_left_comm]
        refine and_congr_right fun _ => ?_
        have hsum : o + (size (lowerPoint locale c) + lastPosition locale cs) =
          o + size (lowerPoint locale c) + lastPosition locale cs := by omega
        rw [hsum]
        refine and_iff_right_of_imp fun hlt => ?_
        split
        · next hsame =>
          rw [hsame] at hlt
          omega
        · omega

theorem marks_eq_nil_iff : marks locale o cs = [] ↔
    ∀ c ∈ cs.takeWhile (lowerPoint locale · ≠ 0), lowerPoint locale c = c := by
  induction cs generalizing o with
  | nil => simp [marks]
  | cons c cs ih =>
    rw [marks, List.takeWhile_cons]
    by_cases hnull : lowerPoint locale c = 0
    · simp [hnull]
    · by_cases hsame : lowerPoint locale c = c
      · have hc : c ≠ 0 := fun h => hnull (hsame.trans h)
        simp [hsame, ih, hc]
      · simp [hnull, hsame]

theorem Keeps.marks_lt (h : Keeps locale A o cs) : ∀ q ∈ marks locale o cs, q < A := by
  induction cs generalizing o with
  | nil => simp [marks]
  | cons c cs ih =>
    rw [Keeps] at h
    rw [marks]
    split at h
    · next hnull => simp [hnull]
    · next hnull =>
      rw [if_neg hnull]
      intro q hq
      rcases List.mem_append.mp hq with hq | hq
      · split at hq
        · next hchanged =>
          rw [if_neg hchanged] at h
          rw [List.mem_singleton.mp hq]
          exact h.1
        · cases hq
      · exact ih h.2 q hq

/-! ## Strings that come back -/

/-- Maps of code points, the one back from the other where it changes a character of the string. -/
structure CaseMaps (locale : Locale) (towupper : Nat → Nat) (cs : List Nat) : Prop where
  lower : ∀ c, IsScalar c → IsScalar (locale.towlower c)
  upper : ∀ c ∈ cs, locale.towlower c ≠ c → towupper (locale.towlower c) = c

/-- The characters from the first null character on are in lower case, and so are those before it
    unless `getNormal` stays in the array. -/
def Lossless (locale : Locale) (cs : List Nat) : Prop :=
  (∀ c ∈ cs.dropWhile (lowerPoint locale · ≠ 0), lowerPoint locale c = c) ∧
    ((∀ c ∈ cs.takeWhile (lowerPoint locale · ≠ 0), lowerPoint locale c = c) ∨
      lastPosition locale cs < 32 * words (points cs).length)

/-- **A name is stored without a loss exactly when** its characters from a null character on are in
    lower case, and either none before it changes, or the array that is made for the length of the
    original has a bit for the last byte that `getNormal` looks at. Nothing outside of the array is
    read or written then. -/
theorem lossless_iff (hcs : Scalars cs) (hmaps : CaseMaps locale towupper cs) :
    (∃ d, new locale (points cs) = some d ∧ d.getLower = toLower locale (points cs) ∧
      d.getNormal towupper = some (points cs)) ↔ Lossless locale cs := by
  have hupper : ∀ c ∈ cs, lowerPoint locale c ≠ c → towupper (lowerPoint locale c) = c := by
    intro c hc hchanged
    have hl : lowerPoint locale c = locale.towlower c := scalarOf_eq (hmaps.lower c (hcs c hc))
    rw [hl] at hchanged ⊢
    exact hmaps.upper c hc hchanged
  have hnew : new locale (points cs) =
      (markAll (points cs).length none (marks locale 0 cs)).map fun charSizes =>
        { charSizes := charSizes, str := points (cs.map (lowerPoint locale)) } := by
    rw [new, toLower_points hcs, ← initFrom_points hcs]
    rfl
  rw [hnew, Lossless, toLower_points hcs]
  by_cases hmarks : marks locale 0 cs = []
  · rw [hmarks, or_iff_left_of_imp fun _ => marks_eq_nil_iff.mp hmarks]
    have hsplit : ((∀ c ∈ cs.dropWhile (lowerPoint locale · ≠ 0), lowerPoint locale c = c) ∧
        ∀ c ∈ cs.takeWhile (lowerPoint locale · ≠ 0), lowerPoint locale c = c) ↔
          ∀ c ∈ cs, lowerPoint locale c = c := by
      conv_rhs => rw [← List.takeWhile_append_dropWhile (p := (lowerPoint locale · ≠ 0)) (l := cs)]
      rw [List.forall_mem_append, and_comm]
    rw [hsplit, ← points_lower_eq_iff hcs]
    constructor
    · rintro ⟨d, hd, -, hnormal⟩
      obtain rfl := Option.some.inj hd
      exact Option.some.inj hnormal
    · exact fun h => ⟨_, rfl, rfl, congrArg some h⟩
  · have hne : cs ≠ [] := by
      rintro rfl
      exact hmarks rfl
    rw [or_iff_right fun h => hmarks (marks_eq_nil_iff.mpr h)]
    have hkeeps := @keeps_iff locale 0 (32 * words (points cs).length) cs hne
    rw [Nat.zero_add] at hkeeps
    rw [← hkeeps]
    rcases @markAll_spec (points cs).length (marks locale 0 cs) with
      ⟨-, charSizes, hall, hsome, hlen, hbits⟩ | ⟨hall, q, hq, hge⟩
    · obtain ⟨mask, rfl⟩ := Option.isSome_iff_exists.mp (hsome.trans (by simpa using hmarks))
      rw [Option.getD_some] at hlen hbits
      have hback := normalFrom_points hcs hupper fun q _ => hbits q
      rw [hlen] at hback
      rw [hall, Option.map_some, ← hback]
      constructor
      · rintro ⟨d, hd, -, hnormal⟩
        obtain rfl := Option.some.inj hd
        exact hnormal
      · exact fun h => ⟨_, rfl, rfl, h⟩
    · rw [hall, Option.map_none]
      refine iff_of_false (fun ⟨d, hd, _⟩ => nomatch hd) fun hk => ?_
      exact absurd (hk.marks_lt q hq) (Nat.not_lt.mpr hge)

/-- Sixteen times U+023A, whose lower case takes three bytes for two. -/
def strokeLocale : Locale where
  towlower c := if c = 0x23a then 0x2c65 else c
  convert s _ := s

theorem lossless_two :
    ∃ d, new strokeLocale (points [0x23a, 0x23a]) = some d ∧
      d.getLower = toLower strokeLocale (points [0x23a, 0x23a]) ∧
      d.getNormal (fun c => if c = 0x2c65 then 0x23a else c) = some (points [0x23a, 0x23a]) :=
  (lossless_iff (by decide) ⟨fun c hc => by
    show IsScalar (if c = 0x23a then 0x2c65 else c)
    split
    · decide
    · exact hc, by decide⟩).mpr ⟨by decide, by decide⟩

theorem strokes_lost : ¬ ∀ (locale : Locale) (towupper : Nat → Nat) (cs : List Nat), Scalars cs →
    CaseMaps locale towupper cs →
    ∃ d, new locale (points cs) = some d ∧ d.getLower = toLower locale (points cs) ∧
      d.getNormal towupper = some (points cs) := by
  intro h
  obtain ⟨d, hd, -⟩ := h strokeLocale (fun c => if c = 0x2c65 then 0x23a else c)
    (List.replicate 16 0x23a) (by decide) ⟨fun c hc => by
      show IsScalar (if c = 0x23a then 0x2c65 else c)
      split
      · decide
      · exact hc, by decide⟩
  have hnone : new strokeLocale (points (List.replicate 16 0x23a)) = none := by decide +kernel
  rw [hnone] at hd
  cases hd

end DualString
end Airdcpp
