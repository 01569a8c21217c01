import Airdcpp.Lib.Bits
import Airdcpp.Util.Encoder

/-!
# `Util/EncoderRoundTrip` — what base32 and base16 give back

A digit of base32 is five bits. `toBase32` writes the bits of its bytes in groups of five, the last
of them filled up with zeros (`toBase32_bits`); `fromBase32` writes the bits of the digits it finds
one after the other into its buffer (`fromBase32_bits`). So it gives back what was encoded, and it
depends on nothing but the digits.

`decode16` counts the letters from zero instead of ten, so `fromBase16` gives back only bytes whose
two digits are decimal.
-/

namespace Airdcpp
namespace Encoder

open Lib (bits)

/-! ## Digits of base32 -/

/-- A number below 32. -/
def IsDigit32 (tmp : UInt8) : Prop := (bits tmp).take 3 = List.replicate 3 false

/-- The five bits of a digit. -/
def digitBits (tmp : UInt8) : List Bool := (bits tmp).drop 3

theorem length_digitBits (tmp : UInt8) : (digitBits tmp).length = 5 := rfl

theorem isDigit32_iff (tmp : UInt8) : IsDigit32 tmp ↔ tmp.toNat < 32 := by
  revert tmp
  unfold IsDigit32
  decide +kernel

theorem base32Table_alphabet {word : UInt8} (h : IsDigit32 word) :
    base32Table (base32Alphabet.getD word.toNat 0) = some word ∧
      base32Alphabet.getD word.toNat 0 ≠ 0 := by
  revert h
  rw [isDigit32_iff]
  revert word
  decide +kernel

theorem isDigit32_of_base32Table {c tmp : UInt8} (h : base32Table c = some tmp) :
    IsDigit32 tmp := by
  have hall : ∀ c : UInt8, (base32Table c).all (fun tmp => tmp.toNat < 32) = true := by
    decide +kernel
  have htmp := hall c
  rw [h, Option.all_some, decide_eq_true_iff] at htmp
  exact (isDigit32_iff tmp).mpr htmp

theorem digit_of_bits {word : UInt8} {l : List Bool}
    (h : bits word = List.replicate 3 false ++ l) : IsDigit32 word ∧ digitBits word = l := by
  rw [IsDigit32, digitBits, h]
  exact ⟨rfl, rfl⟩

/-! ## Encoding -/

/-- A digit that spans a byte boundary. -/
theorem bits_word_span {index : Nat} (b b' : UInt8) (hlow : 3 < index) (hhigh : index < 8) :
    bits ((b &&& (0xff >>> UInt8.ofNat index)) <<< UInt8.ofNat ((index + 5) % 8) |||
        b' >>> UInt8.ofNat (8 - (index + 5) % 8)) =
      List.replicate 3 false ++ ((bits b).drop index ++ (bits b').take ((index + 5) % 8)) := by
  simp only [Lib.bits_eq]
  interval_cases index <;> simp [BitVec.getMsbD]

/-- A digit within a byte. -/
theorem bits_word_within {index : Nat} (b : UInt8) (hlow : index ≤ 3) :
    bits ((b >>> UInt8.ofNat (8 - (index + 5))) &&& 0x1f) =
      List.replicate 3 false ++ ((bits b).drop index).take 5 := by
  simp only [Lib.bits_eq]
  interval_cases index <;> simp [BitVec.getMsbD]

/-- The text is digits that spell the bits. Less than five zeros fill up the last one. -/
def Spells (text : Str) (l : List Bool) : Prop :=
  ∃ words : List UInt8, ∃ pad < 5,
    text = words.map (fun word => base32Alphabet.getD word.toNat 0) ∧
    (∀ word ∈ words, IsDigit32 word) ∧
    words.flatMap digitBits = l ++ List.replicate pad false

theorem spells_nil : Spells [] [] := ⟨[], 0, by decide, rfl, by simp, by simp⟩

theorem Spells.cons {word : UInt8} {text : Str} {l : List Bool} (hword : IsDigit32 word)
    (h : Spells text l) :
    Spells (base32Alphabet.getD word.toNat 0 :: text) (digitBits word ++ l) := by
  obtain ⟨words, pad, hpad, rfl, hdigits, hbits⟩ := h
  refine ⟨word :: words, pad, hpad, rfl, ?_, ?_⟩
  · intro w hw
    rcases List.mem_cons.mp hw with rfl | hw
    · exact hword
    · exact hdigits w hw
  · rw [List.flatMap_cons, hbits, List.append_assoc]

/-- **The digits are the bits in groups of five.** -/
theorem toBase32_bits (x : Str) (index : Nat) (hindex : index < 8) :
    Spells (toBase32 x index) ((x.flatMap bits).drop index) := by
  fun_induction toBase32 x index with
  | case1 index =>
    rw [List.flatMap_nil, List.drop_nil]
    exact spells_nil
  | case2 b rest index hspan index' word ih =>
    have hindex' : index' = index - 3 := by simp only [index']; omega
    have hrest := ih (by omega)
    rw [List.flatMap_cons, List.drop_append_of_le_length (by rw [Lib.length_bits]; omega)]
    cases rest with
    | nil =>
      -- zeros stand for the byte that is missing
      have hspell := bits_word_span b 0 hspan hindex
      rw [UInt8.zero_shiftRight] at hspell
      obtain ⟨hword, hdigit⟩ := digit_of_bits hspell
      refine ⟨[word], index', by omega, ?_, ?_, ?_⟩
      · rw [toBase32]
        rfl
      · intro w hw
        obtain rfl := List.mem_singleton.mp hw
        exact hword
      · rw [List.flatMap_singleton, hdigit, Lib.bits_zero,
          List.take_replicate, List.flatMap_nil, List.append_nil]
        congr 2
        omega
    | cons b' tail =>
      obtain ⟨hword, hdigit⟩ := digit_of_bits (bits_word_span b b' hspan hindex)
      have hall : (bits b).drop index ++ (b' :: tail).flatMap bits =
          digitBits word ++ ((b' :: tail).flatMap bits).drop index' := by
        rw [hdigit, List.append_assoc, List.flatMap_cons,
          ← @List.take_append_of_le_length _ (bits b') (tail.flatMap bits) index'
            (by rw [Lib.length_bits]; omega),
          List.take_append_drop]
      rw [hall]
      exact hrest.cons hword
  | case3 b rest index hwithin word index' ih0 ih =>
    have hlow : index ≤ 3 := Nat.le_of_not_lt hwithin
    obtain ⟨hword, hdigit⟩ := digit_of_bits (bits_word_within b hlow)
    by_cases hzero : index' = 0
    · have hthree : index = 3 := by simp only [index'] at hzero; omega
      rw [if_pos hzero, List.flatMap_cons,
        List.drop_append_of_le_length (by rw [Lib.length_bits]; omega)]
      have hall : (bits b).drop index = digitBits word := by
        rw [hdigit, hthree]
        rfl
      rw [hall]
      exact (ih0 (by decide)).cons hword
    · have hsmall : index < 3 := by simp only [index'] at hzero; omega
      rw [if_neg hzero]
      have hall : ((b :: rest).flatMap bits).drop index =
          digitBits word ++ ((b :: rest).flatMap bits).drop (index + 5) := by
        rw [hdigit, List.flatMap_cons,
          List.drop_append_of_le_length (by rw [Lib.length_bits]; omega),
          List.drop_append_of_le_length (by rw [Lib.length_bits]; omega), ← List.append_assoc,
          ← List.drop_drop, List.take_append_drop]
      rw [hall]
      exact (ih (by omega)).cons hword

/-! ## Decoding -/

/-- The digits of a C string. -/
def validDigits (src : Str) : List UInt8 := (src.takeWhile (· ≠ 0)).filterMap base32Table

/-- The first `n` bits, with zeros behind them. -/
def fill (n : Nat) (l : List Bool) : List Bool := (l ++ List.replicate n false).take n

theorem fill_of_le {n : Nat} {l : List Bool} (h : l.length ≤ n) :
    fill n l = l ++ List.replicate (n - l.length) false := by
  rw [fill, List.take_append, List.take_of_length_le h, List.take_replicate,
    min_eq_left (Nat.sub_le _ _)]

theorem fill_append {n : Nat} {l : List Bool} (l' : List Bool) (h : l.length = n) :
    fill n (l ++ l') = l := by
  rw [fill, List.append_assoc, List.take_left' h]

/-- A digit that fits into the byte. -/
theorem bits_or_within {index : Nat} {v tmp : UInt8} (hlow : index ≤ 3) (htmp : IsDigit32 tmp)
    (hv : (bits v).drop index = List.replicate (8 - index) false) :
    bits (v ||| tmp <<< UInt8.ofNat (8 - (index + 5))) =
      (bits v).take index ++ digitBits tmp ++ List.replicate (8 - (index + 5)) false := by
  simp only [IsDigit32, digitBits, Lib.bits_eq] at *
  interval_cases index <;> simp [BitVec.getMsbD] at * <;> simp [hv, htmp]

/-- The first bits of a digit that does not. -/
theorem bits_or_front {index : Nat} {v tmp : UInt8} (hlow : 3 < index) (hhigh : index < 8)
    (htmp : IsDigit32 tmp) (hv : (bits v).drop index = List.replicate (8 - index) false) :
    bits (v ||| tmp >>> UInt8.ofNat (index - 3)) =
      (bits v).take index ++ (digitBits tmp).take (8 - index) := by
  simp only [IsDigit32, digitBits, Lib.bits_eq] at *
  interval_cases index <;> simp [BitVec.getMsbD] at * <;> simp [hv, htmp]

/-- The other bits of it. -/
theorem bits_back {index : Nat} (tmp : UInt8) (hlow : 3 < index) (hhigh : index < 8) :
    bits (tmp <<< UInt8.ofNat (8 - (index - 3))) =
      (digitBits tmp).drop (8 - index) ++ List.replicate (8 - (index - 3)) false := by
  simp only [digitBits, Lib.bits_eq]
  interval_cases index <;> simp [BitVec.getMsbD]

theorem modify_middle {α : Type} (front : List α) (v : α) (t : List α) (f : α → α) :
    (front ++ v :: t).modify front.length f = front ++ f v :: t := by
  induction front with
  | nil => rfl
  | cons x front ih => rw [List.cons_append, List.length_cons, List.modify_succ_cons, ih]; rfl

theorem validDigits_cons {c : UInt8} (src : Str) (hc : c ≠ 0) :
    validDigits (c :: src) = (base32Table c).toList ++ validDigits src := by
  rw [validDigits, List.takeWhile_cons_of_pos (by simp [hc]), validDigits]
  cases h : base32Table c with
  | none => rw [List.filterMap_cons_none h]; rfl
  | some tmp => rw [List.filterMap_cons_some h]; rfl

/-- A buffer whose bytes are written up to `front`, and the first `index` bits of the next one. -/
theorem buffer_bits {len m index : Nat} {front : Str} {v : UInt8} (hindex : index ≤ 8)
    (hlen : front.length + 1 + m = len)
    (hv : (bits v).drop index = List.replicate (8 - index) false) :
    (front ++ v :: List.replicate m 0).flatMap bits =
      fill (8 * len) (front.flatMap bits ++ (bits v).take index) := by
  have htake : ((bits v).take index).length = index := by
    rw [List.length_take, Lib.length_bits, min_eq_left hindex]
  rw [fill_of_le (by rw [List.length_append, Lib.length_flatMap_bits, htake]; omega),
    List.flatMap_append, List.flatMap_cons, Lib.flatMap_bits_replicate, List.append_assoc]
  congr 1
  conv_lhs => rw [← List.take_append_drop index (bits v), hv, List.append_assoc,
    List.replicate_append_replicate]
  congr 2
  rw [List.length_append, Lib.length_flatMap_bits, htake]
  omega

/-- The last byte is full: what else there is has no room. -/
theorem full_bits {len : Nat} {front : Str} {v v' : UInt8} {index : Nat} {d l : List Bool}
    (hv : bits v' = (bits v).take index ++ d) (hlast : front.length + 1 = len) :
    (front ++ v' :: List.replicate 0 0).flatMap bits =
      fill (8 * len) (front.flatMap bits ++ (bits v).take index ++ (d ++ l)) := by
  have hall : front.flatMap bits ++ (bits v).take index ++ (d ++ l) =
      (front ++ [v']).flatMap bits ++ l := by
    simp [hv]
  rw [hall, fill_append]
  · rfl
  · rw [Lib.length_flatMap_bits, List.length_append, List.length_singleton, hlast]

/-- **The bits of the digits, one after the other.** `front` is full, `v` has its first `index`
    bits, and behind it nothing is written. -/
theorem fromBase32Loop_bits {len m index : Nat} {src front : Str} {v : UInt8} (hindex : index < 8)
    (hlen : front.length + 1 + m = len)
    (hv : (bits v).drop index = List.replicate (8 - index) false) :
    (fromBase32Loop len src index front.length (front ++ v :: List.replicate m 0)).flatMap bits =
      fill (8 * len) (front.flatMap bits ++ (bits v).take index ++
        (validDigits src).flatMap digitBits) := by
  induction src generalizing front v index m with
  | nil => simpa [fromBase32Loop, validDigits] using buffer_bits hindex.le hlen hv
  | cons c src ih =>
    rw [fromBase32Loop]
    by_cases hend : c = 0
    · have hnone : validDigits (c :: src) = [] := by simp [validDigits, hend]
      rw [if_pos hend, buffer_bits hindex.le hlen hv, hnone, List.flatMap_nil, List.append_nil]
    · rw [if_neg hend, validDigits_cons src hend]
      cases hc : base32Table c with
      | none => exact ih hindex hlen hv
      | some tmp =>
        have htmp := isDigit32_of_base32Table hc
        rw [Option.toList_some, List.singleton_append, List.flatMap_cons]
        dsimp only
        by_cases hlow : index ≤ 3
        · rw [if_pos hlow]
          have hbits := bits_or_within hlow htmp hv
          by_cases hfull : (index + 5) % 8 = 0
          · -- the digit is the rest of the byte
            obtain rfl : index = 3 := by omega
            rw [if_pos hfull, modify_middle]
            have hbyte : bits (v ||| tmp) = (bits v).take 3 ++ digitBits tmp := by
              simpa using hbits
            by_cases hlast : front.length + 1 = len
            · obtain rfl : m = 0 := by omega
              rw [if_pos hlast]
              exact full_bits hbyte hlast
            · obtain ⟨m, rfl⟩ : ∃ k, m = k + 1 := Nat.exists_eq_succ_of_ne_zero (by omega)
              rw [if_neg hlast]
              have hnext := @ih m 0 (front ++ [v ||| tmp]) 0 (by decide)
                (by simp only [List.length_append, List.length_singleton]; omega)
                (by rw [Lib.bits_zero]; rfl)
              simpa [hbyte, List.replicate_succ] using hnext
          · rw [if_neg hfull, modify_middle]
            have hfive : (index + 5) % 8 = index + 5 := by omega
            have hlength : ((bits v).take index ++ digitBits tmp).length = index + 5 := by
              rw [List.length_append, List.length_take, Lib.length_bits, length_digitBits]
              omega
            rw [hfive]
            have hnext := @ih m (index + 5) front _ (by omega) hlen
              (by rw [hbits, List.drop_left' hlength])
            rw [hnext, hbits, List.take_left' hlength]
            simp only [List.append_assoc]
        · rw [if_neg hlow, modify_middle]
          have hspan : (index + 5) % 8 = index - 3 := by omega
          rw [hspan]
          have hbyte := bits_or_front (Nat.lt_of_not_le hlow) hindex htmp hv
          by_cases hlast : front.length + 1 = len
          · obtain rfl : m = 0 := by omega
            rw [if_pos hlast]
            have hall := full_bits (l := (digitBits tmp).drop (8 - index) ++
              (validDigits src).flatMap digitBits) hbyte hlast
            rwa [List.append_assoc, ← List.append_assoc ((digitBits tmp).take _),
              List.take_append_drop, ← List.append_assoc] at hall
          · obtain ⟨m, rfl⟩ : ∃ k, m = k + 1 := Nat.exists_eq_succ_of_ne_zero (by omega)
            rw [if_neg hlast]
            have hback := bits_back tmp (Nat.lt_of_not_le hlow) hindex
            have hlength : ((digitBits tmp).drop (8 - index)).length = index - 3 := by
              rw [List.length_drop, length_digitBits]
              omega
            have hnext := @ih m (index - 3) (front ++ [v ||| tmp >>> UInt8.ofNat (index - 3)])
              (tmp <<< UInt8.ofNat (8 - (index - 3))) (by omega)
              (by simp only [List.length_append, List.length_singleton]; omega)
              (by rw [hback, List.drop_left' hlength])
            have hmodify := modify_middle (front ++ [v ||| tmp >>> UInt8.ofNat (index - 3)]) 0
              (List.replicate m 0) (· ||| tmp <<< UInt8.ofNat (8 - (index - 3)))
            rw [hback, List.take_left' hlength, List.flatMap_append, List.flatMap_singleton, hbyte]
              at hnext
            rw [UInt8.zero_or] at hmodify
            rw [← hmodify] at hnext
            simp only [List.append_assoc, List.singleton_append, List.length_append,
              List.length_singleton] at hnext
            rw [List.replicate_succ, hnext]
            congr 1
            rw [← List.append_assoc ((digitBits tmp).take _), List.take_append_drop]
            simp only [List.append_assoc]

theorem fromBase32_bits (src : Str) {len : Nat} (hlen : 0 < len) :
    (fromBase32 src len).flatMap bits = fill (8 * len) ((validDigits src).flatMap digitBits) := by
  obtain ⟨m, rfl⟩ : ∃ m, len = m + 1 := Nat.exists_eq_succ_of_ne_zero hlen.ne'
  have hloop := @fromBase32Loop_bits (m + 1) m 0 src [] 0 (by decide)
    (by rw [List.length_nil]; omega) (by rw [Lib.bits_zero]; rfl)
  simpa [fromBase32, List.replicate_succ] using hloop

/-- The digits of what was encoded. -/
theorem validDigits_map {words : List UInt8} (h : ∀ word ∈ words, IsDigit32 word) :
    validDigits (words.map fun word => base32Alphabet.getD word.toNat 0) = words := by
  induction words with
  | nil => rfl
  | cons word words ih =>
    obtain ⟨htable, hzero⟩ := base32Table_alphabet (h word List.mem_cons_self)
    rw [List.map_cons, validDigits_cons _ hzero, htable,
      ih fun w hw => h w (List.mem_cons_of_mem _ hw)]
    rfl

/-- What is encoded is decoded. -/
theorem fromBase32_toBase32_of_ne_nil {x : Str} (hx : x ≠ []) :
    fromBase32 (toBase32 x 0) x.length = x := by
  obtain ⟨words, pad, hpad, htext, hdigits, hbits⟩ := toBase32_bits x 0 (by decide)
  apply Lib.flatMap_bits_inj
  rw [fromBase32_bits _ (List.length_pos_iff.mpr hx), htext, validDigits_map hdigits, hbits,
    List.drop_zero]
  exact fill_append _ (Lib.length_flatMap_bits x)

/-- The characters of a C string that are digits, in upper case. -/
def validChars (s : Str) : Str :=
  ((s.takeWhile (· ≠ 0)).filter fun c => (base32Table c).isSome).map fun c =>
    if chr 'a' ≤ c ∧ c ≤ chr 'z' then c - 32 else c

theorem base32Table_upper (c : UInt8) :
    base32Table (if chr 'a' ≤ c ∧ c ≤ chr 'z' then c - 32 else c) = base32Table c := by
  revert c
  decide +kernel

/-- The digits are known from these characters. -/
theorem validDigits_eq (s : Str) : validDigits s = (validChars s).filterMap base32Table := by
  rw [validDigits, validChars, List.filterMap_map]
  induction s.takeWhile (· ≠ 0) with
  | nil => rfl
  | cons c s ih =>
    cases h : base32Table c with
    | none => rw [List.filterMap_cons_none h, List.filter_cons_of_neg (by simp [h]), ih]
    | some tmp =>
      have hupper : (base32Table ∘ fun c => if chr 'a' ≤ c ∧ c ≤ chr 'z' then c - 32 else c) c =
          some tmp := by rw [Function.comp_apply, base32Table_upper, h]
      rw [List.filterMap_cons_some h, List.filter_cons_of_pos (by simp [h]),
        List.filterMap_cons_some hupper, ih]

/-! ## Where it is written -/

/-- The loop does what it writes, and nothing else. -/
theorem fromBase32Loop_eq (len : Nat) (src : Str) (index offset : Nat) (dst : Str) :
    fromBase32Loop len src index offset dst =
      (fromBase32Writes len src index offset).foldl (fun dst w => dst.modify w.1 (· ||| w.2))
        dst := by
  induction src generalizing index offset dst with
  | nil => rfl
  | cons c src ih =>
    rw [fromBase32Loop, fromBase32Writes]
    by_cases hend : c = 0
    · rw [if_pos hend, if_pos hend]
      rfl
    · rw [if_neg hend, if_neg hend]
      cases base32Table c with
      | none => exact ih ..
      | some tmp =>
        dsimp only
        by_cases hlow : index ≤ 3
        · rw [if_pos hlow, if_pos hlow]
          by_cases hfull : (index + 5) % 8 = 0
          · rw [if_pos hfull, if_pos hfull, List.foldl_cons]
            by_cases hlast : offset + 1 = len
            · rw [if_pos hlast, if_pos hlast]
              rfl
            · rw [if_neg hlast, if_neg hlast]
              exact ih ..
          · rw [if_neg hfull, if_neg hfull]
            exact ih ..
        · rw [if_neg hlow, if_neg hlow, List.foldl_cons]
          by_cases hlast : offset + 1 = len
          · rw [if_pos hlast, if_pos hlast]
            rfl
          · rw [if_neg hlast, if_neg hlast]
            exact ih ..

/-- Nothing is written behind the buffer. -/
theorem lt_of_mem_writes {len : Nat} {src : Str} {index offset : Nat} {w : Nat × UInt8}
    (hoffset : offset < len) (h : w ∈ fromBase32Writes len src index offset) : w.1 < len := by
  induction src generalizing index offset with
  | nil => cases h
  | cons c src ih =>
    rw [fromBase32Writes] at h
    split at h
    · cases h
    · split at h
      · exact ih hoffset h
      · dsimp only at h
        split at h
        · split at h
          · rcases List.mem_cons.mp h with rfl | h
            · exact hoffset
            · split at h
              · cases h
              · exact ih (by omega) h
          · rcases List.mem_cons.mp h with rfl | h
            · exact hoffset
            · exact ih hoffset h
        · rcases List.mem_cons.mp h with rfl | h
          · exact hoffset
          · split at h
            · cases h
            · rcases List.mem_cons.mp h with rfl | h
              · show offset + 1 < len
                omega
              · exact ih (by omega) h

/-- **Base32 gives back what it was given**, stays in its buffer, and sees only the digits. -/
theorem base32_round_trip (x s s' : Str) {len : Nat} (hlen : 0 < len) :
    fromBase32 (toBase32 x 0) x.length = x ∧
      (fromBase32 s len = (fromBase32Writes len s 0 0).foldl
          (fun dst w => dst.modify w.1 (· ||| w.2)) (List.replicate len 0) ∧
        ∀ w ∈ fromBase32Writes len s 0 0, w.1 < len) ∧
      (validChars s = validChars s' → fromBase32 s len = fromBase32 s' len) := by
  refine ⟨?_, ⟨fromBase32Loop_eq .., fun w hw => lt_of_mem_writes hlen hw⟩, fun hchars => ?_⟩
  · by_cases hx : x = []
    · subst hx
      rw [toBase32]
      rfl
    · exact fromBase32_toBase32_of_ne_nil hx
  · apply Lib.flatMap_bits_inj
    rw [fromBase32_bits s hlen, fromBase32_bits s' hlen, validDigits_eq, validDigits_eq, hchars]

theorem base32_round_trip_two :
    fromBase32 (toBase32 [1, 2] 0) 2 = [1, 2] ∧
      fromBase32 (str "my-") 2 = fromBase32 (str "MY") 2 :=
  ⟨(@base32_round_trip [1, 2] [] [] 2 (by decide)).1,
    (base32_round_trip [] (str "my-") (str "MY") (by decide)).2.2 (by decide +kernel)⟩

/-! ## Base16 -/

/-- A hexadecimal digit of `n`, in lower or upper case. -/
def IsHexDigit (n : Nat) (c : UInt8) : Prop :=
  c = (str "0123456789abcdef").getD n 0 ∨ c = (str "0123456789ABCDEF").getD n 0

/-- Two digits for each byte, in any case. -/
def IsHexText : (text x : Str) → Prop
  | [], [] => True
  | c :: c' :: text, b :: x =>
    IsHexDigit (b.toNat / 16) c ∧ IsHexDigit (b.toNat % 16) c' ∧ IsHexText text x
  | _, _ => False

/-- Whether the character is a digit of anything. -/
def isHexDigit (c : UInt8) : Bool :=
  (str "0123456789abcdefABCDEF").contains c

/-- The pairs that `fromBase16` may look at. -/
def hexPairs : (src : Str) → (len : Nat) → List (UInt8 × UInt8)
  | c :: c' :: src, len + 1 => if c = 0 ∨ c' = 0 then [] else (c, c') :: hexPairs src len
  | _, _ => []

/-- Both digits of a byte are decimal. -/
def DecimalDigits (b : UInt8) : Prop := b.toNat / 16 < 10 ∧ b.toNat % 16 < 10

theorem decode16_isHexDigit (c : UInt8) : (decode16 c).isSome = isHexDigit c := by
  revert c
  decide +kernel

/-- Letters are counted from zero. -/
theorem decode16_eq {n : Nat} {c : UInt8} (hn : n < 16) (h : IsHexDigit n c) :
    decode16 c = some (UInt8.ofNat (if n < 10 then n else n - 10)) ∧ c ≠ 0 := by
  rcases h with rfl | rfl
  · revert n
    decide +kernel
  · revert n
    decide +kernel

/-- What the digits of a byte are read as. -/
def misread (b : UInt8) : UInt8 :=
  let value (n : Nat) : UInt8 := UInt8.ofNat (if n < 10 then n else n - 10)
  (value (b.toNat / 16) <<< 4) + value (b.toNat % 16)

instance (b : UInt8) : Decidable (DecimalDigits b) :=
  inferInstanceAs (Decidable (b.toNat / 16 < 10 ∧ b.toNat % 16 < 10))

theorem misread_eq_iff (b : UInt8) : misread b = b ↔ DecimalDigits b := by
  revert b
  decide +kernel

theorem fromBase16_hexText {x t : Str} (h : IsHexText t x) :
    fromBase16 t x.length = some (x.map misread) := by
  induction x generalizing t with
  | nil =>
    rcases t with _ | ⟨c, _ | ⟨c', t⟩⟩
    · rfl
    · exact h.elim
    · exact h.elim
  | cons b x ih =>
    rcases t with _ | ⟨c, _ | ⟨c', t⟩⟩
    · exact h.elim
    · exact h.elim
    · obtain ⟨hhigh, hlow, hrest⟩ := h
      have hb : b.toNat < 256 := b.toNat_lt
      obtain ⟨htmp, hc⟩ := decode16_eq (by omega) hhigh
      obtain ⟨htmp2, hc'⟩ := decode16_eq (by omega) hlow
      rw [List.length_cons, fromBase16, if_neg (by simp [hc, hc']), htmp, htmp2, ih hrest]
      rfl

theorem fromBase16_eq_none_iff (src : Str) (len : Nat) :
    fromBase16 src len = none ↔
      ∃ p ∈ hexPairs src len, ¬ (isHexDigit p.1 = true ∧ isHexDigit p.2 = true) := by
  fun_induction hexPairs src len with
  | case1 c c' src len hend =>
    rw [fromBase16, if_pos hend]
    simp
  | case2 c c' src len hend ih =>
    rw [fromBase16, if_neg hend, List.exists_mem_cons_iff, ← ih, ← decode16_isHexDigit,
      ← decode16_isHexDigit]
    cases decode16 c with
    | none => simp
    | some tmp =>
      cases decode16 c' with
      | none => simp
      | some tmp2 =>
        cases fromBase16 src len with
        | none => simp
        | some rest => simp
  | case3 src len hshort =>
    have hsome : fromBase16 src len = some (List.replicate len 0) := by
      rcases src with _ | ⟨c, _ | ⟨c', src⟩⟩
      · rfl
      · rfl
      · cases len with
        | zero => rfl
        | succ len => exact absurd rfl (hshort c c' src len rfl)
    rw [hsome]
    simp

/-- **The bytes come back exactly when all digits are decimal**; what is no digit throws. -/
theorem base16_round_trip_iff {x t : Str} (h : IsHexText t x) (src : Str) (len : Nat) :
    (fromBase16 t x.length = some x ↔ ∀ b ∈ x, DecimalDigits b) ∧
      (fromBase16 src len = none ↔
        ∃ p ∈ hexPairs src len, ¬ (isHexDigit p.1 = true ∧ isHexDigit p.2 = true)) := by
  refine ⟨?_, fromBase16_eq_none_iff src len⟩
  rw [fromBase16_hexText h, Option.some.injEq]
  conv_lhs => rhs; rw [← List.map_id x]
  rw [List.map_inj_left]
  exact forall₂_congr fun b _ => misread_eq_iff b

theorem base16_round_trip_decimal :
    fromBase16 (str "1290") 2 = some [0x12, 0x90] ↔ ∀ b ∈ ([0x12, 0x90] : Str), DecimalDigits b :=
  (base16_round_trip_iff (x := [0x12, 0x90]) (t := str "1290")
    ⟨.inl rfl, .inl rfl, .inl rfl, .inl rfl, trivial⟩ [] 0).1

/-- `ab` is read as `01`. -/
theorem base16_letters : ¬ ∀ x t : Str, IsHexText t x → fromBase16 t x.length = some x := by
  intro hall
  have hab := hall [0xab] (str "aB") ⟨.inl rfl, .inr rfl, trivial⟩
  exact absurd hab (by decide)

end Encoder
end Airdcpp
