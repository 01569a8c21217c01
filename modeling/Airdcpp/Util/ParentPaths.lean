import Airdcpp.Lib.Components
import Airdcpp.Util.NoCaseBounds

/-!
# `Util/ParentPaths` — paths above others

`isParentOrExact` and `isSub` compare as much of the lower path as the upper path has bytes,
character by character, and then look at the byte behind. So they count the bytes of the upper path
in the lower one (`BytesMatch`). Whether the components of one path stand in front of those of the
other (`IsParent`) is a question of characters (`CharsMatch`): the answers are the same as long as
characters that are lowered to the same one are encoded with the same number of bytes.
-/

namespace Airdcpp
namespace Util

open Text Lib

/-- `isSub` -/
def isSub (locale : Locale) (aTestSub aParent : Str) (aSeparator : UInt8) : Bool :=
  if aTestSub.length ≤ aParent.length then false
  else if strnicmp locale (aTestSub.length + 1) aTestSub aParent aParent.length ≠ 0 then false
  else
    aParent.isEmpty || aParent.getLast? == some aSeparator ||
      aTestSub[aParent.length]? == some aSeparator

/-- `isParentOrExact`, `none` when a position is out of range. -/
def isParentOrExactChecked (locale : Locale) (aTestParent aSub : Str) (aSeparator : UInt8) :
    Option Bool :=
  if aSub.length < aTestParent.length then some false
  else do
    let d ← strnicmpChecked locale aSub aTestParent aTestParent.length
    if d ≠ 0 then some false
    else if aTestParent.isEmpty || aTestParent.length == aSub.length ||
        aTestParent.getLast? == some aSeparator then some true
    else do
      let c ← aSub[aTestParent.length]?
      some (c == aSeparator)

/-- `isSub`, `none` when a position is out of range. -/
def isSubChecked (locale : Locale) (aTestSub aParent : Str) (aSeparator : UInt8) : Option Bool :=
  if aTestSub.length ≤ aParent.length then some false
  else do
    let d ← strnicmpChecked locale aTestSub aParent aParent.length
    if d ≠ 0 then some false
    else if aParent.isEmpty || aParent.getLast? == some aSeparator then some true
    else do
      let c ← aTestSub[aParent.length]?
      some (c == aSeparator)

/-- As long as the positions are in range, the checks change nothing. -/
theorem isParentOrExact_of_checked {locale : Locale} {p s : Str} {sep : UInt8} {b : Bool}
    (h : isParentOrExactChecked locale p s sep = some b) : isParentOrExact locale p s sep = b := by
  rw [isParentOrExactChecked] at h
  rw [isParentOrExact]
  by_cases hlength : s.length < p.length
  · rw [if_pos hlength] at h ⊢
    exact Option.some.inj h
  · rw [if_neg hlength] at h ⊢
    cases hd : strnicmpChecked locale s p p.length with
    | none =>
      rw [hd] at h
      cases h
    | some d =>
      rw [strnicmp_of_checked hd]
      rw [hd] at h
      simp only [Option.bind_eq_bind, Option.bind_some] at h
      by_cases hzero : d ≠ 0
      · rw [if_pos hzero] at h ⊢
        exact Option.some.inj h
      · rw [if_neg hzero] at h ⊢
        cases hfront : (p.isEmpty || p.length == s.length || p.getLast? == some sep) with
        | true =>
          rw [hfront, if_pos rfl] at h
          rw [Bool.true_or]
          exact Option.some.inj h
        | false =>
          rw [hfront, if_neg Bool.false_ne_true] at h
          obtain ⟨c, hc, hb⟩ := Option.bind_eq_some_iff.mp h
          rw [hc, Bool.false_or, ← Option.some.inj hb]
          rfl

theorem isSub_of_checked {locale : Locale} {p s : Str} {sep : UInt8} {b : Bool}
    (h : isSubChecked locale s p sep = some b) : isSub locale s p sep = b := by
  rw [isSubChecked] at h
  rw [isSub]
  by_cases hlength : s.length ≤ p.length
  · rw [if_pos hlength] at h ⊢
    exact Option.some.inj h
  · rw [if_neg hlength] at h ⊢
    cases hd : strnicmpChecked locale s p p.length with
    | none =>
      rw [hd] at h
      cases h
    | some d =>
      rw [strnicmp_of_checked hd]
      rw [hd] at h
      simp only [Option.bind_eq_bind, Option.bind_some] at h
      by_cases hzero : d ≠ 0
      · rw [if_pos hzero] at h ⊢
        exact Option.some.inj h
      · rw [if_neg hzero] at h ⊢
        cases hfront : (p.isEmpty || p.getLast? == some sep) with
        | true =>
          rw [hfront, if_pos rfl] at h
          rw [Bool.true_or]
          exact Option.some.inj h
        | false =>
          rw [hfront, if_neg Bool.false_ne_true] at h
          obtain ⟨c, hc, hb⟩ := Option.bind_eq_some_iff.mp h
          rw [hc, Bool.false_or, ← Option.some.inj hb]
          rfl

/-! ## The loop over characters -/

/-- What a character is compared by. -/
def fold (locale : Locale) (c : Char) : Nat := locale.towlower c.val.toNat

/-- No null character is in a text. -/
def ZeroFree (cs : List Char) : Prop := ∀ c ∈ cs, c.val.toNat ≠ 0

/-- The characters that begin within the first `n` bytes. -/
def window : List Char → (n : Nat) → List Char
  | [], _ => []
  | d :: ds, n => if n = 0 then [] else d :: window ds (n - d.utf8Size)

/-- The characters that two texts have in common at their beginning, as the second one has them. -/
def common (locale : Locale) : List Char → List Char → List Char
  | c :: cs, d :: ds => if fold locale c = fold locale d then d :: common locale cs ds else []
  | _, _ => []

variable {locale : Locale} {c d : Char} {cs ds : List Char} {n fuel : Nat}

theorem ZeroFree.head (h : ZeroFree (c :: cs)) : c.val.toNat ≠ 0 := h c List.mem_cons_self

theorem ZeroFree.tail (h : ZeroFree (c :: cs)) :
    ZeroFree cs := fun d hd => h d (List.mem_cons_of_mem c hd)

theorem length_encode_cons (c : Char) (cs : List Char) :
    (encode (c :: cs)).length = c.utf8Size + (encode cs).length := by
  rw [encode, List.flatMap_cons, List.length_append, String.length_utf8EncodeChar]

theorem encode_append (cs ds : List Char) : encode (cs ++ ds) = encode cs ++ encode ds :=
  List.flatMap_append

theorem foldCase_encode (h : ZeroFree cs) : foldCase locale (encode cs) = cs.map (fold locale) := by
  induction cs with
  | nil => rfl
  | cons c cs ih =>
    rw [foldCase_cons cs h.head, ih h.tail]
    rfl

theorem foldWithinFrom_encode (h : ZeroFree ds) (i : Nat) :
    foldWithinFrom locale (fun i => decide (i < n)) 0 i (encode ds) =
      (window ds (n - i)).map (fold locale) := by
  induction ds generalizing i with
  | nil => rfl
  | cons d ds ih =>
    obtain ⟨b, s, henc, hb⟩ := encode_head d
    have hsize : s.length + 1 = d.utf8Size := by
      rw [← String.length_utf8EncodeChar, henc, List.length_cons]
    have hw := utf8ToWc_encode d (encode ds)
    have hne : b ≠ 0 := fun h0 => h.head (hb.mp h0)
    rw [henc, List.cons_append] at hw
    rw [encode, List.flatMap_cons, henc, List.cons_append, foldWithinFrom, window]
    by_cases hi : i < n
    · have hstop : ¬ (b = 0 ∨ decide (i < n) = false) := by simp [hne, hi]
      have hskip : (((b :: s).length : Int)).natAbs - 1 = s.length := by
        rw [List.length_cons]
        omega
      have hrest : n - i - d.utf8Size = n - (i + 1 + s.length) := by omega
      rw [if_neg hstop, if_neg (by omega), List.map_cons, hrest, ← ih h.tail]
      simp only [hw, hskip]
      rw [foldWithinFrom_skip, List.drop_left]
      rfl
    · have hstop : b = 0 ∨ decide (i < n) = false := Or.inr (by simp [hi])
      rw [if_pos hstop, if_pos (by omega)]
      rfl

theorem foldWithin_encode (h : ZeroFree ds) (n : Nat) :
    foldWithin locale n (encode ds) = (window ds n).map (fold locale) :=
  foldWithinFrom_encode h 0

/-- **What `strnicmp` compares**: the characters that begin within the first bytes, with as many of
    the second string. -/
theorem strnicmp_encode (hds : ZeroFree ds) (hfuel : ds.length < fuel) (hn : n ≤ (encode ds).length)
    (hrange : ¬ cs.map (fold locale) ++ [locale.towlower 0] <+: (window ds n).map (fold locale)) :
    strnicmp locale fuel (encode ds) (encode cs) n = 0 ↔
      (window ds n).map (fold locale) <+: cs.map (fold locale) := by
  induction fuel generalizing cs ds n with
  | zero => omega
  | succ fuel ih =>
    cases ds with
    | nil =>
      have hzero : n = 0 := Nat.le_zero.mp hn
      subst hzero
      simp [strnicmp, window]
    | cons d ds =>
      rw [strnicmp]
      rw [window] at hrange ⊢
      by_cases hzero : n = 0
      · simp [hzero]
      · rw [if_neg hzero] at hrange ⊢
        have hnot : (encode (d :: ds)).getD 0 0 ≠ 0 := fun h => hds.head ((getD_head _).mp h)
        have hd : (utf8ToWc (encode (d :: ds))).2 = d.val.toNat := utf8ToWc_head (d :: ds)
        have hsize : (utf8ToWc (encode (d :: ds))).1.natAbs = d.utf8Size := by
          rw [encode, List.flatMap_cons, utf8ToWc_encode]
          simp
        have hlength := length_encode_cons d ds
        rw [List.length_cons] at hfuel
        rw [if_neg hzero, hd, utf8ToWc_head, List.map_cons]
        cases cs with
        | nil =>
          have hne : fold locale d ≠ locale.towlower 0 := by
            intro heq
            refine hrange ?_
            simp [heq]
          have hdiff : (locale.towlower d.val.toNat : Int) - locale.towlower (headCode []) ≠ 0 := by
            rw [sub_ne_zero, Ne, Nat.cast_inj]
            exact hne
          rw [if_pos (Or.inr hdiff)]
          exact iff_of_false hdiff (by simp)
        | cons c cs =>
          rw [List.map_cons, List.cons_append, List.map_cons, List.cons_prefix_cons,
            not_and] at hrange
          rw [List.map_cons, List.cons_prefix_cons]
          by_cases hsame : fold locale d = fold locale c
          · have hdiff : ¬ ((locale.towlower d.val.toNat : Int) -
                locale.towlower (headCode (c :: cs)) ≠ 0) := by
              rw [not_not, sub_eq_zero, Nat.cast_inj]
              exact hsame
            rw [if_neg (not_or.mpr ⟨hnot, hdiff⟩), drop_head, drop_head, hsize,
              ih hds.tail (by omega) (by omega) (hrange hsame.symm), and_iff_right hsame]
          · have hdiff : (locale.towlower d.val.toNat : Int) -
                locale.towlower (headCode (c :: cs)) ≠ 0 := by
              rw [sub_ne_zero, Ne, Nat.cast_inj]
              exact hsame
            rw [if_pos (Or.inr hdiff)]
            exact iff_of_false hdiff fun h => hsame h.1

/-- In bytes: as many as are compared are in common. -/
theorem window_prefix_iff (hn : n ≤ (encode ds).length) :
    (window ds n).map (fold locale) <+: cs.map (fold locale) ↔
    n ≤ (encode (common locale cs ds)).length := by
  induction ds generalizing cs n with
  | nil =>
    have hzero : n = 0 := Nat.le_zero.mp hn
    simp [hzero, window]
  | cons d ds ih =>
    rw [window]
    by_cases hzero : n = 0
    · simp [hzero]
    · rw [length_encode_cons] at hn
      rw [if_neg hzero, List.map_cons]
      cases cs with
      | nil =>
        refine iff_of_false (by simp) ?_
        simp [common, hzero]
      | cons c cs =>
        rw [List.map_cons, List.cons_prefix_cons, common]
        by_cases hsame : fold locale c = fold locale d
        · rw [if_pos hsame, and_iff_right hsame.symm, ih (by omega), length_encode_cons]
          omega
        · rw [if_neg hsame]
          refine iff_of_false (fun h => hsame h.1.symm) ?_
          simp [hzero]

/-! ## Paths above others -/

/-- A path without the separator at its end. -/
def withoutTrailing (sep : Char) (cs : List Char) : List Char :=
  if cs.getLast? = some sep then cs.dropLast else cs

/-- The components of one path stand in front of those of the other, which goes on behind a
    separator at the end of the first one. -/
def IsParent (locale : Locale) (sep : Char) (cs ds : List Char) : Prop :=
  cs = [] ∨ ∃ rest, components (fold locale) sep ds =
      components (fold locale) sep (withoutTrailing sep cs) ++ rest ∧
    (cs.getLast? = some sep → rest ≠ [])

/-- The path goes on behind the other one. -/
def IsSub (locale : Locale) (sep : Char) (ds cs : List Char) : Prop :=
  IsParent locale sep cs ds ∧ cs.length < ds.length

/-- The characters of one path stand in front of those of the other, up to a separator. -/
def CharsMatch (locale : Locale) (sep : Char) (cs ds : List Char) : Prop :=
  cs.map (componentKey (fold locale) sep) <+: ds.map (componentKey (fold locale) sep) ∧
    (cs.getLast? = some sep ∨ cs.length = ds.length ∨ ds[cs.length]? = some sep)

/-- What the paths have in common takes as many bytes as the first one has, up to a separator. -/
def BytesMatch (locale : Locale) (sep : Char) (cs ds : List Char) : Prop :=
  (encode cs).length ≤ (encode (common locale cs ds)).length ∧
    ((encode cs).getLast? = some (chr sep) ∨ (encode cs).length = (encode ds).length ∨
      (encode ds)[(encode cs).length]? = some (chr sep))

variable {sep : Char} {es : List Char}

theorem concat_prefix_iff {α : Type} (l : List α) (x : α) (m : List α) :
    l ++ [x] <+: m ↔ l <+: m ∧ m[l.length]? = some x := by
  constructor
  · rintro ⟨t, rfl⟩
    exact ⟨⟨[x] ++ t, by simp⟩, by simp⟩
  · rintro ⟨⟨t, rfl⟩, hx⟩
    rw [List.getElem?_append_right (le_refl _), Nat.sub_self] at hx
    cases t with
    | nil => cases hx
    | cons y t =>
      obtain rfl := Option.some.inj hx
      exact ⟨t, by simp⟩

theorem componentKey_sep {c : Char} :
    componentKey (fold locale) sep c = componentKey (fold locale) sep sep ↔ c = sep := by
  rw [componentKey_eq_iff]
  constructor
  · rintro ⟨-, hsep⟩
    exact hsep.mpr rfl
  · rintro rfl
    exact ⟨rfl, Iff.rfl⟩

/-- **The components are compared by comparing the characters.** -/
theorem isParent_iff (hne : cs ≠ []) : IsParent locale sep cs ds ↔ CharsMatch locale sep cs ds := by
  rw [IsParent, or_iff_right hne, components_append_iff, CharsMatch, withoutTrailing]
  by_cases hlast : cs.getLast? = some sep
  · have hsplit : cs.dropLast ++ [sep] = cs := List.dropLast_append_getLast? sep hlast
    rw [if_pos hlast]
    simp only [hlast, not_true, false_and, false_or, true_or, and_true]
    conv_rhs => rw [← hsplit, List.map_append, List.map_singleton, concat_prefix_iff,
      List.length_map, List.getElem?_map, Option.map_eq_some_iff]
    refine and_congr_right fun _ => ?_
    simp only [componentKey_sep, exists_eq_right]
  · rw [if_neg hlast]
    simp [hlast]

/-- A separator is recognised by its key. -/
theorem map_key_eq_sep {o : Option Char} :
    o.map (componentKey (fold locale) sep) = some (componentKey (fold locale) sep sep) ↔
      o = some sep := by
  cases o with
  | none => simp
  | some c => rw [Option.map_some, Option.some.injEq, Option.some.injEq, componentKey_sep]

theorem charsMatch_trans (hcd : CharsMatch locale sep cs ds) (hde : CharsMatch locale sep ds es) :
    CharsMatch locale sep cs es := by
  obtain ⟨hpre, hcut⟩ := hcd
  obtain ⟨hpre', hcut'⟩ := hde
  refine ⟨hpre.trans hpre', ?_⟩
  rcases hcut with h | h | h
  · exact Or.inl h
  · have hsame := hpre.eq_of_length (by simpa using h)
    rw [h]
    refine Or.imp_left (fun hlast => ?_) hcut'
    rw [← map_key_eq_sep, ← List.getLast?_map] at hlast ⊢
    rw [hsame, hlast]
  · obtain ⟨t, ht⟩ := hpre'
    refine Or.inr (Or.inr ?_)
    have hlt : cs.length < (ds.map (componentKey (fold locale) sep)).length := by
      rw [List.length_map]
      exact (List.getElem?_eq_some_iff.mp h).1
    rw [← map_key_eq_sep, ← List.getElem?_map, ← ht, List.getElem?_append_left hlt,
      List.getElem?_map, h]
    rfl

theorem isParent_trans (hcd : IsParent locale sep cs ds) (hde : IsParent locale sep ds es) :
    IsParent locale sep cs es := by
  by_cases hne : cs = []
  · exact Or.inl hne
  · have hcd := (isParent_iff hne).mp hcd
    have hne' : ds ≠ [] := by
      rintro rfl
      have hnil := List.prefix_nil.mp hcd.1
      exact hne (List.map_eq_nil_iff.mp hnil)
    exact (isParent_iff hne).mpr (charsMatch_trans hcd ((isParent_iff hne').mp hde))

/-! ## What the functions return -/

/-- `strnicmp` stays in the upper path: behind all of its characters, no character of the other one
    that is compared is lowered to what the terminator is lowered to. -/
def Within (locale : Locale) (cs ds : List Char) : Prop :=
  (encode cs).length ≤ (encode ds).length →
    ¬ cs.map (fold locale) ++ [locale.towlower 0] <+:
      (window ds (encode cs).length).map (fold locale)

theorem common_le (cs ds : List Char) :
    (encode (common locale cs ds)).length ≤ (encode ds).length := by
  induction ds generalizing cs with
  | nil => cases cs <;> simp [common]
  | cons d ds ih =>
    cases cs with
    | nil => simp [common]
    | cons c cs =>
      rw [common]
      split
      · have hrest := ih cs
        rw [length_encode_cons, length_encode_cons]
        omega
      · simp

theorem strnicmpChecked_encode (hcs : ZeroFree cs) (hds : ZeroFree ds)
    (hn : (encode cs).length ≤ (encode ds).length) :
    (InRange (strnicmpChecked locale (encode ds) (encode cs) (encode cs).length) ↔
    Within locale cs ds) ∧
      ∀ d, strnicmpChecked locale (encode ds) (encode cs) (encode cs).length = some d →
        (d = 0 ↔ (encode cs).length ≤ (encode (common locale cs ds)).length) := by
  have hrange : InRange (strnicmpChecked locale (encode ds) (encode cs) (encode cs).length) ↔
      Within locale cs ds := by
    rw [strnicmp_inRange_iff, foldCase_encode hcs, foldWithin_encode hds, Within]
    exact ⟨fun h _ => h, fun h => h hn⟩
  refine ⟨hrange, fun d hd => ?_⟩
  have hwithin := hrange.mp (by rw [hd]; exact inRange_some d)
  have hlength : ds.length < (encode ds).length + 1 := Nat.lt_succ_of_le (length_encode_ge ds)
  rw [← strnicmp_of_checked hd, strnicmp_encode hds hlength hn (hwithin hn), window_prefix_iff hn]

/-- The byte behind the upper path. -/
theorem next_eq_some {s : Str} {i : Nat} {x : UInt8} (h : i < s.length) (b : Bool) :
    (s[i]?.bind fun c => some (c == x)) = some b ↔ (b = true ↔ s[i]? = some x) := by
  rw [List.getElem?_eq_getElem h, Option.bind_some, Option.some.injEq, Option.some.injEq]
  cases b <;> simp

theorem encode_ne_nil (h : cs ≠ []) : (encode cs).isEmpty = false := by
  cases cs with
  | nil => exact absurd rfl h
  | cons c cs =>
    have hpos := List.length_pos_of_ne_nil (String.utf8EncodeChar_ne_nil (c := c))
    rw [List.isEmpty_eq_false_iff, ← List.length_pos_iff, length_encode_cons,
      ← String.length_utf8EncodeChar]
    omega

/-- **`isParentOrExact` counts bytes.** -/
theorem isParentOrExactChecked_encode (hcs : ZeroFree cs) (hds : ZeroFree ds) (hne : cs ≠ [])
    (b : Bool) :
    isParentOrExactChecked locale (encode cs) (encode ds) (chr sep) = some b ↔
      Within locale cs ds ∧ (b = true ↔ BytesMatch locale sep cs ds) := by
  have hempty := encode_ne_nil hne
  have hcommon := @common_le locale cs ds
  have hloop := @strnicmpChecked_encode locale cs ds hcs hds
  have hvacuous : (encode ds).length < (encode cs).length → Within locale cs ds :=
    fun hlength h => absurd h (Nat.not_le.mpr hlength)
  rw [isParentOrExactChecked, BytesMatch]
  generalize encode cs = p, encode ds = s, encode (common locale cs ds) = m at *
  by_cases hlength : s.length < p.length
  · have hnot : ¬ p.length ≤ m.length := by omega
    rw [if_pos hlength]
    simp [hvacuous hlength, hnot, eq_comm]
  · obtain ⟨hrange, hzero⟩ := hloop (Nat.not_lt.mp hlength)
    rw [if_neg hlength, ← hrange]
    cases hd : strnicmpChecked locale s p p.length with
    | none => simp [InRange]
    | some d =>
      rw [← hzero d hd]
      simp only [Option.bind_eq_bind, Option.bind_some, inRange_some, true_and]
      by_cases hd0 : d = 0
      · rw [if_neg (not_not.mpr hd0)]
        simp only [hd0, true_and, hempty, Bool.false_or, Bool.or_eq_true, beq_iff_eq]
        by_cases hfront : p.length = s.length ∨ p.getLast? = some (chr sep)
        · have hmatch : p.getLast? = some (chr sep) ∨ p.length = s.length ∨
              s[p.length]? = some (chr sep) := by
            rcases hfront with h | h
            · exact Or.inr (Or.inl h)
            · exact Or.inl h
          rw [if_pos hfront]
          simp only [hmatch, Option.some.injEq, iff_true]
          exact eq_comm
        · obtain ⟨hlengthNe, hlastNe⟩ := not_or.mp hfront
          rw [if_neg hfront, next_eq_some (by omega)]
          simp [hlengthNe, hlastNe]
      · rw [if_pos hd0]
        simp [hd0, eq_comm]

/-- So does `isSub`. -/
theorem isSubChecked_encode (hcs : ZeroFree cs) (hds : ZeroFree ds) (hne : cs ≠ [])
    (hwithin : Within locale cs ds) (b : Bool) :
    isSubChecked locale (encode ds) (encode cs) (chr sep) = some b ↔
      (b = true ↔ (encode cs).length < (encode ds).length ∧ BytesMatch locale sep cs ds) := by
  have hempty := encode_ne_nil hne
  have hloop := @strnicmpChecked_encode locale cs ds hcs hds
  rw [isSubChecked, BytesMatch]
  generalize encode cs = p, encode ds = s, encode (common locale cs ds) = m at *
  by_cases hlength : s.length ≤ p.length
  · rw [if_pos hlength]
    simp [Nat.not_lt.mpr hlength, eq_comm]
  · have hlt := Nat.not_le.mp hlength
    obtain ⟨hrange, hzero⟩ := hloop hlt.le
    obtain ⟨d, hd⟩ := Option.isSome_iff_exists.mp (hrange.mpr hwithin)
    rw [if_neg hlength, ← hzero d hd, hd]
    simp only [Option.bind_eq_bind, Option.bind_some, hlt, true_and]
    by_cases hd0 : d = 0
    · rw [if_neg (not_not.mpr hd0)]
      simp only [hd0, true_and, hempty, Bool.false_or, beq_iff_eq, Nat.ne_of_lt hlt, false_or]
      by_cases hlast : p.getLast? = some (chr sep)
      · rw [if_pos hlast]
        simp [hlast, eq_comm]
      · rw [if_neg hlast, next_eq_some hlt]
        simp [hlast]
    · rw [if_pos hd0]
      simp [hd0, eq_comm]

/-! ## When the answers are right -/

/-- The functions stay in the paths and decide which ones are above others. -/
structure Decides (locale : Locale) (sep : Char) (cs ds : List Char) : Prop where
  parent : ∃ b, isParentOrExactChecked locale (encode cs) (encode ds) (chr sep) = some b ∧
    (b = true ↔ IsParent locale sep cs ds)
  sub : ∃ b, isSubChecked locale (encode ds) (encode cs) (chr sep) = some b ∧
    (b = true ↔ IsSub locale sep ds cs)

/-- Counting bytes is as good as counting characters. -/
structure Aligned (locale : Locale) (sep : Char) (cs ds : List Char) : Prop where
  within : Within locale cs ds
  parent : cs ≠ [] → (BytesMatch locale sep cs ds ↔ CharsMatch locale sep cs ds)
  sub : cs ≠ [] → CharsMatch locale sep cs ds →
    ((encode cs).length < (encode ds).length ↔ cs.length < ds.length)

theorem exists_answer_iff {P Q : Prop} :
    (∃ b : Bool, (b = true ↔ P) ∧ (b = true ↔ Q)) ↔ (P ↔ Q) := by
  classical
  constructor
  · rintro ⟨b, hp, hq⟩
    exact hp.symm.trans hq
  · intro h
    exact ⟨decide P, by simp, by simpa using h⟩

theorem within_nil : Within locale [] ds := by
  intro _
  cases ds <;> simp [window]

theorem length_encode_pos : 0 < (encode ds).length ↔ 0 < ds.length := by
  cases ds with
  | nil => simp
  | cons d ds =>
    have hge := length_encode_ge (d :: ds)
    refine iff_of_true (lt_of_lt_of_le ?_ hge) ?_ <;> simp

/-- Every path is below the empty one. -/
theorem decides_nil (hds : ZeroFree ds) : Decides locale sep [] ds := by
  have hzero : strnicmpChecked locale (encode ds) [] 0 = some 0 := by
    have hloop := @strnicmpChecked_encode locale [] ds (by simp [ZeroFree]) hds (Nat.zero_le _)
    obtain ⟨d, hd⟩ := Option.isSome_iff_exists.mp (hloop.1.mpr within_nil)
    have hd0 := (hloop.2 d hd).mpr (Nat.zero_le _)
    rw [← hd0]
    exact hd
  have hparent : IsParent locale sep [] ds := Or.inl rfl
  constructor
  · refine ⟨true, ?_, iff_of_true rfl hparent⟩
    show isParentOrExactChecked locale [] (encode ds) (chr sep) = some true
    simp [isParentOrExactChecked, hzero]
  · refine ⟨decide (0 < (encode ds).length), ?_, ?_⟩
    · show isSubChecked locale (encode ds) [] (chr sep) = some (decide (0 < (encode ds).length))
      rw [isSubChecked, List.length_nil, hzero]
      by_cases hlength : 0 < (encode ds).length
      · rw [if_neg (Nat.not_le.mpr hlength), decide_eq_true hlength]
        simp
      · rw [if_pos (Nat.not_lt.mp hlength), decide_eq_false hlength]
    · rw [decide_eq_true_eq, length_encode_pos, IsSub, and_iff_right hparent]
      rfl

theorem decides_iff (hcs : ZeroFree cs) (hds : ZeroFree ds) :
    Decides locale sep cs ds ↔ Aligned locale sep cs ds := by
  by_cases hne : cs = []
  · subst hne
    exact iff_of_true (decides_nil hds) ⟨within_nil, fun h => absurd rfl h, fun h => absurd rfl h⟩
  · have hparent : (∃ b, isParentOrExactChecked locale (encode cs) (encode ds) (chr sep) = some b ∧
        (b = true ↔ IsParent locale sep cs ds)) ↔
        Within locale cs ds ∧ (BytesMatch locale sep cs ds ↔ CharsMatch locale sep cs ds) := by
      simp only [isParentOrExactChecked_encode hcs hds hne, isParent_iff hne, and_assoc,
        exists_and_left, exists_answer_iff]
    have hsub : Within locale cs ds →
        ((∃ b, isSubChecked locale (encode ds) (encode cs) (chr sep) = some b ∧
          (b = true ↔ IsSub locale sep ds cs)) ↔
        ((encode cs).length < (encode ds).length ∧ BytesMatch locale sep cs ds ↔
          CharsMatch locale sep cs ds ∧ cs.length < ds.length)) := by
      intro hwithin
      simp only [isSubChecked_encode hcs hds hne hwithin, IsSub, isParent_iff hne,
        exists_answer_iff]
    constructor
    · rintro ⟨hp, hs⟩
      obtain ⟨hwithin, hmatch⟩ := hparent.mp hp
      have hs := (hsub hwithin).mp hs
      refine ⟨hwithin, fun _ => hmatch, fun _ hchars => ?_⟩
      simpa [hmatch, hchars] using hs
    · rintro ⟨hwithin, hmatch, hlength⟩
      refine ⟨hparent.mpr ⟨hwithin, hmatch hne⟩, (hsub hwithin).mpr ?_⟩
      rw [hmatch hne, and_comm]
      exact and_congr_right (hlength hne)

/-! ## Characters of equal length -/

/-- A byte of seven bits is a character of its own. -/
theorem utf8EncodeChar_of_mem {b : UInt8} (hb : b ∈ String.utf8EncodeChar c) (h : b.toNat < 128) :
    String.utf8EncodeChar c = [b] := by
  have hhigh : ∀ x y : UInt8, 128 ≤ y.toNat → (x ||| y).toNat < 128 → False := by
    intro x y hy hxy
    have hle := @Nat.right_le_or x.toNat y.toNat
    rw [UInt8.toNat_or] at hxy
    omega
  rcases c.utf8Size_eq with hsize | hsize | hsize | hsize
  · rw [String.utf8EncodeChar_eq_singleton hsize] at hb ⊢
    rw [List.mem_singleton.mp hb]
  · rw [String.utf8EncodeChar_eq_cons_cons hsize] at hb
    simp only [List.mem_cons, List.not_mem_nil, or_false] at hb
    rcases hb with rfl | rfl <;> exact (hhigh _ _ (by decide) h).elim
  · rw [String.utf8EncodeChar_eq_cons_cons_cons hsize] at hb
    simp only [List.mem_cons, List.not_mem_nil, or_false] at hb
    rcases hb with rfl | rfl | rfl <;> exact (hhigh _ _ (by decide) h).elim
  · rw [String.utf8EncodeChar_eq_cons_cons_cons_cons hsize] at hb
    simp only [List.mem_cons, List.not_mem_nil, or_false] at hb
    rcases hb with rfl | rfl | rfl | rfl <;> exact (hhigh _ _ (by decide) h).elim

theorem utf8EncodeChar_ascii (h : c.val.toNat < 128) : String.utf8EncodeChar c = [chr c] := by
  have hsize : c.utf8Size = 1 := by
    rw [Char.utf8Size_eq_one_iff, UInt32.le_iff_toNat_le]
    exact Nat.le_of_lt_succ h
  rw [String.utf8EncodeChar_eq_singleton hsize]
  rfl

theorem mem_utf8EncodeChar (hsep : sep.val.toNat < 128) :
    chr sep ∈ String.utf8EncodeChar c ↔ c = sep := by
  constructor
  · intro hmem
    have hbyte : (chr sep).toNat < 128 := by
      have hmod : (chr sep).toNat = sep.val.toNat % 256 := UInt8.toNat_ofNat'
      omega
    have hsame := (utf8EncodeChar_of_mem hmem hbyte).trans (utf8EncodeChar_ascii hsep).symm
    have hc := utf8ToWc_encode c []
    rw [hsame, utf8ToWc_encode] at hc
    exact Char.ext (UInt32.toNat_inj.mp (Prod.mk.inj hc).2.symm)
  · rintro rfl
    rw [utf8EncodeChar_ascii hsep]
    exact List.mem_singleton_self _

/-- A separator is recognised by its byte at the end of a path, -/
theorem getLast_encode (hsep : sep.val.toNat < 128) :
    (encode cs).getLast? = some (chr sep) ↔ cs.getLast? = some sep := by
  rcases List.eq_nil_or_concat cs with rfl | ⟨cs, c, rfl⟩
  · simp
  · have hne : String.utf8EncodeChar c ≠ [] := String.utf8EncodeChar_ne_nil
    rw [List.concat_eq_append, List.getLast?_append, encode, List.flatMap_append,
      List.flatMap_singleton, List.getLast?_append_of_ne_nil _ hne, List.getLast?_singleton,
      Option.some_or, Option.some.injEq]
    constructor
    · intro h
      exact (mem_utf8EncodeChar hsep).mp (List.mem_of_getLast? h)
    · rintro rfl
      rw [utf8EncodeChar_ascii hsep]
      rfl

/-- and at the beginning of what remains of it. -/
theorem getElem_encode (hsep : sep.val.toNat < 128) :
    (encode cs)[0]? = some (chr sep) ↔ cs[0]? = some sep := by
  cases cs with
  | nil => simp
  | cons c cs =>
    obtain ⟨b, s, henc, -⟩ := encode_head c
    rw [encode, List.flatMap_cons, henc, List.cons_append, List.getElem?_cons_zero,
      List.getElem?_cons_zero, Option.some.injEq, Option.some.injEq]
    constructor
    · rintro rfl
      refine (mem_utf8EncodeChar hsep).mp ?_
      rw [henc]
      exact List.mem_cons_self
    · rintro rfl
      rw [utf8EncodeChar_ascii hsep] at henc
      exact (List.cons.inj henc).1.symm

/-- Characters that are lowered to the same one take the same number of bytes, and both are
    separators or neither is. Nothing is lowered to what the terminator is lowered to. -/
structure Uniform (locale : Locale) (sep : Char) (cs ds : List Char) : Prop where
  same : ∀ c ∈ cs, ∀ d ∈ ds, fold locale c = fold locale d → c.utf8Size = d.utf8Size ∧
    (c = sep ↔ d = sep)
  terminator : ∀ d ∈ ds, fold locale d ≠ locale.towlower 0

theorem Uniform.tail (h : Uniform locale sep (c :: cs) (d :: ds)) : Uniform locale sep cs ds :=
  ⟨fun x hx y hy => h.same x (List.mem_cons_of_mem c hx) y (List.mem_cons_of_mem d hy),
    fun y hy => h.terminator y (List.mem_cons_of_mem d hy)⟩

theorem Uniform.head (h : Uniform locale sep (c :: cs) (d :: ds))
    (hsame : fold locale c = fold locale d) :
    c.utf8Size = d.utf8Size ∧ (c = sep ↔ d = sep) :=
  h.same c List.mem_cons_self d List.mem_cons_self hsame

theorem mem_window {e : Char} (h : e ∈ window ds n) : e ∈ ds := by
  induction ds generalizing n with
  | nil => cases h
  | cons d ds ih =>
    rw [window] at h
    split at h
    · cases h
    · rcases List.mem_cons.mp h with rfl | hmem
      · exact List.mem_cons_self
      · exact List.mem_cons_of_mem d (ih hmem)

theorem Uniform.common_iff (h : Uniform locale sep cs ds) :
    (encode cs).length ≤ (encode (common locale cs ds)).length ↔
      cs.map (componentKey (fold locale) sep) <+: ds.map (componentKey (fold locale) sep) := by
  induction cs generalizing ds with
  | nil => simp
  | cons c cs ih =>
    have hpos := Char.utf8Size_pos c
    cases ds with
    | nil =>
      rw [length_encode_cons]
      refine iff_of_false ?_ (by simp)
      simp [common]
      omega
    | cons d ds =>
      rw [length_encode_cons, common, List.map_cons, List.map_cons, List.cons_prefix_cons,
        componentKey_eq_iff]
      by_cases hsame : fold locale c = fold locale d
      · obtain ⟨hsize, hsep⟩ := h.head hsame
        rw [if_pos hsame, length_encode_cons, hsize, Nat.add_le_add_iff_left, ih h.tail]
        simp [hsame, hsep]
      · rw [if_neg hsame]
        refine iff_of_false ?_ fun hkeys => hsame hkeys.1.1
        simp
        omega

/-- As many bytes as the characters of the upper path have are as many characters. -/
theorem Uniform.split (h : Uniform locale sep cs ds)
    (hpre : cs.map (componentKey (fold locale) sep) <+: ds.map (componentKey (fold locale) sep)) :
    ∃ ms rs, ds = ms ++ rs ∧ ms.length = cs.length ∧ (encode ms).length = (encode cs).length := by
  induction cs generalizing ds with
  | nil => exact ⟨[], ds, rfl, rfl, rfl⟩
  | cons c cs ih =>
    cases ds with
    | nil => simp at hpre
    | cons d ds =>
      rw [List.map_cons, List.map_cons, List.cons_prefix_cons] at hpre
      obtain ⟨hsize, -⟩ := h.head (Prod.mk.inj hpre.1).1
      obtain ⟨ms, rs, rfl, hlength, hbytes⟩ := ih h.tail hpre.2
      refine ⟨d :: ms, rs, rfl, congrArg Nat.succ hlength, ?_⟩
      rw [length_encode_cons, length_encode_cons, hsize, hbytes]

/-- **Characters of equal length.** -/
theorem Uniform.aligned (hsep : sep.val.toNat < 128) (h : Uniform locale sep cs ds) :
    Aligned locale sep cs ds := by
  constructor
  · intro _ hpre
    have hmem : locale.towlower 0 ∈ (window ds (encode cs).length).map (fold locale) :=
      hpre.subset (by simp)
    obtain ⟨d, hd, hzero⟩ := List.mem_map.mp hmem
    exact h.terminator d (mem_window hd) hzero
  · intro _
    rw [BytesMatch, CharsMatch, h.common_iff]
    refine and_congr_right fun hpre => ?_
    obtain ⟨ms, rs, rfl, hlength, hbytes⟩ := h.split hpre
    have hbehind := @getElem_encode rs sep hsep
    rw [getLast_encode hsep, ← hbytes, ← hlength, encode_append,
      List.getElem?_append_right (le_refl _), List.getElem?_append_right (le_refl _), Nat.sub_self,
      Nat.sub_self, hbehind, List.length_append, List.length_append]
    have hrest := @length_encode_pos rs
    refine or_congr Iff.rfl (or_congr ?_ Iff.rfl)
    omega
  · intro _ hchars
    obtain ⟨ms, rs, rfl, hlength, hbytes⟩ := h.split hchars.1
    have hrest := @length_encode_pos rs
    rw [← hbytes, ← hlength, encode_append, List.length_append, List.length_append]
    omega

/-! ## The path relation -/

/-- The letter `İ`, of two bytes, is `i` in lower case. -/
def dottedLocale : Locale where
  towlower c := if c = 0x130 then 0x69 else if 0x41 ≤ c ∧ c ≤ 0x5a then c + 0x20 else c
  convert s _ := s

theorem Decides.isParentOrExact_iff (h : Decides locale sep cs ds) :
    isParentOrExact locale (encode cs) (encode ds) (chr sep) = true ↔
      IsParent locale sep cs ds := by
  obtain ⟨b, hb, hiff⟩ := h.parent
  rw [isParentOrExact_of_checked hb, hiff]

theorem Decides.isSub_iff (h : Decides locale sep cs ds) :
    isSub locale (encode ds) (encode cs) (chr sep) = true ↔ IsSub locale sep ds cs := by
  obtain ⟨b, hb, hiff⟩ := h.sub
  rw [isSub_of_checked hb, hiff]

theorem isSub_trans (hcd : IsSub locale sep ds cs) (hde : IsSub locale sep es ds) :
    IsSub locale sep es cs :=
  ⟨isParent_trans hcd.1 hde.1, hcd.2.trans hde.2⟩

/-- **Paths above others.** Where counting bytes is as good as counting characters, and only there,
    the functions decide which paths are above others. Characters of equal length are enough for it,
    and along such paths the answers are transitive. -/
theorem parents_decided (hsep : sep.val.toNat < 128) (hcs : ZeroFree cs) (hds : ZeroFree ds)
    (hes : ZeroFree es) :
    (Decides locale sep cs ds ↔ Aligned locale sep cs ds) ∧
    (Uniform locale sep cs ds → Aligned locale sep cs ds) ∧
    (Aligned locale sep cs ds → Aligned locale sep ds es → Aligned locale sep cs es →
      (isParentOrExact locale (encode cs) (encode ds) (chr sep) = true →
        isParentOrExact locale (encode ds) (encode es) (chr sep) = true →
        isParentOrExact locale (encode cs) (encode es) (chr sep) = true) ∧
      (isSub locale (encode ds) (encode cs) (chr sep) = true →
        isSub locale (encode es) (encode ds) (chr sep) = true →
        isSub locale (encode es) (encode cs) (chr sep) = true)) := by
  refine ⟨decides_iff hcs hds, Uniform.aligned hsep, fun hcd hde hce => ?_⟩
  have hcd := (decides_iff hcs hds).mpr hcd
  have hde := (decides_iff hds hes).mpr hde
  have hce := (decides_iff hcs hes).mpr hce
  rw [hcd.isParentOrExact_iff, hde.isParentOrExact_iff, hce.isParentOrExact_iff, hcd.isSub_iff,
    hde.isSub_iff, hce.isSub_iff]
  exact ⟨isParent_trans, isSub_trans⟩

theorem parents_decided_simple :
    Decides dottedLocale '/' ['/', 'a'] ['/', 'A', '/', 'b'] ∧
      isSub dottedLocale (encode ['/', 'a', '/', 'b', '/', 'c']) (encode ['/', 'a'])
        (chr '/') = true := by
  have hcd : Uniform dottedLocale '/' ['/', 'a'] ['/', 'A', '/', 'b'] :=
    ⟨by simp [fold, dottedLocale, Char.utf8Size], by simp [fold, dottedLocale]⟩
  have hde : Uniform dottedLocale '/' ['/', 'A', '/', 'b'] ['/', 'a', '/', 'b', '/', 'c'] :=
    ⟨by simp [fold, dottedLocale, Char.utf8Size], by simp [fold, dottedLocale]⟩
  have hce : Uniform dottedLocale '/' ['/', 'a'] ['/', 'a', '/', 'b', '/', 'c'] :=
    ⟨by simp [fold, dottedLocale, Char.utf8Size], by simp [fold, dottedLocale]⟩
  have hsep : '/'.val.toNat < 128 := by decide
  obtain ⟨hiff, haligned, htrans⟩ := @parents_decided dottedLocale ['/', 'a']
    ['/', 'A', '/', 'b'] '/'
    ['/', 'a', '/', 'b', '/', 'c'] hsep (by simp [ZeroFree]) (by simp [ZeroFree])
    (by simp [ZeroFree])
  refine ⟨hiff.mpr (haligned hcd), (htrans (haligned hcd) (hde.aligned hsep) (hce.aligned hsep)).2
    ?_ ?_⟩
  · decide +kernel
  · decide +kernel

/-- The path `/İ` is above `/i`, but it is the longer one. -/
theorem parents_miscounted :
    ¬ ∀ (locale : Locale) (cs ds : List Char), ZeroFree cs → ZeroFree ds →
      Decides locale '/' cs ds := by
  intro h
  have hdecides := h dottedLocale ['/', 'İ'] ['/', 'i'] (by simp [ZeroFree]) (by simp [ZeroFree])
  have hparent : IsParent dottedLocale '/' ['/', 'İ'] ['/', 'i'] := by
    refine Or.inr ⟨[], ?_, ?_⟩
    · decide +kernel
    · decide +kernel
  have htrue := hdecides.isParentOrExact_iff.mpr hparent
  revert htrue
  decide +kernel

/-- The other way round, `/İ/a` is taken for a path below `/ix`. -/
example : isSub dottedLocale (encode ['/', 'İ', '/', 'a']) (encode ['/', 'i', 'x'])
    (chr '/') = true := by
  decide +kernel

end Util
end Airdcpp
