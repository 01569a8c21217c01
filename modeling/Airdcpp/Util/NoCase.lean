import Airdcpp.Util.Strings

/-!
# `Util/NoCase` — names without regard to case

The maps of directories are ordered by `noCaseStringLess`, that is by the sign of `stricmp`: two
names are one key when their characters are the same in lower case (`Util/NoCaseKeys`). `foldCase`
is what they have in common.
-/

namespace Airdcpp
namespace Util

/-- The code points in lower case, up to a null byte; `skip` bytes belong to the one before. -/
def foldFrom (locale : Locale) : (skip : Nat) → Str → List Nat
  | _, [] => []
  | k + 1, _ :: s => foldFrom locale k s
  | 0, c :: s =>
    if c = 0 then []
    else
      let w := Text.utf8ToWc (c :: s)
      locale.towlower w.2 :: foldFrom locale (w.1.natAbs - 1) s

def foldCase (locale : Locale) (s : Str) : List Nat := foldFrom locale 0 s

/-- `noCaseStringLess` takes the names for one key. -/
def sameNoCase (locale : Locale) (a b : Str) : Bool := stricmp locale (a.length + 1) a b == 0

theorem foldFrom_append {locale : Locale} {k : Nat} {s : Str} (hk : s.length = k) (rest : Str) :
    foldFrom locale k (s ++ rest) = foldFrom locale 0 rest := by
  induction s generalizing k with
  | nil =>
    subst hk
    rfl
  | cons c s ih =>
    subst hk
    exact ih rfl

theorem utf8ToWc_zero (s : Str) : Text.utf8ToWc (0 :: s) = (1, 0) := by
  simp [Text.utf8ToWc, Text.utf8ToWcFrom]

/-- An encoded character begins with a null byte only if it is one. -/
theorem encode_head (c : Char) :
    ∃ b s, String.utf8EncodeChar c = b :: s ∧ (b = 0 ↔ c.val.toNat = 0) := by
  obtain ⟨b, s, henc⟩ := List.exists_cons_of_ne_nil (String.utf8EncodeChar_ne_nil (c := c))
  refine ⟨b, s, henc, ?_⟩
  constructor
  · rintro rfl
    have hw := Text.utf8ToWc_encode c []
    rw [henc, List.cons_append, utf8ToWc_zero] at hw
    exact (Prod.mk.inj hw).2.symm
  · intro hc
    obtain rfl : c = Char.ofNat 0 := by
      apply Char.ext
      apply UInt32.toNat.inj
      exact hc
    have hzero : String.utf8EncodeChar (Char.ofNat 0) = [0] := by decide
    rw [hzero] at henc
    exact (List.cons.inj henc).1.symm

/-- The bytes of some characters. -/
abbrev encode (cs : List Char) : Str := cs.flatMap String.utf8EncodeChar

theorem foldCase_zero {locale : Locale} {c : Char} (cs : List Char) (hc : c.val.toNat = 0) :
    foldCase locale (encode (c :: cs)) = [] := by
  obtain ⟨b, s, henc, hb⟩ := encode_head c
  rw [encode, List.flatMap_cons, henc, List.cons_append, foldCase, foldFrom, if_pos (hb.mpr hc)]

theorem foldCase_cons {locale : Locale} {c : Char} (cs : List Char) (hc : c.val.toNat ≠ 0) :
    foldCase locale (encode (c :: cs)) =
      locale.towlower c.val.toNat :: foldCase locale (encode cs) := by
  obtain ⟨b, s, henc, hb⟩ := encode_head c
  have hw := Text.utf8ToWc_encode c (encode cs)
  rw [henc, List.cons_append] at hw
  rw [encode, List.flatMap_cons, henc, List.cons_append, foldCase, foldFrom,
    if_neg (fun h => hc (hb.mp h))]
  simp only [hw]
  congr 1
  exact foldFrom_append (by simp only [List.length_cons]; omega) _

/-- The first character; behind the end there is a null byte. -/
def headCode : List Char → Nat
  | [] => 0
  | c :: _ => c.val.toNat

theorem utf8ToWc_head (cs : List Char) : (Text.utf8ToWc (encode cs)).2 = headCode cs := by
  cases cs with
  | nil => rfl
  | cons c cs => rw [encode, List.flatMap_cons, Text.utf8ToWc_encode, headCode]

theorem getD_head (cs : List Char) : (encode cs).getD 0 0 = 0 ↔ headCode cs = 0 := by
  cases cs with
  | nil => exact iff_of_true rfl rfl
  | cons c cs =>
    obtain ⟨b, s, henc, hb⟩ := encode_head c
    rw [encode, List.flatMap_cons, henc, headCode]
    exact hb

theorem drop_head (c : Char) (cs : List Char) :
    (encode (c :: cs)).drop (Text.utf8ToWc (encode (c :: cs))).1.natAbs = encode cs := by
  rw [encode, List.flatMap_cons, Text.utf8ToWc_encode]
  exact List.drop_left

theorem length_encode_ge (cs : List Char) : cs.length ≤ (encode cs).length := by
  induction cs with
  | nil => exact le_refl _
  | cons c cs ih =>
    have hpos := List.length_pos_of_ne_nil (String.utf8EncodeChar_ne_nil (c := c))
    have htail : cs.length ≤ (cs.flatMap String.utf8EncodeChar).length := ih
    rw [encode, List.flatMap_cons, List.length_append, List.length_cons]
    omega

/-! ## Parent directories -/

/-- `strnicmp`: the characters that begin within the first `n` bytes. -/
def strnicmp (locale : Locale) : (fuel : Nat) → (a b : Str) → (n : Nat) → Int
  | 0, _, _, _ => 0
  | fuel + 1, a, b, n =>
    let wa := Text.utf8ToWc a
    let wb := Text.utf8ToWc b
    let d : Int := locale.towlower wa.2 - locale.towlower wb.2
    if n = 0 then 0
    else if a.getD 0 0 = 0 ∨ d ≠ 0 then d
    else strnicmp locale fuel (a.drop wa.1.natAbs) (b.drop wb.1.natAbs) (n - wa.1.natAbs)

/-- `isParentOrExact` -/
def isParentOrExact (locale : Locale) (aTestParent aSub : Str) (aSeparator : UInt8) : Bool :=
  if aSub.length < aTestParent.length then false
  else if strnicmp locale (aSub.length + 1) aSub aTestParent aTestParent.length ≠ 0 then false
  else
    -- either the parent must end with a separator or it must follow in the subdirectory
    aTestParent.isEmpty || aTestParent.length == aSub.length ||
      aTestParent.getLast? == some aSeparator || aSub[aTestParent.length]? == some aSeparator

end Util
end Airdcpp
