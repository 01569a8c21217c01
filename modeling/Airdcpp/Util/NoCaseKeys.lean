import Airdcpp.Util.NoCaseBounds

/-!
# `Util/NoCaseKeys` — strings without regard to case as keys

The unordered maps of paths and names take `noCaseStringHash` and `noCaseStringEq`. The equality is
`stricmp`, which compares what `utf8ToWc` leaves in `c` for good and bad sequences up to the
terminator; the hash takes an underscore for a bad sequence and goes on to the end of the
`std::string`.

Two strings are equal when they have the same characters in lower case, or when the second one goes
on with a character that is lowered to what the null character is lowered to (`noCaseStringEq_iff`).
This is reflexive and transitive. It is symmetric, and respected by the hash, under the conditions
of `lawful_iff`; encoded text without null bytes meets them (`lawful_of_isUtf8`).
-/

namespace Airdcpp
namespace Util

open Text

variable {locale : Locale} {a b c s : Str}

/-- The loop of `noCaseStringHash`; `skip` bytes belong to the sequence before. -/
def hashFrom (locale : Locale) : (skip : Nat) → (x : UInt64) → Str → UInt64
  | _, x, [] => x
  | k + 1, x, _ :: s => hashFrom locale k x s
  | 0, x, c :: s =>
    let w := utf8ToWc (c :: s)
    if w.1 < 0 then hashFrom locale (w.1.natAbs - 1) (x * 32 - x + (chr '_').toUInt64) s
    else hashFrom locale (w.1.natAbs - 1) (x * 32 - x + (locale.towlower w.2).toUInt64) s

/-- `noCaseStringHash` -/
def noCaseStringHash (locale : Locale) (s : Str) : UInt64 := hashFrom locale 0 0 s

/-- `noCaseStringEq`, `none` when `stricmp` leaves a string. -/
def noCaseStringEq (locale : Locale) (a b : Str) : Option Bool :=
  (stricmpChecked locale a b).map (· == 0)

/-! ## Equality -/

/-- The first list ends, and the second one goes on as if it did. -/
theorem compareFolds_eq_zero_iff {z : Nat} (as bs : List Nat) :
    compareFolds z true as bs = some 0 ↔ as = bs ∨ as ++ [z] <+: bs := by
  induction as generalizing bs with
  | nil =>
    cases bs with
    | nil => simp [compareFolds]
    | cons y bs =>
      rw [compareFolds, List.nil_append, List.cons_prefix_cons]
      simp [sub_eq_zero]
  | cons x as ih =>
    cases bs with
    | nil =>
      rw [compareFolds]
      refine iff_of_false ?_ (by simp)
      by_cases hsame : x = z
      · rw [if_pos hsame]
        exact Option.some_ne_none 0 ∘ Eq.symm
      · rw [if_neg hsame]
        simpa [sub_eq_zero] using hsame
    | cons y bs =>
      rw [compareFolds, List.cons_append, List.cons_prefix_cons, List.cons.injEq]
      by_cases hsame : x = y
      · rw [if_pos hsame, ih, and_iff_right hsame, and_iff_right hsame]
      · rw [if_neg hsame]
        simp [sub_eq_zero, hsame]

theorem noCaseStringEq_iff :
    noCaseStringEq locale a b = some true ↔
      foldCase locale a = foldCase locale b ∨
        foldCase locale a ++ [locale.towlower 0] <+: foldCase locale b := by
  rw [← compareFolds_eq_zero_iff, ← stricmpChecked_eq, noCaseStringEq]
  simp

theorem noCaseStringEq_refl (locale : Locale) (a : Str) : noCaseStringEq locale a a = some true :=
  noCaseStringEq_iff.mpr (.inl rfl)

theorem noCaseStringEq_trans (hab : noCaseStringEq locale a b = some true)
    (hbc : noCaseStringEq locale b c = some true) : noCaseStringEq locale a c = some true := by
  rw [noCaseStringEq_iff] at hab hbc ⊢
  rcases hab with hab | hab
  · rwa [hab]
  · rcases hbc with hbc | hbc
    · exact .inr (hbc ▸ hab)
    · exact .inr (hab.trans ((List.prefix_append _ _).trans hbc))

/-! ## Hash -/

/-- What the hash takes for the sequences of a string. -/
def hashed (locale : Locale) (s : Str) : List Nat :=
  (sequences s).map fun w => if w.1 < 0 then (chr '_').toNat else locale.towlower w.2

theorem hashFrom_skip (k : Nat) (x : UInt64) (s : Str) :
    hashFrom locale k x s = hashFrom locale 0 x (s.drop k) := by
  induction k generalizing s with
  | zero => rfl
  | succ k ih =>
    cases s with
    | nil => rfl
    | cons c s => exact ih s

theorem hashed_cons (c : UInt8) (s : Str) :
    hashed locale (c :: s) =
      (if (utf8ToWc (c :: s)).1 < 0 then (chr '_').toNat
        else locale.towlower (utf8ToWc (c :: s)).2) ::
      hashed locale ((c :: s).drop (utf8ToWc (c :: s)).1.natAbs) := by
  rw [hashed, sequences_cons]
  rfl

/-- One round of the loop, in numbers. -/
theorem toNat_step (x : UInt64) (u : Nat) :
    (x * 32 - x + u.toUInt64).toNat = (31 * x.toNat + u) % 2 ^ 64 := by
  have hx : x * 32 - x = x * 31 := by grind
  rw [hx, UInt64.toNat_add, UInt64.toNat_mul, Nat.toUInt64, UInt64.toNat_ofNat']
  simp only [UInt64.reduceToNat, Nat.mod_add_mod, Nat.add_mod_mod, Nat.mul_comm]

/-- **The hash is a numeral to the base of 31.** -/
theorem toNat_hashFrom (x : UInt64) (s : Str) :
    (hashFrom locale 0 x s).toNat =
      Nat.ofDigits 31 ((hashed locale s).reverse ++ [x.toNat]) % 2 ^ 64 := by
  induction s using sequence_induction generalizing x with
  | nil =>
    change x.toNat = Nat.ofDigits 31 [x.toNat] % 2 ^ 64
    rw [Nat.ofDigits_singleton, Nat.mod_eq_of_lt x.toNat_lt]
  | cons c s ih =>
    have hskip : (c :: s).drop (utf8ToWc (c :: s)).1.natAbs =
        s.drop ((utf8ToWc (c :: s)).1.natAbs - 1) := by
      obtain ⟨n, hn⟩ := Nat.exists_eq_add_of_le' (utf8ToWc_length c s).1
      rw [hn]
      rfl
    -- the characters that follow, and the one that is added to the sum
    have hround : ∀ u : Nat, (hashFrom locale ((utf8ToWc (c :: s)).1.natAbs - 1)
        (x * 32 - x + u.toUInt64) s).toNat =
        Nat.ofDigits 31 ((u :: hashed locale
          ((c :: s).drop (utf8ToWc (c :: s)).1.natAbs)).reverse ++ [x.toNat]) % 2 ^ 64 := by
      intro u
      rw [hashFrom_skip, ← hskip, ih, toNat_step, List.reverse_cons, List.append_assoc,
        List.singleton_append, Nat.ofDigits_append, Nat.ofDigits_append, Nat.ofDigits_singleton,
        Nat.ofDigits_cons, Nat.ofDigits_singleton, Nat.add_comm u]
      exact Nat.ModEq.add_left _ (Nat.ModEq.mul_left _ (Nat.mod_modEq _ _))
    rw [hashFrom, hashed_cons]
    by_cases hbad : (utf8ToWc (c :: s)).1 < 0
    · rw [if_pos hbad, if_pos hbad, ← hround]
      rfl
    · rw [if_neg hbad, if_neg hbad, ← hround]

theorem toNat_noCaseStringHash (locale : Locale) (s : Str) :
    (noCaseStringHash locale s).toNat =
      Nat.ofDigits 31 (hashed locale s).reverse % 2 ^ 64 := by
  rw [noCaseStringHash, toNat_hashFrom, Nat.ofDigits_append]
  simp

/-! ## Keys -/

/-- What an unordered map asks of its keys. -/
structure Lawful (locale : Locale) (a b c : Str) : Prop where
  refl : noCaseStringEq locale a a = some true
  symm : noCaseStringEq locale a b = some true → noCaseStringEq locale b a = some true
  trans : noCaseStringEq locale a b = some true → noCaseStringEq locale b c = some true →
    noCaseStringEq locale a c = some true
  hash : noCaseStringEq locale a b = some true →
    noCaseStringHash locale a = noCaseStringHash locale b

theorem not_prefix_of_symm (h : noCaseStringEq locale a b = some true →
    noCaseStringEq locale b a = some true) :
    ¬ foldCase locale a ++ [locale.towlower 0] <+: foldCase locale b := by
  intro hpre
  have hlen := hpre.length_le
  rw [List.length_append, List.length_singleton] at hlen
  rcases noCaseStringEq_iff.mp (h (noCaseStringEq_iff.mpr (.inr hpre))) with heq | hback
  · rw [heq] at hlen
    omega
  · have hlen' := hback.length_le
    rw [List.length_append, List.length_singleton] at hlen'
    omega

/-- A bad sequence is compared by what is left in `c`, and hashed as an underscore. -/
theorem equal_keys_with_two_hashes :
    ¬ ∀ (locale : Locale) (a b c : Str), Lawful locale a b c := by
  intro h
  have hhash := (h ⟨id, fun s _ => s⟩ [0xc3, 0x61] [0x03, 0x61] []).hash
  revert hhash
  decide +kernel

/-- **When strings are lawful keys.** The equality is symmetric unless the second string goes on
    behind the characters of the first one as if it had ended, and equal characters have one hash
    if what is hashed for them, underscores for bad sequences and all that comes behind a null byte
    with it, makes one numeral. -/
theorem lawful_iff (locale : Locale) (a b c : Str) :
    Lawful locale a b c ↔
      ¬ foldCase locale a ++ [locale.towlower 0] <+: foldCase locale b ∧
      (foldCase locale a = foldCase locale b →
        Nat.ofDigits 31 (hashed locale a).reverse ≡
          Nat.ofDigits 31 (hashed locale b).reverse [MOD 2 ^ 64]) := by
  constructor
  · intro h
    refine ⟨not_prefix_of_symm h.symm, fun hfold => ?_⟩
    have hhash := congrArg UInt64.toNat (h.hash (noCaseStringEq_iff.mpr (.inl hfold)))
    rwa [toNat_noCaseStringHash, toNat_noCaseStringHash] at hhash
  · rintro ⟨hend, hnumeral⟩
    have hfold : noCaseStringEq locale a b = some true → foldCase locale a = foldCase locale b :=
      fun heq => (noCaseStringEq_iff.mp heq).resolve_right hend
    refine ⟨noCaseStringEq_refl locale a, fun heq => ?_, noCaseStringEq_trans, fun heq => ?_⟩
    · exact noCaseStringEq_iff.mpr (.inl (hfold heq).symm)
    · apply UInt64.toNat.inj
      rw [toNat_noCaseStringHash, toNat_noCaseStringHash]
      exact hnumeral (hfold heq)

/-! ## Encoded text -/

theorem hashed_encode_cons (c : Char) (cs : List Char) :
    hashed locale (encode (c :: cs)) =
      locale.towlower c.val.toNat :: hashed locale (encode cs) := by
  have hread := utf8ToWc_encode c (encode cs)
  have hdrop := drop_head c cs
  obtain ⟨b, s, henc, -⟩ := encode_head c
  have hcons : encode (c :: cs) = b :: (s ++ encode cs) := by
    rw [encode, List.flatMap_cons, henc, List.cons_append]
  rw [henc, List.cons_append] at hread
  rw [hcons] at hdrop
  rw [hcons, hashed_cons, hdrop, hread, if_neg (Int.not_lt.mpr (Int.natCast_nonneg _))]

/-- Of encoded text without null bytes all characters are compared, and hashed. -/
theorem hashed_encode {cs : List Char} (hzero : (0 : UInt8) ∉ encode cs) :
    hashed locale (encode cs) = foldCase locale (encode cs) := by
  induction cs with
  | nil => rfl
  | cons c cs ih =>
    rw [encode, List.flatMap_cons, List.mem_append, not_or] at hzero
    obtain ⟨hfirst, hrest⟩ := hzero
    have hc : c.val.toNat ≠ 0 := by
      obtain ⟨b, s, henc, hb⟩ := encode_head c
      intro hc
      rw [henc, hb.mpr hc] at hfirst
      exact hfirst List.mem_cons_self
    rw [hashed_encode_cons, foldCase_cons cs hc, ih hrest]

/-- Encoded text without null bytes is a lawful key. -/
theorem lawful_of_isUtf8 (hlower : ∀ c, locale.towlower c = locale.towlower 0 → c = 0)
    (ha : IsUtf8 a) (hb : IsUtf8 b) (hazero : (0 : UInt8) ∉ a) (hbzero : (0 : UInt8) ∉ b)
    (c : Str) : Lawful locale a b c := by
  obtain ⟨as, rfl⟩ := ha
  obtain ⟨bs, rfl⟩ := hb
  rw [lawful_iff]
  refine ⟨fun hpre => ?_, fun hfold => ?_⟩
  · exact notMem_foldCase hlower bs (hpre.subset (by simp))
  · rw [hashed_encode hazero, hashed_encode hbzero, hfold]

end Util
end Airdcpp
