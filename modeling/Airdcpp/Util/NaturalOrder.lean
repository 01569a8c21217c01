import Airdcpp.Lib.StrictWeak
import Airdcpp.Util.DefaultSort

/-!
# `Util/NaturalOrder` — what `DefaultSort` sorts

By their tokens strings are ordered like words, numbers before characters (`Token.key`). The
comparison follows this order where it does not go wrong (`compareTokens_eq_order`), and it goes
wrong in two ways: digits that do not come to an end on either side, or a character that is taken
for the terminator of the other string, which is then left (`GoesWrong`).

`sortsOn_iff` says which sets of strings `DefaultSort` sorts; encoded text is one
(`sortsOn_isUtf8`).
-/

namespace Airdcpp
namespace Util

open Text

variable {locale : Locale} {z : Nat} {as bs : List Token} {t u : Token} {a b : Str}

/-! ## Where the comparison goes wrong -/

/-- The first string goes on behind the second one with what the null character is lowered to, or
    both come to digits at the same place, of which some do not come to an end. -/
def GoesWrong (z : Nat) (as bs : List Token) : Prop :=
  bs ++ [.char z] <+: as ∨
    ∃ p t u, t.isNumeric = true ∧ u.isNumeric = true ∧ (t = .stuck ∨ u = .stuck) ∧
      p ++ [t] <+: as ∧ p ++ [u] <+: bs

theorem append_not_prefix_nil (p : List Token) (t : Token) : ¬ p ++ [t] <+: [] := fun h =>
  List.append_ne_nil_of_right_ne_nil p (List.cons_ne_nil t []) (List.prefix_nil.mp h)

theorem not_goesWrong_nil : ¬ GoesWrong z [] bs := by
  rintro (h | ⟨p, t, u, -, -, -, h, -⟩)
  · exact append_not_prefix_nil bs _ h
  · exact append_not_prefix_nil p t h

theorem goesWrong_cons_nil : GoesWrong z (t :: as) [] ↔ t = .char z := by
  constructor
  · rintro (h | ⟨p, t', u, -, -, -, -, h⟩)
    · exact (List.cons_prefix_cons.mp h).1.symm
    · exact absurd h (append_not_prefix_nil p u)
  · rintro rfl
    exact .inl (List.cons_prefix_cons.mpr ⟨rfl, List.nil_prefix⟩)

theorem goesWrong_cons_cons :
    GoesWrong z (t :: as) (u :: bs) ↔
      (t.isNumeric = true ∧ u.isNumeric = true ∧ (t = .stuck ∨ u = .stuck)) ∨
        t = u ∧ GoesWrong z as bs := by
  constructor
  · rintro (h | ⟨p, t', u', ht, hu, hstuck, hpt, hpu⟩)
    · rw [List.cons_append, List.cons_prefix_cons] at h
      exact .inr ⟨h.1.symm, .inl h.2⟩
    · rcases p with _ | ⟨x, p⟩
      · obtain ⟨rfl, -⟩ := List.cons_prefix_cons.mp hpt
        obtain ⟨rfl, -⟩ := List.cons_prefix_cons.mp hpu
        exact .inl ⟨ht, hu, hstuck⟩
      · rw [List.cons_append, List.cons_prefix_cons] at hpt hpu
        exact .inr ⟨hpt.1.symm.trans hpu.1,
          .inr ⟨p, t', u', ht, hu, hstuck, hpt.2, hpu.2⟩⟩
  · rintro (⟨ht, hu, hstuck⟩ | ⟨rfl, h | ⟨p, t', u', ht, hu, hstuck, hpt, hpu⟩⟩)
    · exact .inr ⟨[], t, u, ht, hu, hstuck, List.cons_prefix_cons.mpr ⟨rfl, List.nil_prefix⟩,
        List.cons_prefix_cons.mpr ⟨rfl, List.nil_prefix⟩⟩
    · exact .inl (List.cons_prefix_cons.mpr ⟨rfl, h⟩)
    · exact .inr ⟨t :: p, t', u', ht, hu, hstuck, List.cons_prefix_cons.mpr ⟨rfl, hpt⟩,
        List.cons_prefix_cons.mpr ⟨rfl, hpu⟩⟩

theorem compareTokens_inRange_iff :
    InRange (compareTokens z as bs) ↔ ¬ GoesWrong z as bs := by
  induction as generalizing bs with
  | nil => cases bs <;> exact iff_of_true (inRange_some _) not_goesWrong_nil
  | cons t as ih =>
    cases bs with
    | nil =>
      rw [goesWrong_cons_nil, compareTokens]
      by_cases ht : t = .char z
      · rw [if_pos ht]
        exact iff_of_false not_inRange_none (not_not.mpr ht)
      · rw [if_neg ht]
        exact iff_of_true (inRange_some _) ht
    | cons u bs =>
      rw [goesWrong_cons_cons, compareTokens]
      by_cases hkind : t.isNumeric ≠ u.isNumeric
      · rw [if_pos hkind]
        refine iff_of_true (inRange_some _) ?_
        rintro (⟨ht, hu, -⟩ | ⟨rfl, -⟩)
        · exact hkind (ht.trans hu.symm)
        · exact hkind rfl
      · have hsame := not_not.mp hkind
        rw [if_neg hkind]
        by_cases hstuck : t = .stuck ∨ u = .stuck
        · rw [if_pos hstuck]
          have hnumeric : t.isNumeric = true := by
            rcases hstuck with rfl | rfl
            · rfl
            · exact hsame
          exact iff_of_false not_inRange_none
            (not_not.mpr (.inl ⟨hnumeric, hsame ▸ hnumeric, hstuck⟩))
        · rw [if_neg hstuck]
          by_cases htu : t = u
          · rw [if_pos htu, ih, or_iff_right (fun h => hstuck h.2.2), and_iff_right htu]
          · rw [if_neg htu]
            exact iff_of_true (inRange_some _) (by simp [htu, hstuck])

theorem defaultSort_inRange_iff (hnull : NullLeast locale) (a b : Str) :
    InRange (defaultSort locale a b) ↔
      ¬ GoesWrong (locale.towlower 0) (tokens locale a) (tokens locale b) := by
  rw [← compareTokens_inRange_iff, ← defaultSort_sign hnull, InRange, InRange, Option.isSome_map]

/-! ## The order of the tokens -/

/-- Numbers come before characters. -/
def Token.key (t : Token) : ℕ ×ₗ ℤ := toLex (if t.isNumeric then 0 else 1, t.value)

def keys (as : List Token) : List (ℕ ×ₗ ℤ) := as.map Token.key

/-- The sign of a comparison. -/
def order {α : Type*} [LinearOrder α] (x y : α) :
    Int := if x < y then -1 else if x = y then 0 else 1

theorem order_of_lt {α : Type*} [LinearOrder α] {x y : α} (h : x < y) : order x y = -1 := if_pos h

theorem order_self {α : Type*} [LinearOrder α] (x : α) : order x x = 0 := by simp [order]

theorem order_symm {α : Type*} [LinearOrder α] (x y : α) : order y x = - order x y := by
  rcases lt_trichotomy x y with h | rfl | h
  · simp [order, h, h.not_gt, h.ne']
  · simp [order]
  · simp [order, h, h.not_gt, h.ne']

theorem order_neg_iff {α : Type*} [LinearOrder α] {x y : α} : order x y < 0 ↔ x < y := by
  rcases lt_trichotomy x y with h | rfl | h
  · simp [order, h]
  · simp [order]
  · simp [order, h.not_gt, h.ne']

theorem order_cons {α : Type*} [LinearOrder α] (x : α) (l m : List α) :
    order (x :: l) (x :: m) = order l m := by
  rcases lt_trichotomy l m with h | rfl | h
  · rw [order_of_lt h, order_of_lt (List.cons_lt_cons_iff.mpr (.inr ⟨rfl, h⟩))]
  · rw [order_self, order_self]
  · rw [order_symm, order_symm m, order_of_lt h,
      order_of_lt (List.cons_lt_cons_iff.mpr (.inr ⟨rfl, h⟩))]

theorem key_lt_of_kind (ht : t.isNumeric = true) (hu : u.isNumeric = false) : t.key < u.key := by
  rw [Token.key, Token.key, Prod.Lex.toLex_lt_toLex]
  exact .inl (by simp [ht, hu])

theorem key_lt_iff (h : t.isNumeric = u.isNumeric) : t.key < u.key ↔ t.value < u.value := by
  rw [Token.key, Token.key, Prod.Lex.toLex_lt_toLex, h]
  simp

theorem key_inj (ht : t ≠ .stuck) (hu : u ≠ .stuck) (h : t.key = u.key) : t = u := by
  have hpair := toLex.injective h
  cases t with
  | char x =>
    cases u with
    | char y => simpa [Token.isNumeric, Token.value] using hpair
    | number w => simp [Token.isNumeric] at hpair
    | stuck => exact absurd rfl hu
  | number v =>
    cases u with
    | char y => simp [Token.isNumeric] at hpair
    | number w => simpa [Token.isNumeric, Token.value] using hpair
    | stuck => exact absurd rfl hu
  | stuck => exact absurd rfl ht

/-- **Where it does not go wrong, the comparison is that of the keys.** -/
theorem compareTokens_eq_order (ha : .stuck ∉ as) (hb : .stuck ∉ bs)
    (hab : ¬ as ++ [.char z] <+: bs) (hba : ¬ bs ++ [.char z] <+: as) :
    compareTokens z as bs = some (order (keys as) (keys bs)) := by
  induction as generalizing bs with
  | nil =>
    cases bs with
    | nil => rfl
    | cons u bs =>
      have hu : u ≠ .char z := by
        rintro rfl
        exact hab (List.cons_prefix_cons.mpr ⟨rfl, List.nil_prefix⟩)
      rw [compareTokens, if_neg hu]
      rfl
  | cons t as ih =>
    cases bs with
    | nil =>
      have ht : t ≠ .char z := by
        rintro rfl
        exact hba (List.cons_prefix_cons.mpr ⟨rfl, List.nil_prefix⟩)
      rw [compareTokens, if_neg ht]
      rfl
    | cons u bs =>
      rw [List.mem_cons, not_or] at ha hb
      rw [List.cons_append, List.cons_prefix_cons] at hab hba
      have hkeys : ∀ {t : Token} {as : List Token}, keys (t :: as) = t.key :: keys as := rfl
      rw [compareTokens, hkeys, hkeys]
      by_cases hkind : t.isNumeric ≠ u.isNumeric
      · rw [if_pos hkind]
        by_cases ht : t.isNumeric = true
        · have hu : u.isNumeric = false := by
            rw [ht] at hkind
            exact eq_false_of_ne_true hkind.symm
          rw [if_pos ht, order_of_lt (List.cons_lt_cons_iff.mpr (.inl (key_lt_of_kind ht hu)))]
        · have hu : u.isNumeric = true := by
            rw [eq_false_of_ne_true ht] at hkind
            exact Bool.eq_true_of_not_eq_false hkind.symm
          have hlt := key_lt_of_kind hu (eq_false_of_ne_true ht)
          rw [if_neg ht, order_symm, order_of_lt (List.cons_lt_cons_iff.mpr (.inl hlt))]
          rfl
      · have hsame := not_not.mp hkind
        have hstuck : ¬ (t = .stuck ∨ u = .stuck) := not_or.mpr ⟨Ne.symm ha.1, Ne.symm hb.1⟩
        rw [if_neg hkind, if_neg hstuck]
        by_cases htu : t = u
        · subst htu
          rw [if_pos rfl, ih ha.2 hb.2 (fun h => hab ⟨rfl, h⟩) (fun h => hba ⟨rfl, h⟩), order_cons]
        · rw [if_neg htu]
          rcases lt_trichotomy t.key u.key with hlt | heq | hgt
          · rw [if_pos ((key_lt_iff hsame).mp hlt),
              order_of_lt (List.cons_lt_cons_iff.mpr (.inl hlt))]
          · exact absurd (key_inj (Ne.symm ha.1) (Ne.symm hb.1) heq) htu
          · rw [if_neg ((key_lt_iff hsame.symm).mp hgt).not_gt, order_symm,
              order_of_lt (List.cons_lt_cons_iff.mpr (.inl hgt))]
            rfl

/-! ## Sets that are sorted -/

/-- `DefaultSort(a, b) < 0` -/
def sortsBefore (locale : Locale) (a b : Str) : Bool := (defaultSort locale a b).any (· < 0)

/-- What sorting asks of the comparison of some strings: its loops end within the strings, its sign
    changes with the order of the arguments, and it is a strict weak order. -/
structure SortsOn (locale : Locale) (S : Set Str) : Prop where
  inRange : ∀ a ∈ S, ∀ b ∈ S, InRange (defaultSort locale a b)
  antisymm : ∀ a ∈ S, ∀ b ∈ S, ∀ d e, defaultSort locale a b = some d →
    defaultSort locale b a = some e → e.sign = - d.sign
  order : Lib.StrictWeakOn S fun a b => sortsBefore locale a b = true

theorem sortsOn_iff (hnull : NullLeast locale) (S : Set Str) :
    SortsOn locale S ↔
      (∀ a ∈ S, .stuck ∉ tokens locale a) ∧
        ∀ a ∈ S, ∀ b ∈ S, ¬ tokens locale b ++ [.char (locale.towlower 0)] <+: tokens locale a := by
  constructor
  · intro h
    refine ⟨fun a ha hstuck => ?_, fun a ha b hb hpre => ?_⟩
    · obtain ⟨p, q, hpq⟩ := List.append_of_mem hstuck
      have hpre : p ++ [.stuck] <+: tokens locale a := ⟨q, by rw [hpq]; simp⟩
      exact (defaultSort_inRange_iff hnull a a).mp (h.inRange a ha a ha)
        (.inr ⟨p, .stuck, .stuck, rfl, rfl, .inl rfl, hpre, hpre⟩)
    · exact (defaultSort_inRange_iff hnull a b).mp (h.inRange a ha b hb) (.inl hpre)
  · rintro ⟨hstuck, hpre⟩
    have hsign : ∀ a ∈ S, ∀ b ∈ S, (defaultSort locale a b).map Int.sign =
        some (order (keys (tokens locale a)) (keys (tokens locale b))) := by
      intro a ha b hb
      rw [defaultSort_sign hnull, compareTokens_eq_order (hstuck a ha) (hstuck b hb)
        (hpre b hb a ha) (hpre a ha b hb)]
    refine ⟨fun a ha b hb => ?_, fun a ha b hb d e hd he => ?_, ?_⟩
    · have h := hsign a ha b hb
      cases hd : defaultSort locale a b with
      | none =>
        rw [hd] at h
        cases h
      | some d => exact inRange_some d
    · have hab := hsign a ha b hb
      have hba := hsign b hb a ha
      rw [hd] at hab
      rw [he] at hba
      rw [Option.some.inj hab, Option.some.inj hba, order_symm]
    · refine Lib.strictWeakOn_of_key (fun a => keys (tokens locale a)) fun a ha b hb => ?_
      have h := hsign a ha b hb
      cases hd : defaultSort locale a b with
      | none =>
        rw [hd] at h
        cases h
      | some d =>
        rw [hd] at h
        rw [← order_neg_iff, ← Option.some.inj h, Int.sign_neg_iff, sortsBefore, hd]
        simp

/-- A continuation byte behind a digit keeps the digit in `c`: the loop goes back to it, again and
    again. -/
theorem digits_go_back :
    ¬ ∀ (locale : Locale) (S : Set Str), NullLeast locale → SortsOn locale S := by
  intro h
  have hsorts := h ⟨id, fun s _ => s⟩ Set.univ fun _ => Nat.pos_of_ne_zero
  have hrange := hsorts.inRange [0x31, 0x80] trivial [0x31] trivial
  revert hrange
  decide +kernel

/-- **When `DefaultSort` sorts.** A comparison ends within its strings unless it goes wrong, and the
    strings of a set are sorted when each of them has digits that come to an end and none goes on
    behind another one with what the null character is lowered to. -/
theorem defaultSort_sorts_iff (locale : Locale) (hnull : NullLeast locale) :
    (∀ a b, InRange (defaultSort locale a b) ↔
      ¬ GoesWrong (locale.towlower 0) (tokens locale a) (tokens locale b)) ∧
    ∀ S : Set Str, SortsOn locale S ↔
      (∀ a ∈ S, .stuck ∉ tokens locale a) ∧
        ∀ a ∈ S, ∀ b ∈ S, ¬ tokens locale b ++ [.char (locale.towlower 0)] <+: tokens locale a :=
  ⟨defaultSort_inRange_iff hnull, sortsOn_iff hnull⟩

theorem defaultSort_sorts_numbers : SortsOn ⟨id, fun s _ => s⟩ {str "a2", str "a10"} := by
  refine ((defaultSort_sorts_iff ⟨id, fun s _ => s⟩ fun _ => Nat.pos_of_ne_zero).2 _).mpr ⟨?_, ?_⟩
  · rintro a (rfl | rfl) <;> decide +kernel
  · rintro a (rfl | rfl) b (rfl | rfl) <;> decide +kernel

/-! ## Encoded text -/

/-- Characters neither stop a run nor look like the terminator. -/
theorem tokensFrom_encode (hnull : NullLeast locale) (run : Option (Int × Nat)) (cs : List Char) :
    ∀ t ∈ tokensFrom locale 0 run (encode cs), t ≠ .stuck ∧ t ≠ .char (locale.towlower 0) := by
  induction cs generalizing run with
  | nil =>
    rcases run with _ | ⟨v, c⟩
    · simp [encode, tokensFrom]
    · simp [encode, tokensFrom]
  | cons c cs ih =>
    obtain ⟨b, r, henc, hb⟩ := encode_head c
    have hread : ∀ k, utf8ToWcFrom k (b :: (r ++ encode cs)) =
        (((r.length + 1 : Nat) : Int), c.val.toNat) := by
      intro k
      have h := utf8ToWcFrom_encode k c (encode cs)
      rwa [henc] at h
    have hnext : ∀ run, tokensFrom locale ((((r.length + 1 : Nat) : Int)).natAbs - 1) run
        (r ++ encode cs) = tokensFrom locale 0 run (encode cs) := by
      intro run
      rw [Int.natAbs_natCast, Nat.add_sub_cancel, tokensFrom_skip, List.drop_left]
    have hchar : b ≠ 0 → ∀ run, ∀ t ∈ Token.char (locale.towlower c.val.toNat) ::
        tokensFrom locale 0 run (encode cs), t ≠ .stuck ∧ t ≠ .char (locale.towlower 0) := by
      intro hne run t ht
      rcases List.mem_cons.mp ht with rfl | ht
      · have hlt := hnull _ (fun h => hne (hb.mpr h))
        simpa using hlt.ne'
      · exact ih run t ht
    rw [encode, List.flatMap_cons, henc, List.cons_append]
    rcases run with _ | ⟨v, d⟩
    · rw [tokensFrom, utf8ToWc, hread]
      dsimp only
      rw [hnext, hnext]
      by_cases hzero : b = 0
      · simp [hzero]
      · rw [if_neg hzero]
        by_cases hdigit : iswdigit c.val.toNat = true
        · rw [if_pos hdigit]
          exact ih _
        · rw [if_neg hdigit]
          exact hchar hzero none
    · rw [tokensFrom, hread]
      dsimp only
      rw [hnext, hnext]
      by_cases hzero : b = 0
      · simp [hzero]
      · rw [if_neg hzero]
        by_cases hdigit : iswdigit c.val.toNat = true
        · rw [if_pos hdigit, if_neg (by omega)]
          exact ih _
        · rw [if_neg hdigit]
          intro t ht
          rcases List.mem_cons.mp ht with rfl | ht
          · simp
          · exact hchar hzero none t ht

/-- **Encoded text is sorted.** -/
theorem sortsOn_isUtf8 (hnull : NullLeast locale) : SortsOn locale {s | IsUtf8 s} := by
  rw [sortsOn_iff hnull]
  refine ⟨?_, ?_⟩
  · rintro a ⟨cs, rfl⟩ hstuck
    exact (tokensFrom_encode hnull none cs _ hstuck).1 rfl
  · rintro a ⟨cs, rfl⟩ b - hpre
    exact (tokensFrom_encode hnull none cs _ (hpre.subset (by simp))).2 rfl

end Util
end Airdcpp
