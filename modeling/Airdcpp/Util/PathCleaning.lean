import Airdcpp.Util.PathUtil

/-!
# `Util/PathCleaning` — which paths `validatePath` leaves where they are

`validatePath` is not idempotent in the presence of a separator added afterwards: `..` and
`foo.` are left alone, `../` and `foo./` behind a directory are not. What decides is pairs of
neighbouring bytes. `IsClean` says that no byte but the first makes up a pair with the next
that some loop of `cleanPathChars` would edit.

`cleanPathChars` makes paths clean (`isClean_cleanPathChars`), and it does not touch the clean
beginning of a path up to a separator (`cleanPathChars_append`). The two together say when a
directory path validated again is still a beginning of itself
(`validatePath_prefix_iff`): it is a clean path, followed at most by empty and `.` components,
which go.
-/

namespace Airdcpp
namespace PathUtil

/-- Neighbours that no loop of `cleanPathChars` edits. -/
def Plain (x y : UInt8) : Prop :=
  ¬ (x = DOT ∧ (y = PATH_SEPARATOR ∨ y = BACKSLASH)) ∧
    ¬ (x = y ∧ (x = PATH_SEPARATOR ∨ x = BACKSLASH))

instance (x y : UInt8) : Decidable (Plain x y) := inferInstanceAs (Decidable (_ ∧ _))

/-- All neighbours behind the first byte are plain. -/
def IsClean (p : Str) : Prop := p.tail.IsChain Plain

/-- The two separators the loops run for. -/
def IsSeparator (s : UInt8) : Prop := s = PATH_SEPARATOR ∨ s = BACKSLASH

theorem IsSeparator.ne_dot {s : UInt8} (hs : IsSeparator s) : s ≠ DOT := by
  rcases hs with rfl | rfl <;> decide

theorem IsSeparator.ne_underscore {s : UInt8} (hs : IsSeparator s) : UNDERSCORE ≠ s := by
  rcases hs with rfl | rfl <;> decide

theorem Plain.not_dot {x y s : UInt8} (h : Plain x y) (hs : IsSeparator s) :
    ¬ (x = DOT ∧ y = s) := fun ⟨hx, hy⟩ => h.1 ⟨hx, hy ▸ hs⟩

theorem Plain.not_double {x y s : UInt8} (h : Plain x y) (hs : IsSeparator s) :
    ¬ (x = s ∧ y = s) := fun ⟨hx, hy⟩ => h.2 ⟨hx.trans hy.symm, hx ▸ hs⟩

/-! ## The loops behind a byte -/

theorem eraseDots_false_cons (s c : UInt8) (l : Str) :
    eraseDots s false (c :: l) = c :: eraseDots s (c == s) l := by
  cases l with
  | nil => simp [eraseDots]
  | cons d l => simp [eraseDots]

theorem eraseDoubles_false_cons (s c : UInt8) (l : Str) :
    eraseDoubles s false (c :: l) = c :: eraseDoubles s (c == s) l := by
  simp [eraseDoubles]

theorem eraseDoublesFrom_cons (s c : UInt8) (l : Str) :
    eraseDoublesFrom s false (c :: l) = c :: eraseDoubles s false l := rfl

theorem replaceDotDot_false_cons (s c : UInt8) (l : Str) :
    replaceDotDot s false (c :: l) = c :: replaceDotDot s (c == s) l := by
  rcases l with _ | ⟨d, _ | ⟨e, l⟩⟩ <;> simp [replaceDotDot]

theorem replaceEndDots_true_cons (s c : UInt8) (l : Str) :
    replaceEndDots s true (c :: l) = c :: replaceEndDots s false l := by
  cases l with
  | nil => simp [replaceEndDots]
  | cons d l => simp [replaceEndDots]

/-! ## Clean beginnings are left alone -/

section Chains

variable {s : UInt8} {t : Str} (w : Str)

theorem eraseDots_chain (hs : IsSeparator s) (ht : t.IsChain Plain)
    (hlast : t.getLast? = some PATH_SEPARATOR) (after : Bool) :
    eraseDots s after (t ++ w) = t ++ eraseDots s (PATH_SEPARATOR == s) w := by
  induction t generalizing after with
  | nil => cases hlast
  | cons x t ih =>
    cases t with
    | nil =>
      obtain rfl : x = PATH_SEPARATOR := by simpa using hlast
      cases w with
      | nil => simp [eraseDots]
      | cons d w =>
        have : (PATH_SEPARATOR == DOT) = false := by decide
        simp [eraseDots, this]
    | cons y t =>
      have hxy := List.isChain_cons_cons.mp ht
      have hne : (after && x == DOT && y == s) = false := by
        have := hxy.1.not_dot hs
        simp only [Bool.and_eq_false_iff, beq_eq_false_iff_ne]
        tauto
      rw [List.cons_append, List.cons_append, eraseDots, hne, if_neg Bool.false_ne_true,
        ← List.cons_append, ih hxy.2 (by simpa using hlast)]
      rfl

theorem eraseDoubles_chain (hs : IsSeparator s) (ht : t.IsChain Plain)
    (hlast : t.getLast? = some PATH_SEPARATOR) (after : Bool)
    (hafter : after = true → t.head? ≠ some s) :
    eraseDoubles s after (t ++ w) = t ++ eraseDoubles s (PATH_SEPARATOR == s) w := by
  induction t generalizing after with
  | nil => cases hlast
  | cons x t ih =>
    have hx : (after && x == s) = false := by
      cases after with
      | false => rfl
      | true => simpa using hafter rfl
    rw [List.cons_append, eraseDoubles, hx, if_neg Bool.false_ne_true]
    cases t with
    | nil =>
      obtain rfl : x = PATH_SEPARATOR := by simpa using hlast
      rfl
    | cons y t =>
      have hxy := List.isChain_cons_cons.mp ht
      rw [ih hxy.2 (by simpa using hlast) (x == s) fun h hy => ?_]
      · rfl
      · exact hxy.1.not_double hs ⟨by simpa using h, by simpa using hy⟩

theorem replaceDotDot_chain (hs : IsSeparator s) (ht : t.IsChain Plain)
    (hlast : t.getLast? = some PATH_SEPARATOR) (after : Bool) :
    replaceDotDot s after (t ++ w) = t ++ replaceDotDot s (PATH_SEPARATOR == s) w := by
  induction t generalizing after with
  | nil => cases hlast
  | cons x t ih =>
    have hsep : (PATH_SEPARATOR == DOT) = false := by decide
    cases t with
    | nil =>
      obtain rfl : x = PATH_SEPARATOR := by simpa using hlast
      rcases w with _ | ⟨d, _ | ⟨e, w⟩⟩ <;> simp [replaceDotDot, hsep]
    | cons y t =>
      have hxy := List.isChain_cons_cons.mp ht
      have ih' := ih hxy.2 (by simpa using hlast) (x == s)
      -- the third byte of a match would follow a dot
      have hstep : replaceDotDot s after (x :: y :: (t ++ w)) =
          x :: replaceDotDot s (x == s) (y :: (t ++ w)) := by
        cases t with
        | nil =>
          obtain rfl : y = PATH_SEPARATOR := by simpa using hlast
          cases w with
          | nil => simp [replaceDotDot]
          | cons e w => simp [replaceDotDot, hsep]
        | cons z t =>
          have hyz := (List.isChain_cons_cons.mp hxy.2).1
          have hne : (after && x == DOT && y == DOT && z == s) = false := by
            have := hyz.not_dot hs
            simp only [Bool.and_eq_false_iff, beq_eq_false_iff_ne]
            tauto
          rw [List.cons_append, replaceDotDot, hne, if_neg Bool.false_ne_true]
      rw [List.cons_append, List.cons_append, hstep, ← List.cons_append, ih']
      rfl

theorem replaceEndDots_chain (hs : IsSeparator s) (ht : t.IsChain Plain)
    (hlast : t.getLast? = some PATH_SEPARATOR) :
    replaceEndDots s false (t ++ w) = t ++ replaceEndDots s false w := by
  induction t with
  | nil => cases hlast
  | cons x t ih =>
    cases t with
    | nil =>
      obtain rfl : x = PATH_SEPARATOR := by simpa using hlast
      have : (PATH_SEPARATOR == DOT) = false := by decide
      cases w with
      | nil => simp [replaceEndDots]
      | cons d w => simp [replaceEndDots, this]
    | cons y t =>
      have hxy := List.isChain_cons_cons.mp ht
      have hne : (x == DOT && y == s && !false) = false := by
        have := hxy.1.not_dot hs
        simp only [Bool.and_eq_false_iff, beq_eq_false_iff_ne]
        tauto
      rw [List.cons_append, List.cons_append, replaceEndDots, hne, if_neg Bool.false_ne_true,
        ← List.cons_append, ih hxy.2 (by simpa using hlast)]
      rfl

end Chains

/-- What the loops make of the part behind a clean beginning that ends in a separator;
    `long` says that the beginning is more than one byte. -/
def cleanRest (long : Bool) (w : Str) : Str :=
  let w := eraseDots PATH_SEPARATOR true (eraseDots BACKSLASH false w)
  let w := eraseDoubles PATH_SEPARATOR long (eraseDoubles BACKSLASH false w)
  let w := replaceDotDot PATH_SEPARATOR true (replaceDotDot BACKSLASH false w)
  replaceEndDots PATH_SEPARATOR false (replaceEndDots BACKSLASH false w)

theorem isSeparator_slash : IsSeparator PATH_SEPARATOR := Or.inl rfl

theorem isSeparator_backslash : IsSeparator BACKSLASH := Or.inr rfl

/-- **A clean beginning stays**, up to its last separator. -/
theorem cleanPathChars_append {u w : Str} (hu : IsClean u)
    (hlast : u.getLast? = some PATH_SEPARATOR) (hbad : ∀ c ∈ u ++ w, isBadChar c = false) :
    cleanPathChars (u ++ w) false = u ++ cleanRest (decide (1 < u.length)) w := by
  have hmap : replaceBadChars (u ++ w) = u ++ w := by
    unfold replaceBadChars
    conv_rhs => rw [← List.map_id (u ++ w)]
    exact List.map_congr_left fun c hc => by simp [hbad c hc]
  have hbs : (PATH_SEPARATOR == BACKSLASH) = false := by decide
  unfold cleanPathChars cleanRest
  rw [hmap]
  simp only [Bool.false_eq_true, if_false]
  cases u with
  | nil => cases hlast
  | cons c t =>
    cases t with
    | nil =>
      obtain rfl : c = PATH_SEPARATOR := by simpa using hlast
      simp only [List.cons_append, List.nil_append, eraseDots_false_cons, eraseDoublesFrom_cons,
        replaceDotDot_false_cons, replaceEndDots_true_cons, hbs, beq_self_eq_true,
        List.length_cons, List.length_nil]
      rfl
    | cons d t =>
      have ht : (d :: t).IsChain Plain := hu
      have hl : (d :: t).getLast? = some PATH_SEPARATOR := by simpa using hlast
      have hlong : decide (1 < (c :: d :: t).length) = true := by simp
      rw [hlong]
      generalize d :: t = t at ht hl
      simp only [List.cons_append, eraseDots_false_cons,
        eraseDots_chain _ isSeparator_slash ht hl, eraseDots_chain _ isSeparator_backslash ht hl,
        eraseDoublesFrom_cons, eraseDoubles_chain _ isSeparator_slash ht hl false (by simp),
        eraseDoubles_chain _ isSeparator_backslash ht hl false (by simp),
        replaceDotDot_false_cons, replaceDotDot_chain _ isSeparator_slash ht hl,
        replaceDotDot_chain _ isSeparator_backslash ht hl, replaceEndDots_true_cons,
        replaceEndDots_chain _ isSeparator_slash ht hl,
        replaceEndDots_chain _ isSeparator_backslash ht hl, hbs, beq_self_eq_true]

/-! ## Loops that only write underscores -/

/-- The same bytes, some of them `_` instead. -/
abbrev Masked (p p' : Str) : Prop :=
  List.Forall₂ (fun c c' => c' = c ∨ c' = UNDERSCORE) p p'

theorem masked_refl (p : Str) : Masked p p :=
  List.forall₂_same.mpr fun _ _ => Or.inl rfl

theorem Masked.trans {p q r : Str} (h₁ : Masked p q) (h₂ : Masked q r) : Masked p r := by
  induction h₁ generalizing r with
  | nil => exact h₂
  | cons hc _ ih =>
    cases h₂ with
    | cons hd h₂ =>
      refine List.Forall₂.cons ?_ (ih h₂)
      rcases hd with rfl | rfl
      · exact hc
      · exact Or.inr rfl

theorem masked_replaceDotDot (s : UInt8) :
    ∀ (after : Bool) (p : Str), Masked p (replaceDotDot s after p)
  | after, c :: d :: e :: rest => by
    rw [replaceDotDot]
    split
    · exact .cons (Or.inr rfl) (.cons (Or.inr rfl) (.cons (Or.inr rfl)
        (masked_replaceDotDot s false rest)))
    · exact .cons (Or.inl rfl) (masked_replaceDotDot s _ (d :: e :: rest))
  | _, [] => masked_refl []
  | _, [c] => masked_refl [c]
  | _, [c, d] => masked_refl [c, d]

theorem masked_replaceEndDots (s : UInt8) :
    ∀ (first : Bool) (p : Str), Masked p (replaceEndDots s first p)
  | first, c :: d :: rest => by
    rw [replaceEndDots]
    refine .cons ?_ (masked_replaceEndDots s false (d :: rest))
    split
    · exact Or.inr rfl
    · exact Or.inl rfl
  | _, [] => masked_refl []
  | _, [c] => masked_refl [c]

theorem masked_loops (w : Str) (first after : Bool) : Masked w
    (replaceEndDots PATH_SEPARATOR first (replaceEndDots BACKSLASH first
      (replaceDotDot PATH_SEPARATOR after (replaceDotDot BACKSLASH false w)))) :=
  (((masked_replaceDotDot BACKSLASH false w).trans (masked_replaceDotDot PATH_SEPARATOR after
    _)).trans
    (masked_replaceEndDots BACKSLASH first _)).trans (masked_replaceEndDots PATH_SEPARATOR first _)

/-! ## Empty and `.` components -/

/-- Components `.` and, with `empties`, empty ones, each with its separator. -/
inductive Trailing (empties : Bool) : Str → Prop
  | nil : Trailing empties []
  | dot {w : Str} (h : Trailing empties w) : Trailing empties (DOT :: PATH_SEPARATOR :: w)
  | empty {w : Str} (he : empties = true) (h : Trailing empties w) :
      Trailing empties (PATH_SEPARATOR :: w)

theorem Trailing.notMem {b : Bool} {w : Str} (h : Trailing b w) : BACKSLASH ∉ w := by
  induction h with
  | nil => simp
  | dot _ ih => simp only [List.mem_cons, not_or]; exact ⟨by decide, by decide, ih⟩
  | empty _ _ ih => simp only [List.mem_cons, not_or]; exact ⟨by decide, ih⟩

theorem eraseDots_sublist (s : UInt8) : ∀ (after : Bool) (p : Str), (eraseDots s after p).Sublist p
  | after, c :: d :: rest => by
    rw [eraseDots]
    split
    · exact ((eraseDots_sublist s true rest).cons d).cons c
    · exact (eraseDots_sublist s _ (d :: rest)).cons_cons c
  | _, [] => List.Sublist.refl _
  | _, [c] => List.Sublist.refl _

theorem eraseDoubles_sublist (s : UInt8) :
    ∀ (after : Bool) (p : Str), (eraseDoubles s after p).Sublist p
  | after, c :: rest => by
    rw [eraseDoubles]
    split
    · exact (eraseDoubles_sublist s true rest).cons c
    · exact (eraseDoubles_sublist s _ rest).cons_cons c
  | _, [] => List.Sublist.refl _

theorem eraseDots_of_notMem {s : UInt8} : ∀ {w : Str}, s ∉ eraseDots s false w →
    eraseDots s false w = w
  | [], _ => rfl
  | c :: w, h => by
    rw [eraseDots_false_cons, List.mem_cons, not_or] at h
    have hc : (c == s) = false := beq_eq_false_iff_ne.mpr (Ne.symm h.1)
    rw [hc] at h
    rw [eraseDots_false_cons, hc, eraseDots_of_notMem h.2]

theorem eraseDoubles_of_notMem {s : UInt8} : ∀ {w : Str}, s ∉ eraseDoubles s false w →
    eraseDoubles s false w = w
  | [], _ => rfl
  | c :: w, h => by
    rw [eraseDoubles_false_cons, List.mem_cons, not_or] at h
    have hc : (c == s) = false := beq_eq_false_iff_ne.mpr (Ne.symm h.1)
    rw [hc] at h
    rw [eraseDoubles_false_cons, hc, eraseDoubles_of_notMem h.2]

theorem eraseDoubles_eq_nil_iff {s : UInt8} {after : Bool} {w : Str} :
    eraseDoubles s after w = [] ↔ ∃ k, w = List.replicate k s ∧ (after = true ∨ k = 0) := by
  induction w generalizing after with
  | nil => exact ⟨fun _ => ⟨0, rfl, Or.inr rfl⟩, fun _ => by simp [eraseDoubles]⟩
  | cons c w ih =>
    rw [eraseDoubles]
    constructor
    · intro h
      split at h
      · next hc =>
        simp only [Bool.and_eq_true, beq_iff_eq] at hc
        obtain ⟨k, rfl, -⟩ := ih.mp h
        exact ⟨k + 1, by rw [hc.2, List.replicate_succ], Or.inl hc.1⟩
      · cases h
    · rintro ⟨k, hk, hafter⟩
      cases k with
      | zero => cases hk
      | succ k =>
        rw [List.replicate_succ, List.cons.injEq] at hk
        have ha : after = true := hafter.resolve_right (by omega)
        rw [ha, hk.1, beq_self_eq_true, Bool.and_self, if_pos rfl]
        exact ih.mpr ⟨k, hk.2, Or.inl rfl⟩

/-- Behind a separator, dots are erased down to the empty components. -/
theorem eraseDots_eq_replicate_iff {b : Bool} : ∀ {w : Str},
    (∃ k, eraseDots PATH_SEPARATOR true w = List.replicate k PATH_SEPARATOR ∧
      (b = true ∨ k = 0)) ↔ Trailing b w
  | [] => ⟨fun _ => .nil, fun _ => ⟨0, by simp [eraseDots], Or.inr rfl⟩⟩
  | [c] => by
    constructor
    · rintro ⟨k, hk, hb⟩
      rw [eraseDots] at hk
      · cases k with
        | zero => cases hk
        | succ k =>
          rw [List.replicate_succ, List.cons.injEq] at hk
          rw [hk.1]
          exact .empty (hb.resolve_right (by omega)) .nil
      · simp
    · intro h
      cases h with
      | empty he _ => exact ⟨1, by simp [eraseDots], Or.inl he⟩
  | c :: d :: rest => by
    have ihr : _ ↔ Trailing b rest := eraseDots_eq_replicate_iff
    have ihd : _ ↔ Trailing b (d :: rest) := eraseDots_eq_replicate_iff
    rw [eraseDots]
    by_cases hc : (true && c == DOT && d == PATH_SEPARATOR) = true
    · rw [if_pos hc, ihr]
      simp only [Bool.true_and, Bool.and_eq_true, beq_iff_eq] at hc
      rw [hc.1, hc.2]
      constructor
      · exact .dot
      · intro h
        cases h with
        | dot h => exact h
    · rw [if_neg hc]
      constructor
      · rintro ⟨k, hk, hb⟩
        cases k with
        | zero => cases hk
        | succ k =>
          rw [List.replicate_succ, List.cons.injEq] at hk
          obtain ⟨rfl, hk⟩ := hk
          rw [beq_self_eq_true] at hk
          have hbt : b = true := hb.resolve_right (by omega)
          exact .empty hbt (ihd.mp ⟨k, hk, Or.inl hbt⟩)
      · intro h
        cases h with
        | dot h => exact absurd rfl hc
        | empty he h =>
          obtain ⟨k, hk, -⟩ := ihd.mpr h
          exact ⟨k + 1, by rw [beq_self_eq_true, hk, List.replicate_succ], Or.inl he⟩

/-- **What the loops make nothing of** are empty and `.` components; empty ones stay behind the
    first byte of a path. -/
theorem cleanRest_eq_nil_iff {long : Bool} {w : Str} : cleanRest long w = [] ↔ Trailing long w := by
  have hslash : BACKSLASH ≠ PATH_SEPARATOR := by decide
  unfold cleanRest
  constructor
  · intro h
    have h₄ := List.forall₂_nil_right_iff.mp (h ▸ masked_loops _ false true)
    obtain ⟨k, hk, hb⟩ := eraseDoubles_eq_nil_iff.mp h₄
    have h₃ := eraseDoubles_of_notMem (s := BACKSLASH)
      (w := eraseDots PATH_SEPARATOR true (eraseDots BACKSLASH false w))
      (by rw [hk]; exact fun hm => hslash (List.eq_of_mem_replicate hm))
    have h₂ : Trailing long (eraseDots BACKSLASH false w) :=
      eraseDots_eq_replicate_iff.mp ⟨k, by rw [← h₃, hk], hb⟩
    rwa [eraseDots_of_notMem h₂.notMem] at h₂
  · intro h
    obtain ⟨k, hk, hb⟩ := eraseDots_eq_replicate_iff.mpr h
    have h₁ := eraseDots_of_notMem fun hm => h.notMem ((eraseDots_sublist _ _ w).mem hm)
    have h₃ := eraseDoubles_of_notMem (s := BACKSLASH) (w := List.replicate k PATH_SEPARATOR)
      fun hm => hslash (List.eq_of_mem_replicate ((eraseDoubles_sublist _ _ _).mem hm))
    dsimp only
    rw [h₁, hk, h₃, eraseDoubles_eq_nil_iff.mpr ⟨k, rfl, hb⟩]
    rfl

/-! ## Cleaned paths are clean -/

/-- Erasing doubles brings no new neighbours together. `x` is the byte before. -/
theorem eraseDoubles_isChain {R : UInt8 → UInt8 → Prop} {s : UInt8} {l : Str} :
    ∀ {x : UInt8}, (x :: l).IsChain R →
      (x :: eraseDoubles s (x == s) l).IsChain fun a b => R a b ∧ ¬ (a = s ∧ b = s) := by
  induction l with
  | nil => intro x _; exact List.isChain_singleton x
  | cons c l ih =>
    intro x h
    obtain ⟨hxc, hcl⟩ := List.isChain_cons_cons.mp h
    rw [eraseDoubles]
    split
    · next hc =>
      simp only [Bool.and_eq_true, beq_iff_eq] at hc
      have := ih (x := x) (by rw [hc.1, ← hc.2]; exact hcl)
      rw [hc.1, beq_self_eq_true] at this
      rwa [hc.1]
    · next hc =>
      simp only [Bool.and_eq_true, beq_iff_eq] at hc
      exact List.isChain_cons_cons.mpr ⟨⟨hxc, hc⟩, ih hcl⟩

theorem eraseDoublesFrom_isChain {R : UInt8 → UInt8 → Prop} {s : UInt8} {l : Str}
    (h : l.tail.IsChain R) :
    (eraseDoublesFrom s false l).tail.IsChain fun a b => R a b ∧ ¬ (a = s ∧ b = s) := by
  rcases l with _ | ⟨c, _ | ⟨d, l⟩⟩
  · exact List.isChain_nil
  · exact List.isChain_nil
  · rw [eraseDoublesFrom_cons, eraseDoubles_false_cons]
    exact eraseDoubles_isChain h

theorem Masked.tail {p p' : Str} (h : Masked p p') : Masked p.tail p'.tail := by
  cases h with
  | nil => exact .nil
  | cons _ h => exact h

theorem Masked.isChain {R : UInt8 → UInt8 → Prop} (hl : ∀ y, R UNDERSCORE y)
    (hr : ∀ x, R x UNDERSCORE) {p p' : Str} (h : Masked p p') (hp : p.IsChain R) :
    p'.IsChain R := by
  induction h with
  | nil => exact List.isChain_nil
  | @cons c c' p p' hc h ih =>
    refine (ih hp.tail).cons fun y hy => ?_
    cases h with
    | nil => cases hy
    | @cons d d' p p' hd h =>
      obtain rfl : d' = y := by simpa using hy
      rcases hc with rfl | rfl
      · rcases hd with rfl | rfl
        · exact (List.isChain_cons_cons.mp hp).1
        · exact hr _
      · exact hl _

theorem replaceEndDots_isChain {R : UInt8 → UInt8 → Prop} (hl : ∀ y, R UNDERSCORE y)
    (hr : ∀ x, R x UNDERSCORE) {s : UInt8} (hs : IsSeparator s) :
    ∀ {t : Str}, t.IsChain R →
      (replaceEndDots s false t).IsChain fun a b => R a b ∧ ¬ (a = DOT ∧ b = s)
  | [], _ => List.isChain_nil
  | [c], _ => List.isChain_singleton c
  | c :: d :: rest, h => by
    obtain ⟨hcd, hrest⟩ := List.isChain_cons_cons.mp h
    rw [replaceEndDots]
    refine (replaceEndDots_isChain hl hr hs hrest).cons fun y hy => ?_
    -- the byte behind is `d`, or `_` if that was a dot
    obtain ⟨rest', hrest'⟩ : ∃ rest', replaceEndDots s false (d :: rest) = y :: rest' :=
      List.head?_eq_some_iff.mp hy
    have hm := masked_replaceEndDots s false (d :: rest)
    rw [hrest'] at hm
    obtain ⟨hyd, -⟩ := List.forall₂_cons.mp hm
    split
    · exact ⟨hl y, fun h => absurd h.1 (by decide)⟩
    · next hc =>
      simp only [Bool.not_false, Bool.and_true, Bool.and_eq_true, beq_iff_eq] at hc
      rcases hyd with rfl | rfl
      · exact ⟨hcd, hc⟩
      · exact ⟨hr c, fun h => hs.ne_underscore h.2⟩

theorem tail_replaceEndDots (s : UInt8) (l : Str) :
    (replaceEndDots s true l).tail = replaceEndDots s false l.tail := by
  cases l with
  | nil => rfl
  | cons c l => rw [replaceEndDots_true_cons]; rfl

/-- **What `cleanPathChars` returns is clean.** -/
theorem isClean_cleanPathChars (p : Str) : IsClean (cleanPathChars p false) := by
  have hu : ∀ s, IsSeparator s → ∀ y, ¬ (UNDERSCORE = s ∧ y = s) :=
    fun s hs y h => hs.ne_underscore h.1
  have hu' : ∀ s, IsSeparator s → ∀ x, ¬ (x = s ∧ UNDERSCORE = s) :=
    fun s hs x h => hs.ne_underscore h.2
  have hd : ∀ s y : UInt8, ¬ (UNDERSCORE = DOT ∧ y = s) := fun s y h => absurd h.1 (by decide)
  have hd' : ∀ s, IsSeparator s → ∀ x, ¬ (x = DOT ∧ UNDERSCORE = s) :=
    fun s hs x h => hs.ne_underscore h.2
  have hb := isSeparator_backslash
  have hs := isSeparator_slash
  unfold cleanPathChars IsClean
  dsimp only
  generalize eraseDots PATH_SEPARATOR false
    (eraseDots BACKSLASH false (replaceBadChars p)) = l
  have h₄ := eraseDoublesFrom_isChain (s := PATH_SEPARATOR)
    (eraseDoublesFrom_isChain (s := BACKSLASH)
    (R := fun _ _ => True) (l := l) (List.isChain_iff_forall_rel_of_append_cons_cons.mpr
      fun _ _ _ _ _ => trivial))
  have h₆ := Masked.isChain (fun y => ⟨⟨trivial, hu _ hb y⟩, hu _ hs y⟩)
    (fun x => ⟨⟨trivial, hu' _ hb x⟩, hu' _ hs x⟩)
    ((masked_replaceDotDot BACKSLASH false _).trans
      (masked_replaceDotDot PATH_SEPARATOR false _)).tail h₄
  have h₇ := replaceEndDots_isChain (fun y => ⟨⟨trivial, hu _ hb y⟩, hu _ hs y⟩)
    (fun x => ⟨⟨trivial, hu' _ hb x⟩, hu' _ hs x⟩) hb h₆
  have h₈ := replaceEndDots_isChain (fun y => ⟨⟨⟨trivial, hu _ hb y⟩, hu _ hs y⟩, hd _ y⟩)
    (fun x => ⟨⟨⟨trivial, hu' _ hb x⟩, hu' _ hs x⟩, hd' _ hb x⟩) hs h₇
  rw [if_neg Bool.false_ne_true, tail_replaceEndDots, tail_replaceEndDots]
  refine h₈.imp ?_
  rintro x y ⟨⟨⟨⟨-, h₁⟩, h₂⟩, h₃⟩, h₄⟩
  refine ⟨fun ⟨hx, hy⟩ => ?_, fun ⟨hxy, hx⟩ => ?_⟩
  · exact hy.elim (fun hy => h₄ ⟨hx, hy⟩) fun hy => h₃ ⟨hx, hy⟩
  · subst hxy
    exact hx.elim (fun hx => h₂ ⟨hx, hx⟩) fun hx => h₁ ⟨hx, hx⟩

/-! ## The last byte of a directory path -/

theorem eraseDots_getLast? {s : UInt8} : ∀ {l : Str} {x : UInt8},
    (x :: eraseDots s (x == s) l).getLast? = (x :: l).getLast?
  | [], _ => rfl
  | [c], x => by simp [eraseDots]
  | c :: d :: rest, x => by
    rw [eraseDots]
    split
    · next hc =>
      simp only [Bool.and_eq_true, beq_iff_eq] at hc
      obtain ⟨⟨hx, -⟩, hd⟩ := hc
      have := eraseDots_getLast? (s := s) (l := rest) (x := x)
      rw [hx, beq_self_eq_true] at this
      rw [hx, this, List.getLast?_cons_cons, List.getLast?_cons_cons, hd]
    · rw [List.getLast?_cons_cons, List.getLast?_cons_cons]
      exact eraseDots_getLast?

theorem eraseDoubles_getLast? {s : UInt8} {l : Str} : ∀ {x : UInt8},
    (x :: eraseDoubles s (x == s) l).getLast? = (x :: l).getLast? := by
  induction l with
  | nil => intro x; rfl
  | cons c l ih =>
    intro x
    rw [eraseDoubles]
    split
    · next hc =>
      simp only [Bool.and_eq_true, beq_iff_eq] at hc
      have := ih (x := x)
      rw [hc.1, beq_self_eq_true] at this
      rw [hc.1, this, List.getLast?_cons_cons, hc.2]
    · rw [List.getLast?_cons_cons, List.getLast?_cons_cons]
      exact ih

theorem Masked.getLast? {p p' : Str} (h : Masked p p') {c : UInt8} (hc : p.getLast? = some c) :
    p'.getLast? = some c ∨ p'.getLast? = some UNDERSCORE := by
  induction h with
  | nil => cases hc
  | @cons d d' p p' hd h ih =>
    cases h with
    | nil =>
      obtain rfl : d = c := by simpa using hc
      rcases hd with rfl | rfl
      · exact Or.inl rfl
      · exact Or.inr rfl
    | cons he h =>
      rw [List.getLast?_cons_cons] at hc ⊢
      exact ih hc

theorem eraseDots_false_getLast? (s : UInt8) (l : Str) :
    (eraseDots s false l).getLast? = l.getLast? := by
  cases l with
  | nil => rfl
  | cons c l => rw [eraseDots_false_cons, eraseDots_getLast?]

theorem eraseDoublesFrom_getLast? (s : UInt8) (isFileName : Bool) (l : Str) :
    (eraseDoublesFrom s isFileName l).getLast? = l.getLast? := by
  have hall : ∀ l : Str, (eraseDoubles s false l).getLast? = l.getLast? := by
    intro l
    cases l with
    | nil => rfl
    | cons c l => rw [eraseDoubles_false_cons, eraseDoubles_getLast?]
  cases isFileName with
  | true => exact hall l
  | false =>
    cases l with
    | nil => rfl
    | cons c l => rw [eraseDoublesFrom_cons, List.getLast?_cons, hall l, List.getLast?_cons]

/-- The separator at the end stays one, or becomes the last byte of `___`. -/
theorem cleanPathChars_getLast? {p : Str} (hlast : p.getLast? = some PATH_SEPARATOR) :
    (cleanPathChars p false).getLast? = some PATH_SEPARATOR ∨
      (cleanPathChars p false).getLast? = some UNDERSCORE := by
  have hmap : (replaceBadChars p).getLast? = some PATH_SEPARATOR := by
    unfold replaceBadChars
    rw [List.getLast?_map, hlast]
    rfl
  refine Masked.getLast? (masked_loops _ true false) ?_
  rw [eraseDoublesFrom_getLast?, eraseDoublesFrom_getLast?, eraseDots_false_getLast?,
    eraseDots_false_getLast?, hmap]

/-! ## Validating again -/

/-- A clean directory path, followed by empty and `.` components at most. Behind a lone
    separator empty ones do not count: two separators may begin a path. -/
def KeepsPath (p : Str) : Prop :=
  ∃ u w, p = u ++ w ∧ IsClean u ∧ u.getLast? = some PATH_SEPARATOR ∧
    Trailing (decide (1 < u.length)) w

theorem ensureTrailingSlash_of_directory {p : Str} (h : p.getLast? = some PATH_SEPARATOR) :
    ensureTrailingSlash p = p := by
  unfold ensureTrailingSlash isDirectoryPath
  rw [h]
  simp

theorem ensureTrailingSlash_append {p : Str} {c : UInt8} (h : p.getLast? = some c)
    (hc : c ≠ PATH_SEPARATOR) : ensureTrailingSlash p = p ++ [PATH_SEPARATOR] := by
  have hne : p.isEmpty = false := by
    cases p with
    | nil => cases h
    | cons _ _ => rfl
  unfold ensureTrailingSlash isDirectoryPath
  rw [h, hne]
  simp [hc]

/-- A validated directory path is clean and ends in a separator. -/
theorem validatePath_directory {p : Str} (hlast : p.getLast? = some PATH_SEPARATOR) :
    IsClean (validatePath p true) ∧ (validatePath p true).getLast? = some PATH_SEPARATOR := by
  have hclean := isClean_cleanPathChars p
  unfold validatePath
  rw [if_pos rfl]
  rcases cleanPathChars_getLast? hlast with h | h
  · rw [ensureTrailingSlash_of_directory h]
    exact ⟨hclean, h⟩
  · rw [ensureTrailingSlash_append h (by decide)]
    refine ⟨?_, List.getLast?_concat⟩
    generalize cleanPathChars p false = q at hclean h
    cases q with
    | nil => cases h
    | cons c q =>
      refine List.isChain_append.mpr ⟨hclean, List.isChain_singleton _, fun x hx y hy => ?_⟩
      cases q with
      | nil => cases hx
      | cons d q =>
        rw [List.getLast?_cons_cons] at h
        obtain rfl : UNDERSCORE = x := Option.some.inj (h.symm.trans hx)
        exact ⟨fun h => absurd h.1 (by decide), fun h => absurd h.2 (by decide)⟩

/-- **Validating a directory path again leaves it where it is** — the result is a beginning of
    it — exactly when it is a clean path, up to empty and `.` components at its end. -/
theorem validatePath_prefix_iff {p : Str} (hlast : p.getLast? = some PATH_SEPARATOR)
    (hbad : ∀ c ∈ p, isBadChar c = false) : validatePath p true <+: p ↔ KeepsPath p := by
  constructor
  · rintro ⟨w, hw⟩
    obtain ⟨hclean, hend⟩ := validatePath_directory hlast
    have happ := cleanPathChars_append (w := w) hclean hend (by rwa [hw])
    refine ⟨_, w, hw.symm, hclean, hend, cleanRest_eq_nil_iff.mp ?_⟩
    rw [hw] at happ
    -- the cleaned path is what was left of it, and anything more would make it longer
    have hlen : (cleanPathChars p false).length ≤ (validatePath p true).length := by
      unfold validatePath ensureTrailingSlash
      rw [if_pos rfl]
      split
      · simp
      · exact le_refl _
    rw [happ, List.length_append] at hlen
    exact List.eq_nil_of_length_eq_zero (by omega)
  · rintro ⟨u, w, rfl, hclean, hend, hw⟩
    have happ := cleanPathChars_append hclean hend hbad
    rw [cleanRest_eq_nil_iff.mpr hw, List.append_nil] at happ
    unfold validatePath
    rw [if_pos rfl, happ, ensureTrailingSlash_of_directory hend]
    exact List.prefix_append u w

/-! ## What validated paths are made of -/

theorem masked_cleanPathSeparators (p : Str) : Masked p (cleanPathSeparators p) := by
  induction p with
  | nil => exact .nil
  | cons c p ih =>
    refine .cons ?_ ih
    dsimp only
    split
    · exact Or.inr rfl
    · exact Or.inl rfl

/-- Some bytes go, but not the last one, and then some are masked. -/
theorem cleanPathChars_masked (p : Str) (isFileName : Bool) :
    ∃ l : Str, l.Sublist (replaceBadChars p) ∧ l.getLast? = (replaceBadChars p).getLast? ∧
      Masked l (cleanPathChars p isFileName) := by
  have hfrom : ∀ (s : UInt8) (q : Str), (eraseDoublesFrom s isFileName q).Sublist q := by
    intro s q
    cases isFileName with
    | true => exact eraseDoubles_sublist s false q
    | false =>
      cases q with
      | nil => exact List.Sublist.refl _
      | cons c q => exact (eraseDoubles_sublist s false q).cons_cons c
  refine ⟨eraseDoublesFrom PATH_SEPARATOR isFileName (eraseDoublesFrom BACKSLASH isFileName
    (eraseDots PATH_SEPARATOR false (eraseDots BACKSLASH false (replaceBadChars p)))),
    ((hfrom _ _).trans (hfrom _ _)).trans
      ((eraseDots_sublist _ _ _).trans (eraseDots_sublist _ _ _)), ?_, ?_⟩
  · rw [eraseDoublesFrom_getLast?, eraseDoublesFrom_getLast?, eraseDots_false_getLast?,
      eraseDots_false_getLast?]
  · unfold cleanPathChars
    dsimp only
    split
    · exact (masked_loops _ true false).trans (masked_cleanPathSeparators _)
    · exact masked_loops _ true false

theorem length_cleanPathChars_le (p : Str) : (cleanPathChars p false).length ≤ p.length := by
  obtain ⟨l, hl, -, hm⟩ := cleanPathChars_masked p false
  rw [← hm.length_eq]
  exact hl.length_le.trans (List.length_map _).le

theorem isBadChar_cleanPathChars (p : Str) (isFileName : Bool) :
    ∀ c ∈ cleanPathChars p isFileName, isBadChar c = false := by
  obtain ⟨l, hl, -, hm⟩ := cleanPathChars_masked p isFileName
  have hbad : ∀ c ∈ l, isBadChar c = false := by
    intro c hc
    obtain ⟨d, -, rfl⟩ := List.mem_map.mp (hl.mem hc)
    split
    · decide
    · next h => simpa using h
  clear hl
  generalize cleanPathChars p isFileName = p' at hm
  induction hm with
  | nil => exact hbad
  | cons hc _ ih =>
    intro d hd
    rcases List.mem_cons.mp hd with rfl | hd
    · rcases hc with rfl | rfl
      · exact hbad _ (List.mem_cons_self ..)
      · decide
    · exact ih (fun d hd => hbad d (List.mem_cons_of_mem _ hd)) d hd

/-- Nothing behind a directory makes it a continuation of the directory validated again. -/
theorem validatePath_prefix_of_append {p e : Str} (hlast : p.getLast? = some PATH_SEPARATOR)
    (h : validatePath p true <+: p ++ e) : validatePath p true <+: p := by
  rcases Nat.lt_or_ge p.length (validatePath p true).length with hlt | hle
  · -- a longer target is the cleaned path and a separator: then nothing was cleaned, and no
    -- separator was missing
    have hpre : p <+: validatePath p true :=
      List.prefix_of_prefix_length_le (List.prefix_append p e) h hlt.le
    have hclean := length_cleanPathChars_le p
    unfold validatePath at hpre hlt
    rw [if_pos rfl] at hpre hlt
    rcases cleanPathChars_getLast? hlast with hend | hend
    · rw [ensureTrailingSlash_of_directory hend] at hlt
      omega
    · rw [ensureTrailingSlash_append hend (by decide)] at hpre hlt
      rw [List.length_append, List.length_singleton] at hlt
      have heq : p = cleanPathChars p false :=
        (List.prefix_of_prefix_length_le hpre (List.prefix_append _ _) (by omega)).eq_of_length
          (by omega)
      rw [← heq, hlast] at hend
      exact absurd hend (by decide)
  · exact List.prefix_of_prefix_length_le h (List.prefix_append p e) hle

end PathUtil
end Airdcpp
