import Airdcpp.Core.Utf8

/-!
# `Util/TextValidation` — valid and sanitized text

Well-formed UTF-8 writes every scalar value in as few bytes as it needs (`wcToUtf8`). `validateUtf8`
accepts the longer forms too, and there the functions of `Text` part: `sanitizeUtf8` writes less
than it has read, so that the next bad sequence is inserted behind the end of what it has written.
-/

namespace Airdcpp
namespace Text

/-! ## Shortest forms -/

/-- The fewest bytes that have room for `c`. -/
def size (c : Nat) : Nat :=
  if c < 0x80 then 1 else if c < 0x800 then 2 else if c < 0x10000 then 3 else 4

theorem lt_of_isScalar {c : Nat} (h : IsScalar c) : c < 0x110000 := by
  rw [IsScalar, Bool.or_eq_false_iff, decide_eq_false_iff_not] at h
  omega

theorem isSequence_size {c : Nat} (h : IsScalar c) : IsSequence (size c) c := by
  have hlt := lt_of_isScalar h
  refine ⟨?_, h⟩
  unfold size
  split
  · assumption
  · split
    · assumption
    · split
      · assumption
      · show c < 0x200000
        omega

theorem size_le {n c : Nat} (h : IsSequence n c) : size c ≤ n := by
  have hfits := h.fits
  unfold size
  rcases n with _ | _ | _ | _ | _ | n
  · cases hfits
  · rw [if_pos (show c < 0x80 from hfits)]
  · have hc : c < 0x800 := hfits
    split <;> omega
  · have hc : c < 0x10000 := hfits
    split
    · omega
    · split <;> omega
  · split
    · omega
    · split
      · omega
      · split <;> omega
  · cases hfits

/-- The six low bits under the mark of a byte that is not the first. -/
theorem or_tail (c : Nat) : 0x80 ||| (c &&& 0x3f) = c % 64 + 0x80 := by
  have hmod : c &&& 0x3f = c % 64 := Nat.and_two_pow_sub_one_eq_mod c 6
  have hall : ∀ a < 64, 0x80 ||| a = a + 0x80 := by decide
  rw [hmod]
  exact hall _ (Nat.mod_lt _ (by decide))

/-- Scalar values are written in their shortest form. -/
theorem wcToUtf8_eq {c : Nat} (h : IsScalar c) : wcToUtf8 c = form (size c) c := by
  have hlt := lt_of_isScalar h
  rw [IsScalar] at h
  rw [wcToUtf8, size]
  simp only [h, Bool.false_eq_true, if_false, or_tail, Nat.shiftRight_eq_div_pow]
  have htwo : ∀ a < 32, 0xc0 ||| a = a + 0xc0 := by decide
  have hthree : ∀ a < 16, 0xe0 ||| a = a + 0xe0 := by decide
  have hfour : ∀ a < 8, 0xf0 ||| a = a + 0xf0 := by decide
  by_cases h4 : 0x10000 ≤ c
  · rw [if_pos h4, if_neg (by omega), if_neg (by omega), if_neg (by omega), hfour _ (by omega)]
    rfl
  · rw [if_neg h4]
    by_cases h3 : 0x0800 ≤ c
    · rw [if_pos h3, if_neg (by omega), if_neg (by omega), if_pos (by omega), hthree _ (by omega)]
      rfl
    · rw [if_neg h3]
      by_cases h2 : 0x0080 ≤ c
      · rw [if_pos h2, if_neg (by omega), if_pos (by omega), htwo _ (by omega)]
        rfl
      · rw [if_neg h2, if_pos (by omega)]
        rfl

/-- Well-formed UTF-8: scalar values as they are written. -/
def WellFormed (s : Str) : Prop :=
  ∃ cs : List Nat, (∀ c ∈ cs, IsScalar c) ∧ s = cs.flatMap wcToUtf8

/-- Forms in a row. -/
def formsOf (l : List (Nat × Nat)) : Str := l.flatMap fun q => form q.1 q.2

/-- A string of forms, one of them longer than its payload needs. -/
def Overlong (s : Str) : Prop :=
  ∃ l : List (Nat × Nat), (∀ q ∈ l, IsSequence q.1 q.2) ∧ s = formsOf l ∧ ∃ q ∈ l, size q.2 < q.1

/-- What `utf8ToWc` reads in a string, written again. -/
def reencode (s : Str) : Str := (sequences s).flatMap fun w => wcToUtf8 w.2

/-! ## Validation -/

theorem sequences_formsOf {l : List (Nat × Nat)} (h : ∀ q ∈ l, IsSequence q.1 q.2) :
    sequences (formsOf l) = l.map fun q => ((q.1 : Int), q.2) := by
  induction l with
  | nil => rfl
  | cons q l ih =>
    obtain ⟨hq, hl⟩ := List.forall_mem_cons.mp h
    rw [formsOf, List.flatMap_cons, sequences_form hq, List.map_cons]
    congr 1
    exact ih hl

/-- **What is valid is forms in a row.** -/
theorem formsOf_of_validateUtf8 {s : Str} (h : ∀ w ∈ sequences s, 0 < w.1) :
    ∃ l : List (Nat × Nat), (∀ q ∈ l, IsSequence q.1 q.2) ∧ s = formsOf l := by
  induction s using sequence_induction with
  | nil => exact ⟨[], by simp, rfl⟩
  | cons b s ih =>
    rw [sequences_cons, List.forall_mem_cons] at h
    obtain ⟨l, hl, hrest⟩ := ih h.2
    obtain ⟨n, hn, hq, rest, hform⟩ := form_of_utf8ToWc h.1
    refine ⟨(n, (utf8ToWc (b :: s)).2) :: l, List.forall_mem_cons.mpr ⟨hq, hl⟩, ?_⟩
    have hdrop : (b :: s).drop (utf8ToWc (b :: s)).1.natAbs = rest := by
      have hnat : (utf8ToWc (b :: s)).1.natAbs = n := congrArg Int.natAbs hn
      rw [hnat, hform, List.drop_left' (length_form hq.fits)]
    rw [formsOf, List.flatMap_cons, ← formsOf, ← hrest, hdrop]
    exact hform

theorem wellFormed_eq_formsOf {cs : List Nat} (h : ∀ c ∈ cs, IsScalar c) :
    cs.flatMap wcToUtf8 = formsOf (cs.map fun c => (size c, c)) := by
  rw [formsOf, List.flatMap_map]
  exact List.flatMap_congr fun c hc => wcToUtf8_eq (h c hc)

/-- In well-formed text all sequences are good, and none is overlong. -/
theorem WellFormed.sequences {s : Str} (h : WellFormed s) :
    ∀ w ∈ sequences s, w.1 = size w.2 ∧ IsScalar w.2 := by
  obtain ⟨cs, hcs, rfl⟩ := h
  rw [wellFormed_eq_formsOf hcs, sequences_formsOf, List.map_map]
  · intro w hw
    obtain ⟨c, hc, rfl⟩ := List.mem_map.mp hw
    exact ⟨rfl, hcs c hc⟩
  · intro q hq
    obtain ⟨c, hc, rfl⟩ := List.mem_map.mp hq
    exact isSequence_size (hcs c hc)

theorem reencode_formsOf {l : List (Nat × Nat)} (h : ∀ q ∈ l, IsSequence q.1 q.2)
    (hshort : ∀ q ∈ l, q.1 ≤ size q.2) : reencode (formsOf l) = formsOf l := by
  rw [reencode, sequences_formsOf h, List.flatMap_map, formsOf]
  refine List.flatMap_congr fun q hq => ?_
  have hsize : size q.2 = q.1 := le_antisymm (size_le (h q hq)) (hshort q hq)
  rw [wcToUtf8_eq (h q hq).scalar, hsize]

/-- Shortest forms in a row are well-formed. -/
theorem wellFormed_formsOf {l : List (Nat × Nat)} (h : ∀ q ∈ l, IsSequence q.1 q.2)
    (hshort : ∀ q ∈ l, q.1 ≤ size q.2) : WellFormed (formsOf l) := by
  refine ⟨l.map Prod.snd, ?_, ?_⟩
  · intro c hc
    obtain ⟨q, hq, rfl⟩ := List.mem_map.mp hc
    exact (h q hq).scalar
  · rw [← reencode_formsOf h hshort, reencode, sequences_formsOf h, List.flatMap_map,
      List.flatMap_map]

theorem WellFormed.validate {s : Str} (h : WellFormed s) : validateUtf8 s = true := by
  rw [validateUtf8_iff]
  intro w hw
  obtain ⟨hsize, hscalar⟩ := h.sequences w hw
  rw [hsize]
  exact Int.natCast_pos.mpr (isSequence_size hscalar).pos

/-- **What is accepted is well-formed, and is what is read of it, unless it has overlong forms.** -/
theorem validateUtf8_wellFormed_iff (s : Str) :
    ((validateUtf8 s = true ↔ WellFormed s) ∧ (validateUtf8 s = true → reencode s = s)) ↔
      ¬ Overlong s := by
  constructor
  · rintro ⟨hiff, -⟩ ⟨l, hl, rfl, q, hq, hlong⟩
    have hvalid : validateUtf8 (formsOf l) = true := by
      rw [validateUtf8_iff, sequences_formsOf hl]
      intro w hw
      obtain ⟨q, hq, rfl⟩ := List.mem_map.mp hw
      exact Int.natCast_pos.mpr (hl q hq).pos
    have hmem : ((q.1 : Int), q.2) ∈ sequences (formsOf l) := by
      rw [sequences_formsOf hl]
      exact List.mem_map_of_mem hq
    have hsize : (q.1 : Int) = size q.2 := ((hiff.mp hvalid).sequences _ hmem).1
    omega
  · intro hshort
    have hforms : validateUtf8 s = true → ∃ l : List (Nat × Nat),
        (∀ q ∈ l, IsSequence q.1 q.2) ∧ s = formsOf l ∧ ∀ q ∈ l, q.1 ≤ size q.2 := by
      intro hvalid
      obtain ⟨l, hl, hs⟩ := formsOf_of_validateUtf8 ((validateUtf8_iff s).mp hvalid)
      refine ⟨l, hl, hs, fun q hq => ?_⟩
      by_contra hlong
      exact hshort ⟨l, hl, hs, q, hq, Nat.lt_of_not_le hlong⟩
    refine ⟨⟨fun hvalid => ?_, WellFormed.validate⟩, fun hvalid => ?_⟩
    · obtain ⟨l, hl, rfl, hsize⟩ := hforms hvalid
      exact wellFormed_formsOf hl hsize
    · obtain ⟨l, hl, rfl, hsize⟩ := hforms hvalid
      exact reencode_formsOf hl hsize

/-- A slash in two bytes is accepted. -/
theorem validateUtf8_overlong :
    ¬ ∀ s : Str, (∀ b ∈ s, b ≠ 0) → (validateUtf8 s = true ↔ WellFormed s) := by
  intro hall
  have hwell := (hall [0xc0, 0xaf] (by decide +kernel)).mp (by decide +kernel)
  have hsize := (hwell.sequences (2, 0x2f) (by decide +kernel)).1
  exact absurd hsize (by decide)

/-! ## Sanitizing -/

/-- What is good is written as it is, and what is bad with underscores. -/
def cleaned (s : Str) : Str :=
  (sequences s).flatMap fun w =>
    if w.1 < 0 then List.replicate w.1.natAbs (chr '_') else wcToUtf8 w.2

theorem sanitizeFrom_skip {k : Nat} {s : Str} (i : Nat) (tgt : Str) (hk : k ≤ s.length) :
    sanitizeFrom k i tgt s = sanitizeFrom 0 (i + k) tgt (s.drop k) := by
  induction k generalizing i s with
  | zero => rfl
  | succ k ih =>
    cases s with
    | nil => exact absurd hk (by simp)
    | cons b s =>
      rw [sanitizeFrom, ih (i + 1) (by simpa using hk), List.drop_succ_cons]
      congr 1
      omega

/-- One sequence. -/
theorem sanitizeFrom_cons (i : Nat) (tgt : Str) (b : UInt8) (s : Str) :
    sanitizeFrom 0 i tgt (b :: s) =
      let w := utf8ToWc (b :: s)
      let rest := (b :: s).drop w.1.natAbs
      if w.1 < 0 then
        if i ≤ tgt.length then
          sanitizeFrom 0 (i + w.1.natAbs)
            (tgt.take i ++ List.replicate w.1.natAbs (chr '_') ++ tgt.drop i) rest
        else none
      else sanitizeFrom 0 (i + w.1.natAbs) (tgt ++ wcToUtf8 w.2) rest := by
  obtain ⟨hpos, hle⟩ := utf8ToWc_length b s
  have hskip : ∀ tgt, sanitizeFrom ((utf8ToWc (b :: s)).1.natAbs - 1) (i + 1) tgt s =
      sanitizeFrom 0 (i + (utf8ToWc (b :: s)).1.natAbs) tgt
        ((b :: s).drop (utf8ToWc (b :: s)).1.natAbs) := by
    intro tgt
    rw [List.length_cons] at hle
    obtain ⟨n, hn⟩ : ∃ n, (utf8ToWc (b :: s)).1.natAbs = n + 1 := Nat.exists_eq_add_of_le' hpos
    rw [hn, Nat.add_sub_cancel, sanitizeFrom_skip _ _ (by omega), List.drop_succ_cons]
    congr 1
    omega
  rw [sanitizeFrom]
  simp only [hskip]

/-- No sequence that is read is longer than its payload needs. -/
def NoOverlong (s : Str) : Prop := ∀ w ∈ sequences s, 0 < w.1 → w.1 = size w.2

instance (s : Str) : Decidable (NoOverlong s) :=
  inferInstanceAs (Decidable (∀ w ∈ sequences s, 0 < w.1 → w.1 = size w.2))

/-- A sequence that is read: its payload is written in `size` bytes, and it has no fewer. -/
theorem length_wcToUtf8 {b : UInt8} {s : Str} (hgood : ¬ (utf8ToWc (b :: s)).1 < 0) :
    (wcToUtf8 (utf8ToWc (b :: s)).2).length = size (utf8ToWc (b :: s)).2 ∧
      size (utf8ToWc (b :: s)).2 ≤ (utf8ToWc (b :: s)).1.natAbs := by
  have hpos : 1 ≤ (utf8ToWc (b :: s)).1.natAbs := (utf8ToWc_length b s).1
  obtain ⟨n, hn, hq, -⟩ := form_of_utf8ToWc (show 0 < (utf8ToWc (b :: s)).1 by omega)
  have hnat : (utf8ToWc (b :: s)).1.natAbs = n := congrArg Int.natAbs hn
  rw [hnat]
  refine ⟨?_, size_le hq⟩
  rw [wcToUtf8_eq hq.scalar, length_form (isSequence_size hq.scalar).fits]

/-- **Without overlong forms every insertion is at the end.** -/
theorem sanitizeFrom_of_noOverlong {i : Nat} {tgt s : Str} (hs : NoOverlong s)
    (htgt : tgt.length = i) :
    sanitizeFrom 0 i tgt s = some (tgt ++ cleaned s) ∧ (cleaned s).length = s.length := by
  induction s using sequence_induction generalizing i tgt with
  | nil => exact ⟨by simp [sanitizeFrom, cleaned, sequences, sequencesFrom], rfl⟩
  | cons b s ih =>
    rw [NoOverlong, sequences_cons, List.forall_mem_cons] at hs
    obtain ⟨hfirst, hrest⟩ := hs
    have hle : (utf8ToWc (b :: s)).1.natAbs ≤ (b :: s).length := (utf8ToWc_length b s).2
    rw [sanitizeFrom_cons, cleaned, sequences_cons, List.flatMap_cons, ← cleaned]
    by_cases hbad : (utf8ToWc (b :: s)).1 < 0
    · obtain ⟨heq, hlength⟩ := @ih (i + (utf8ToWc (b :: s)).1.natAbs)
        (tgt ++ List.replicate (utf8ToWc (b :: s)).1.natAbs (chr '_')) hrest (by simp [htgt])
      dsimp only
      rw [if_pos hbad, if_pos hbad, if_pos htgt.ge, List.take_of_length_le htgt.le,
        List.drop_eq_nil_of_le htgt.le, List.append_nil, heq, List.append_assoc]
      refine ⟨rfl, ?_⟩
      rw [List.length_append, List.length_replicate, hlength, List.length_drop]
      omega
    · obtain ⟨hwrite, -⟩ := length_wcToUtf8 hbad
      have hpos : 1 ≤ (utf8ToWc (b :: s)).1.natAbs := (utf8ToWc_length b s).1
      have hsize : (utf8ToWc (b :: s)).1.natAbs = size (utf8ToWc (b :: s)).2 := by
        have := hfirst (by omega)
        omega
      obtain ⟨heq, hlength⟩ := @ih (i + (utf8ToWc (b :: s)).1.natAbs)
        (tgt ++ wcToUtf8 (utf8ToWc (b :: s)).2) hrest
        (by rw [List.length_append, htgt, hwrite, hsize])
      dsimp only
      rw [if_neg hbad, if_neg hbad, heq, List.append_assoc]
      refine ⟨rfl, ?_⟩
      rw [List.length_append, hwrite, hlength, List.length_drop]
      omega

/-- **An overlong form makes the result shorter**, if there is one. -/
theorem length_sanitizeFrom {i : Nat} {tgt s t : Str} (h : sanitizeFrom 0 i tgt s = some t) :
    t.length ≤ tgt.length + s.length ∧
      (¬ NoOverlong s → t.length < tgt.length + s.length) := by
  induction s using sequence_induction generalizing i tgt with
  | nil =>
    cases h
    exact ⟨le_rfl, fun hno => absurd (fun w hw => absurd hw List.not_mem_nil) hno⟩
  | cons b s ih =>
    have hle : (utf8ToWc (b :: s)).1.natAbs ≤ (b :: s).length := (utf8ToWc_length b s).2
    have hdrop : ((b :: s).drop (utf8ToWc (b :: s)).1.natAbs).length =
        (b :: s).length - (utf8ToWc (b :: s)).1.natAbs := List.length_drop
    have hiff : NoOverlong (b :: s) ↔
        (0 < (utf8ToWc (b :: s)).1 → (utf8ToWc (b :: s)).1 = size (utf8ToWc (b :: s)).2) ∧
          NoOverlong ((b :: s).drop (utf8ToWc (b :: s)).1.natAbs) := by
      rw [NoOverlong, sequences_cons, List.forall_mem_cons]
      rfl
    rw [sanitizeFrom_cons] at h
    dsimp only at h
    by_cases hbad : (utf8ToWc (b :: s)).1 < 0
    · rw [if_pos hbad] at h
      split at h
      · rename_i hi
        obtain ⟨hlength, hshort⟩ := ih h
        rw [List.length_append, List.length_append, List.length_take, List.length_drop,
          List.length_replicate, hdrop] at hlength hshort
        refine ⟨by omega, fun hno => ?_⟩
        have := hshort fun hrest => hno (hiff.mpr ⟨fun hpos => by omega, hrest⟩)
        omega
      · cases h
    · obtain ⟨hwrite, hsize⟩ := length_wcToUtf8 hbad
      rw [if_neg hbad] at h
      obtain ⟨hlength, hshort⟩ := ih h
      rw [List.length_append, hwrite, hdrop] at hlength hshort
      refine ⟨by omega, fun hno => ?_⟩
      by_cases hfirst : (utf8ToWc (b :: s)).1 = size (utf8ToWc (b :: s)).2
      · have := hshort fun hrest => hno (hiff.mpr ⟨fun _ => hfirst, hrest⟩)
        omega
      · omega

/-- What is read is a scalar value. -/
theorem good_of_mem_sequences {s : Str} {w : Int × Nat} (h : w ∈ sequences s) (hgood : ¬ w.1 < 0) :
    0 < w.1 ∧ IsScalar w.2 := by
  induction s using sequence_induction with
  | nil => cases h
  | cons b s ih =>
    rw [sequences_cons] at h
    rcases List.mem_cons.mp h with rfl | h
    · have hpos : 1 ≤ (utf8ToWc (b :: s)).1.natAbs := (utf8ToWc_length b s).1
      have hn : 0 < (utf8ToWc (b :: s)).1 := by omega
      obtain ⟨_, _, hq, _⟩ := form_of_utf8ToWc hn
      exact ⟨hn, hq.scalar⟩
    · exact ih h

theorem wellFormed_cleaned (s : Str) : WellFormed (cleaned s) := by
  refine ⟨(sequences s).flatMap fun w => if w.1 < 0 then List.replicate w.1.natAbs 95 else [w.2],
    ?_, ?_⟩
  · intro c hc
    obtain ⟨w, hw, hc⟩ := List.mem_flatMap.mp hc
    split at hc
    · rw [List.eq_of_mem_replicate hc]
      rfl
    · rename_i hgood
      rw [List.mem_singleton.mp hc]
      exact (good_of_mem_sequences hw hgood).2
  · rw [cleaned, List.flatMap_assoc]
    refine List.flatMap_congr fun w _ => ?_
    split
    · rw [List.flatMap_replicate]
      exact (List.flatten_replicate_singleton).symm
    · rw [List.flatMap_singleton]

theorem WellFormed.cleaned_eq {s : Str} (h : WellFormed s) : cleaned s = s := by
  have hsequences := h.sequences
  obtain ⟨cs, hcs, hs⟩ := h
  rw [wellFormed_eq_formsOf hcs] at hs
  have hseq : ∀ q ∈ cs.map fun c => (size c, c), IsSequence q.1 q.2 := by
    intro q hq
    obtain ⟨c, hc, rfl⟩ := List.mem_map.mp hq
    exact isSequence_size (hcs c hc)
  have hshort : ∀ q ∈ cs.map fun c => (size c, c), q.1 ≤ size q.2 := by
    intro q hq
    obtain ⟨c, -, rfl⟩ := List.mem_map.mp hq
    exact le_rfl
  have hreencode : reencode s = s := by rw [hs, reencode_formsOf hseq hshort]
  conv_rhs => rw [← hreencode]
  rw [cleaned, reencode]
  refine List.flatMap_congr fun w hw => ?_
  rw [if_neg]
  have hsize := (hsequences w hw).1
  omega

/-- **Sanitizing is safe and gives valid text of the same length exactly when nothing is
    overlong.** -/
theorem sanitizeUtf8_iff (s : Str) :
    (∃ t, sanitizeUtf8 s = some t ∧ validateUtf8 t = true ∧ t.length = s.length ∧
      (WellFormed s → t = s)) ↔ NoOverlong s := by
  constructor
  · rintro ⟨t, ht, -, hlength, -⟩
    by_contra hno
    have hshort := (length_sanitizeFrom ht).2 hno
    rw [List.length_nil] at hshort
    omega
  · intro hs
    obtain ⟨heq, hlength⟩ := @sanitizeFrom_of_noOverlong 0 [] s hs rfl
    exact ⟨cleaned s, heq, (wellFormed_cleaned s).validate, hlength, WellFormed.cleaned_eq⟩

/-- The last byte of these is inserted at two, where one byte is written. -/
theorem sanitizeUtf8_overlong : ¬ ∀ s : Str, ∃ t, sanitizeUtf8 s = some t ∧
    t.length = s.length := by
  intro hall
  obtain ⟨t, ht, -⟩ := hall [0xc0, 0xaf, 0x80]
  have hnone : sanitizeUtf8 [0xc0, 0xaf, 0x80] = none := by decide +kernel
  rw [hnone] at ht
  cases ht

end Text
end Airdcpp
