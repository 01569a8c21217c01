import Airdcpp.Xml.ReaderSteps

/-!
# `Xml/Chunking` — the pieces a document comes in

What a function of the reader makes of a buffer must not depend on what comes behind it, unless
it answers that it waits. `Steady` says so for the functions that look at a few characters, and
for those that consume as much as there is, that going on with more data is the same as having
had it at once.

It is not always so. An eight-byte reference whose last byte is not there yet is refused: behind
seven bytes `entref` sees the end of the buffer (`CutSeven`). And three states compare the buffer
with something of a certain length before they skip white space, so that whether a space is
consumed depends on how many come with it. No harm is done by that: the reader without this white
space (`trim`) goes on in the same way.
-/

namespace Airdcpp
namespace SimpleXMLReader

variable {opts : Options} {r r' : SimpleXMLReader} {c : Str}

@[simp] theorem push_buf : (r.push c).buf = r.buf ++ c := rfl
@[simp] theorem push_pos : (r.push c).pos = r.pos := rfl
@[simp] theorem push_state : (r.push c).state = r.state := rfl
@[simp] theorem push_value : (r.push c).value = r.value := rfl
@[simp] theorem push_attribs : (r.push c).attribs = r.attribs := rfl
@[simp] theorem push_elements : (r.push c).elements = r.elements := rfl
@[simp] theorem push_encoding : (r.push c).encoding = r.encoding := rfl
@[simp] theorem push_events : (r.push c).events = r.events := rfl

theorem push_nil : r.push [] = r := by
  rw [push, List.append_nil]

theorem push_push (d : Str) : (r.push c).push d = r.push (c ++ d) := by
  rw [push, push, push, List.append_assoc]

theorem bufSize_push : (r.push c).bufSize = r.bufSize + c.length := List.length_append

theorem advancePos_push {n : Nat} (hn : n ≤ r.bufSize) :
    (r.push c).advancePos n = (r.advancePos n).push c := by
  unfold advancePos push
  rw [List.drop_append_of_le_length hn]

theorem charAt_push {n : Nat} (hn : n < r.bufSize) : (r.push c).charAt n = r.charAt n :=
  List.getD_append _ _ _ _ hn

theorem needChars_push {n : Nat} (hn : n ≤ r.bufSize) : (!(r.push c).needChars n) = false := by
  rw [Bool.not_eq_false', needChars_iff, bufSize_push]
  exact Nat.le_add_right_of_le hn

theorem not_needChars {n : Nat} (hn : n ≤ r.bufSize) : (!r.needChars n) = false := by
  rw [Bool.not_eq_false', needChars_iff]
  exact hn

/-! ## Functions that look at a few characters -/

/-- Once `a` has answered, more data does not change the answer. -/
structure Steady (a : Action) (r : SimpleXMLReader) (c : Str) : Prop where
  error : ∀ e, a r = .error e → a (r.push c) = .error e
  yes : ∀ r', a r = .ok (true, r') → r' = r ∨ a (r.push c) = .ok (true, r'.push c)
  no : ∀ r', a r = .ok (false, r') → r' = r ∧ a (r.push c) = .ok (false, r.push c)

theorem Steady.wait {a : Action} (h : a r = .ok (true, r)) : Steady a r c := by
  refine ⟨fun e he => ?_, fun r' hr => ?_, fun r' hr => ?_⟩
  · rw [h] at he
    cases he
  · rw [h] at hr
    cases hr
    exact Or.inl rfl
  · rw [h] at hr
    cases hr

theorem Steady.take {a : Action} (h : a r = .ok (true, r'))
    (h' : a (r.push c) = .ok (true, r'.push c)) : Steady a r c := by
  refine ⟨fun e he => ?_, fun q hq => ?_, fun q hq => ?_⟩
  · rw [h] at he
    cases he
  · rw [h] at hq
    cases hq
    exact Or.inr h'
  · rw [h] at hq
    cases hq

theorem Steady.refuse {a : Action} (h : a r = .ok (false, r))
    (h' : a (r.push c) = .ok (false, r.push c)) : Steady a r c := by
  refine ⟨fun e he => ?_, fun q hq => ?_, fun q hq => ?_⟩
  · rw [h] at he
    cases he
  · rw [h] at hq
    cases hq
  · rw [h] at hq
    cases hq
    exact ⟨rfl, h'⟩

theorem Steady.throw {a : Action} {e : Exception} (h : a r = .error e)
    (h' : a (r.push c) = .error e) : Steady a r c := by
  refine ⟨fun e' he => ?_, fun q hq => ?_, fun q hq => ?_⟩
  · rw [h] at he
    cases he
    exact h'
  · rw [h] at hq
    cases hq
  · rw [h] at hq
    cases hq

theorem literalMatches_append {lit buf : Str} (h : literalMatches lit buf = false) :
    literalMatches lit (buf ++ c) = false := by
  induction lit generalizing buf with
  | nil => cases buf <;> cases h
  | cons l lit ih =>
    cases buf with
    | nil => cases h
    | cons b buf =>
      rw [literalMatches, Bool.and_eq_false_iff] at h
      rw [List.cons_append, literalMatches, Bool.and_eq_false_iff]
      exact h.imp_right ih

theorem literalMatches_append_of_le {lit buf : Str} (hle : lit.length ≤ buf.length) :
    literalMatches lit (buf ++ c) = literalMatches lit buf := by
  induction lit generalizing buf with
  | nil => cases buf <;> cases c <;> rfl
  | cons l lit ih =>
    cases buf with
    | nil => cases hle
    | cons b buf =>
      rw [List.cons_append, literalMatches, literalMatches, ih (Nat.le_of_succ_le_succ hle)]

theorem steady_literal (lit : Str) (withSpace : Bool) (newState : ParseState) :
    Steady (literal lit withSpace newState) r c := by
  cases hm : literalMatches lit r.buf with
  | false =>
    apply Steady.refuse
    · simp [literal, hm]
    · simp [literal, literalMatches_append hm]
  | true =>
    by_cases hle : lit.length ≤ r.bufSize
    · have hm' : literalMatches lit (r.buf ++ c) = true := by
        rw [literalMatches_append_of_le hle, hm]
      have hle' : lit.length ≤ (r.push c).bufSize := by rw [bufSize_push]; omega
      cases withSpace with
      | false =>
        apply Steady.take
        · simp only [literal, hm, Bool.not_true, Bool.false_eq_true, if_false, hle, if_true]
          rfl
        · simp only [literal, push_buf, hm', Bool.not_true, Bool.false_eq_true, if_false, hle',
            if_true, advancePos_push hle]
          rfl
      | true =>
        by_cases heq : r.bufSize = lit.length
        · apply Steady.wait
          simp [literal, hm, heq]
        · have hlt : lit.length < r.bufSize := by omega
          have hne : (r.push c).bufSize ≠ lit.length := by rw [bufSize_push]; omega
          cases hsp : isSpace (r.charAt lit.length) with
          | false =>
            apply Steady.refuse
            · simp [literal, hm, hle, heq, hsp]
            · simp [literal, hm', hle', hne, charAt_push hlt, hsp]
          | true =>
            apply Steady.take
            · simp only [literal, hm, Bool.not_true, Bool.false_eq_true, if_false, hle, if_true,
                heq, hsp]
              rfl
            · simp only [literal, push_buf, hm', Bool.not_true, Bool.false_eq_true, if_false, hle',
                if_true, hne, charAt_push hlt, hsp,
                advancePos_push (show lit.length + 1 ≤ _ from hlt)]
              rfl
    · apply Steady.wait
      simp [literal, hm, hle]

theorem steady_character (d : UInt8) (newState : ParseState) :
    Steady (character d newState) r c := by
  by_cases hneed : 1 ≤ r.bufSize
  · cases hd : r.charAt 0 == d with
    | true =>
      apply Steady.take
      · rw [character, not_needChars hneed, if_neg Bool.false_ne_true, if_pos hd]
      · rw [character, needChars_push hneed, if_neg Bool.false_ne_true, charAt_push hneed,
          if_pos hd, advancePos_push hneed]
        rfl
    | false =>
      apply Steady.refuse
      · rw [character, not_needChars hneed, if_neg Bool.false_ne_true, hd,
          if_neg Bool.false_ne_true]
      · rw [character, needChars_push hneed, if_neg Bool.false_ne_true, charAt_push hneed, hd,
          if_neg Bool.false_ne_true]
  · apply Steady.wait
    rw [character, if_pos (not_needChars_iff.mpr (Nat.lt_of_not_le hneed))]

theorem steady_element : Steady element r c := by
  by_cases hneed : 2 ≤ r.bufSize
  · have h0 : (r.push c).charAt 0 = r.charAt 0 := charAt_push (by omega)
    have h1 : (r.push c).charAt 1 = r.charAt 1 := charAt_push hneed
    cases hd : r.charAt 0 == chr '<' && isNameStartChar (r.charAt 1) with
    | true =>
      by_cases hnest : MAX_NESTING ≤ r.elements.length
      · apply Steady.throw (e := r.error "Max nesting exceeded")
        · rw [element, not_needChars hneed, if_neg Bool.false_ne_true]
          dsimp only
          rw [if_pos hd, if_pos hnest]
        · rw [element, needChars_push hneed, if_neg Bool.false_ne_true]
          dsimp only
          rw [h0, h1, if_pos hd, push_elements, if_pos hnest]
          rfl
      · apply Steady.take
        · rw [element, not_needChars hneed, if_neg Bool.false_ne_true]
          dsimp only
          rw [if_pos hd, if_neg hnest]
          rfl
        · rw [element, needChars_push hneed, if_neg Bool.false_ne_true]
          dsimp only
          rw [h0, h1, if_pos hd, push_elements, if_neg hnest, advancePos_push hneed]
          rfl
    | false =>
      apply Steady.refuse
      · rw [element, not_needChars hneed, if_neg Bool.false_ne_true]
        dsimp only
        rw [hd, if_neg Bool.false_ne_true]
      · rw [element, needChars_push hneed, if_neg Bool.false_ne_true]
        dsimp only
        rw [h0, h1, hd, if_neg Bool.false_ne_true]
  · apply Steady.wait
    rw [element, if_pos (not_needChars_iff.mpr (Nat.lt_of_not_le hneed))]

theorem steady_elementAttr : Steady elementAttr r c := by
  by_cases hneed : 1 ≤ r.bufSize
  · cases hd : isNameStartChar (r.charAt 0) with
    | true =>
      apply Steady.take
      · rw [elementAttr, not_needChars hneed, if_neg Bool.false_ne_true]
        dsimp only
        rw [if_pos hd]
        rfl
      · rw [elementAttr, needChars_push hneed, if_neg Bool.false_ne_true]
        dsimp only
        rw [charAt_push hneed, if_pos hd, advancePos_push hneed]
        rfl
    | false =>
      apply Steady.refuse
      · rw [elementAttr, not_needChars hneed, if_neg Bool.false_ne_true]
        dsimp only
        rw [hd, if_neg Bool.false_ne_true]
      · rw [elementAttr, needChars_push hneed, if_neg Bool.false_ne_true]
        dsimp only
        rw [charAt_push hneed, hd, if_neg Bool.false_ne_true]
  · apply Steady.wait
    rw [elementAttr, if_pos (not_needChars_iff.mpr (Nat.lt_of_not_le hneed))]

theorem startTag_push (simple : Bool) : (r.push c).startTag simple = (r.startTag simple).push c :=
  rfl

/-- The functions that wait for a `>`. -/
theorem steady_close {a : Action} {f : SimpleXMLReader → SimpleXMLReader}
    (ha : ∀ r, a r = if !r.needChars 1 then .ok (true, r)
      else if r.charAt 0 == chr '>' then .ok (true, f r) else .ok (false, r))
    (hf : 1 ≤ r.bufSize → f (r.push c) = (f r).push c) : Steady a r c := by
  by_cases hneed : 1 ≤ r.bufSize
  · cases hd : r.charAt 0 == chr '>' with
    | true =>
      apply Steady.take
      · rw [ha, not_needChars hneed, if_neg Bool.false_ne_true, if_pos hd]
      · rw [ha, needChars_push hneed, if_neg Bool.false_ne_true, charAt_push hneed, if_pos hd,
          hf hneed]
    | false =>
      apply Steady.refuse
      · rw [ha, not_needChars hneed, if_neg Bool.false_ne_true, hd, if_neg Bool.false_ne_true]
      · rw [ha, needChars_push hneed, if_neg Bool.false_ne_true, charAt_push hneed, hd,
          if_neg Bool.false_ne_true]
  · apply Steady.wait
    rw [ha, if_pos (not_needChars_iff.mpr (Nat.lt_of_not_le hneed))]

theorem steady_elementEndSimple : Steady elementEndSimple r c := by
  refine steady_close (fun _ => rfl) fun hneed => ?_
  rw [startTag_push, advancePos_push (r := r.startTag true) hneed]
  rfl

theorem steady_elementEndComplex : Steady elementEndComplex r c := by
  refine steady_close (fun _ => rfl) fun hneed => ?_
  rw [startTag_push, advancePos_push (r := r.startTag false) hneed]
  rfl

theorem steady_elementEndEnd : Steady elementEndEnd r c := by
  refine steady_close (fun _ => rfl) fun hneed => ?_
  rw [advancePos_push hneed]
  rfl

theorem steady_elementEnd : Steady elementEnd r c := by
  cases helems : r.elements with
  | nil =>
    apply Steady.refuse
    · rw [elementEnd, helems]
    · rw [elementEnd, push_elements, helems]
  | cons top rest =>
    by_cases hneed : top.length ≤ r.bufSize
    · have htake : (r.buf ++ c).take top.length = r.buf.take top.length :=
        List.take_append_of_le_length hneed
      cases hd : r.buf.take top.length == top with
      | true =>
        apply Steady.take
        · rw [elementEnd, helems]
          dsimp only
          rw [not_needChars hneed, if_neg Bool.false_ne_true, if_pos hd]
        · rw [elementEnd, push_elements, helems]
          dsimp only
          rw [needChars_push hneed, if_neg Bool.false_ne_true, push_buf, htake, if_pos hd,
            advancePos_push hneed]
          rfl
      | false =>
        apply Steady.refuse
        · rw [elementEnd, helems]
          dsimp only
          rw [not_needChars hneed, if_neg Bool.false_ne_true, hd, if_neg Bool.false_ne_true]
        · rw [elementEnd, push_elements, helems]
          dsimp only
          rw [needChars_push hneed, if_neg Bool.false_ne_true, push_buf, htake, hd,
            if_neg Bool.false_ne_true]
    · apply Steady.wait
      rw [elementEnd, helems]
      dsimp only
      rw [if_pos (not_needChars_iff.mpr (Nat.lt_of_not_le hneed))]

/-- The loop of `declVersionNum` answers the same with more data, unless it waits. -/
theorem declVersionLoop_append (sep : UInt8) (buf c : Str) (n : Nat) :
    declVersionLoop sep buf n = some none ∨
      declVersionLoop sep (buf ++ c) n = declVersionLoop sep buf n := by
  induction buf generalizing n with
  | nil => exact Or.inl rfl
  | cons d buf ih =>
    rw [List.cons_append, declVersionLoop, declVersionLoop]
    cases d == sep with
    | true => exact Or.inr rfl
    | false =>
      cases inRange d 0 9 with
      | true => exact ih (n + 1)
      | false => exact Or.inr rfl

theorem steady_declVersionNum : Steady declVersionNum r c := by
  by_cases hneed : 5 ≤ r.bufSize
  · have h0 : (r.push c).charAt 0 = r.charAt 0 := charAt_push (by omega)
    have h1 : (r.push c).charAt 1 = r.charAt 1 := charAt_push (by omega)
    have h2 : (r.push c).charAt 2 = r.charAt 2 := charAt_push (by omega)
    have h3 : (r.push c).charAt 3 = r.charAt 3 := charAt_push (by omega)
    have hdrop : (r.push c).buf.drop 4 = r.buf.drop 4 ++ c :=
      List.drop_append_of_le_length (by unfold bufSize at hneed; omega)
    cases hsep : (r.charAt 0 == QUOT || r.charAt 0 == APOS) && r.charAt 1 == chr '1' &&
        r.charAt 2 == chr '.' with
    | false =>
      apply Steady.refuse
      · rw [declVersionNum, not_needChars hneed, if_neg Bool.false_ne_true]
        dsimp only
        rw [hsep, if_neg Bool.false_ne_true]
      · rw [declVersionNum, needChars_push hneed, if_neg Bool.false_ne_true]
        dsimp only
        rw [h0, h1, h2, hsep, if_neg Bool.false_ne_true]
    | true =>
      cases hdigit : !isdigit (r.charAt 3) with
      | true =>
        apply Steady.refuse
        · rw [declVersionNum, not_needChars hneed, if_neg Bool.false_ne_true]
          dsimp only
          rw [hsep, if_pos rfl, hdigit, if_pos rfl]
        · rw [declVersionNum, needChars_push hneed, if_neg Bool.false_ne_true]
          dsimp only
          rw [h0, h1, h2, h3, hsep, if_pos rfl, hdigit, if_pos rfl]
      | false =>
        rcases declVersionLoop_append (r.charAt 0) (r.buf.drop 4) c 4 with hwait | hsame
        · apply Steady.wait
          rw [declVersionNum, not_needChars hneed, if_neg Bool.false_ne_true]
          dsimp only
          rw [hsep, if_pos rfl, hdigit, if_neg Bool.false_ne_true, hwait]
        cases hl : declVersionLoop (r.charAt 0) (r.buf.drop 4) 4 with
        | none =>
          apply Steady.refuse
          · rw [declVersionNum, not_needChars hneed, if_neg Bool.false_ne_true]
            dsimp only
            rw [hsep, if_pos rfl, hdigit, if_neg Bool.false_ne_true, hl]
          · rw [declVersionNum, needChars_push hneed, if_neg Bool.false_ne_true]
            dsimp only
            rw [h0, h1, h2, h3, hsep, if_pos rfl, hdigit, if_neg Bool.false_ne_true, hdrop, hsame,
              hl]
        | some x =>
          cases x with
          | none =>
            apply Steady.wait
            rw [declVersionNum, not_needChars hneed, if_neg Bool.false_ne_true]
            dsimp only
            rw [hsep, if_pos rfl, hdigit, if_neg Bool.false_ne_true, hl]
          | some n =>
            obtain ⟨-, hle⟩ := declVersionLoop_le hl
            have hn : n ≤ r.bufSize := by
              rw [List.length_drop] at hle
              unfold bufSize at hneed ⊢
              omega
            apply Steady.take
            · rw [declVersionNum, not_needChars hneed, if_neg Bool.false_ne_true]
              dsimp only
              rw [hsep, if_pos rfl, hdigit, if_neg Bool.false_ne_true, hl]
            · rw [declVersionNum, needChars_push hneed, if_neg Bool.false_ne_true]
              dsimp only
              rw [h0, h1, h2, h3, hsep, if_pos rfl, hdigit, if_neg Bool.false_ne_true, hdrop,
                hsame, hl]
              dsimp only
              rw [advancePos_push hn]
              rfl
  · apply Steady.wait
    rw [declVersionNum, if_pos (not_needChars_iff.mpr (Nat.lt_of_not_le hneed))]

/-! ## References that are cut -/

/-- The first seven bytes of a reference of eight, `&#12345;` or `&#x1234;`, and nothing behind
    them. -/
def CutSeven (buf : Str) : Prop :=
  buf.length = 7 ∧ buf.getD 1 0 = chr '#' ∧
    ((∀ i < 5, isdigit (buf.getD (2 + i) 0) = true) ∨
      ((buf.getD 2 0 = chr 'x' ∨ buf.getD 2 0 = chr 'X') ∧
        ∀ i < 4, isxdigit (buf.getD (3 + i) 0) = true))

instance cutSevenDecidable (buf : Str) : Decidable (CutSeven buf) :=
  inferInstanceAs (Decidable (_ ∧ _ ∧ _))

theorem isPrefixOf_append {lit buf : Str} (hle : lit.length ≤ buf.length) :
    lit.isPrefixOf (buf ++ c) = lit.isPrefixOf buf := by
  rw [Bool.eq_iff_iff, List.isPrefixOf_iff_prefix, List.isPrefixOf_iff_prefix]
  constructor
  · intro h
    exact List.prefix_of_prefix_length_le h (List.prefix_append buf c) hle
  · intro h
    exact h.trans (List.prefix_append buf c)

theorem isDecimalRef_append {buf : Str} {n : Nat} (h : n + 2 < buf.length) :
    isDecimalRef (buf ++ c) n = isDecimalRef buf n := by
  have hget : ∀ i, i ≤ n + 2 → (buf ++ c).getD i 0 = buf.getD i 0 :=
    fun i hi => List.getD_append _ _ _ _ (by omega)
  unfold isDecimalRef
  rw [hget 1 (by omega), hget (2 + n) (by omega)]
  congr 2
  rw [Bool.eq_iff_iff, List.all_eq_true, List.all_eq_true]
  refine forall₂_congr fun i hi => ?_
  rw [hget (2 + i) (by have := List.mem_range.mp hi; omega)]

theorem isHexRef_append {buf : Str} {n : Nat} (h : n + 3 < buf.length) :
    isHexRef (buf ++ c) n = isHexRef buf n := by
  have hget : ∀ i, i ≤ n + 3 → (buf ++ c).getD i 0 = buf.getD i 0 :=
    fun i hi => List.getD_append _ _ _ _ (by omega)
  unfold isHexRef
  rw [hget 1 (by omega), hget 2 (by omega), hget (3 + n) (by omega)]
  congr 2
  rw [Bool.eq_iff_iff, List.all_eq_true, List.all_eq_true]
  refine forall₂_congr fun i hi => ?_
  rw [hget (3 + i) (by have := List.mem_range.mp hi; omega)]

/-- A reference of eight bytes is refused when there are seven, whatever comes behind them, or its
    seven bytes are there. -/
theorem isDecimalRef_seven {buf : Str} (h : 6 < buf.length) (hcut : ¬ CutSeven buf) :
    isDecimalRef (buf ++ c) 5 = isDecimalRef buf 5 := by
  by_cases hlt : 7 < buf.length
  · exact isDecimalRef_append hlt
  have hlen : buf.length = 7 := by omega
  have hfalse : isDecimalRef buf 5 = false := by
    rw [Bool.eq_false_iff]
    intro href
    have := isDecimalRef_length href
    omega
  rw [hfalse, Bool.eq_false_iff]
  intro href
  simp only [isDecimalRef, Bool.and_eq_true, beq_iff_eq, List.all_eq_true, List.mem_range] at href
  obtain ⟨⟨hhash, hdigits⟩, -⟩ := href
  refine hcut ⟨hlen, ?_, Or.inl fun i hi => ?_⟩
  · rw [← hhash, List.getD_append _ _ _ _ (by omega)]
  · rw [← hdigits i hi, List.getD_append _ _ _ _ (by omega)]

theorem isHexRef_seven {buf : Str} (h : 6 < buf.length) (hcut : ¬ CutSeven buf) :
    isHexRef (buf ++ c) 4 = isHexRef buf 4 := by
  by_cases hlt : 7 < buf.length
  · exact isHexRef_append hlt
  have hlen : buf.length = 7 := by omega
  have hfalse : isHexRef buf 4 = false := by
    rw [Bool.eq_false_iff]
    intro href
    have := isHexRef_length href
    omega
  rw [hfalse, Bool.eq_false_iff]
  intro href
  simp only [isHexRef, Bool.and_eq_true, Bool.or_eq_true, beq_iff_eq, List.all_eq_true,
    List.mem_range] at href
  obtain ⟨⟨⟨hhash, hx⟩, hdigits⟩, -⟩ := href
  refine hcut ⟨hlen, ?_, Or.inr ⟨?_, fun i hi => ?_⟩⟩
  · rw [← hhash, List.getD_append _ _ _ _ (by omega)]
  · rw [List.getD_append _ _ _ _ (by omega)] at hx
    exact hx
  · rw [← hdigits i hi, List.getD_append _ _ _ _ (by omega)]

/-- Seven bytes tell which reference it is, if they are not cut. -/
theorem reference_append {buf : Str} (h : 6 < buf.length) (hcut : ¬ CutSeven buf) :
    reference (buf ++ c) = reference buf := by
  have hdrop : (buf ++ c).drop 1 = buf.drop 1 ++ c :=
    List.drop_append_of_le_length (by omega)
  have hnamed : ∀ lit : Str, lit.length ≤ 6 →
      lit.isPrefixOf ((buf ++ c).drop 1) = lit.isPrefixOf (buf.drop 1) := by
    intro lit hlit
    rw [hdrop, isPrefixOf_append]
    rw [List.length_drop]
    omega
  unfold reference
  rw [hnamed _ (by decide), hnamed _ (by decide), hnamed _ (by decide), hnamed _ (by decide),
    hnamed _ (by decide), isDecimalRef_append (by omega), isDecimalRef_append (by omega),
    isDecimalRef_append (by omega), isDecimalRef_append (by omega), isDecimalRef_seven h hcut,
    isHexRef_append (by omega), isHexRef_append (by omega), isHexRef_append (by omega),
    isHexRef_seven h hcut]

/-- What `entref` answers does not depend on what comes, if it does not wait and nothing is
    cut. -/
theorem entref_push {d : Str} (hcut : ¬ CutSeven r.buf) :
    (r.entref d = .ok (true, d, r) ∧ r.bufSize ≤ 6) ∨
      (r.entref d = .error (r.error "Buffer overflow") ∧
        (r.push c).entref d = .error (r.error "Buffer overflow")) ∨
      (r.entref d = .ok (false, d, r) ∧ (r.push c).entref d = .ok (false, d, r.push c)) ∨
      ∃ s n, 0 < n ∧ n ≤ r.bufSize ∧ r.entref d = .ok (true, d ++ s, r.advancePos n) ∧
        (r.push c).entref d = .ok (true, d ++ s, (r.advancePos n).push c) := by
  unfold entref
  by_cases hlen : MAX_VALUE_SIZE < d.length
  · rw [if_pos hlen, if_pos hlen]
    exact Or.inr (Or.inl ⟨rfl, rfl⟩)
  rw [if_neg hlen, if_neg hlen]
  by_cases hsize : 6 < r.bufSize
  · have hsize' : 6 < (r.push c).bufSize := by rw [bufSize_push]; omega
    rw [if_pos hsize, if_pos hsize', push_buf, reference_append hsize hcut]
    cases href : reference r.buf with
    | none => exact Or.inr (Or.inr (Or.inl ⟨rfl, rfl⟩))
    | some sn =>
      obtain ⟨s, n⟩ := sn
      obtain ⟨hn, hle⟩ := reference_length hsize href
      refine Or.inr (Or.inr (Or.inr ⟨s, n, by omega, hle, rfl, ?_⟩))
      rw [← advancePos_push hle]
  · rw [if_neg hsize]
    exact Or.inl ⟨rfl, Nat.le_of_not_lt hsize⟩

theorem steady_content (hcut : r.buf.head? = some AMP → ¬ CutSeven r.buf) :
    Steady content r c := by
  by_cases hneed : 1 ≤ r.bufSize
  · cases hd : r.charAt 0 == AMP with
    | true =>
      have hhead : r.buf.head? = some AMP := by
        cases hb : r.buf with
        | nil => rw [bufSize, hb] at hneed; cases hneed
        | cons x buf =>
          rw [charAt, hb, List.getD_cons_zero, beq_iff_eq] at hd
          rw [hd]
          rfl
      have hr : ∀ q : SimpleXMLReader, (!q.needChars 1) = false → q.charAt 0 = r.charAt 0 →
          ∀ x, q.entref q.value = x → content q =
            x.map fun y => (y.1, { y.2.2 with value := y.2.1 }) := by
        intro q hq hq0 x hx
        rw [content, hq, if_neg Bool.false_ne_true]
        dsimp only
        rw [hq0, if_pos hd, hx]
        cases x with
        | error e => rfl
        | ok y => rfl
      have hself := hr r (not_needChars hneed) rfl
      have hpush := hr (r.push c) (needChars_push hneed) (charAt_push hneed)
      rcases entref_push (c := c) (d := r.value) (hcut hhead) with
        ⟨h, -⟩ | ⟨h, h'⟩ | ⟨h, h'⟩ | ⟨s, n, -, -, h, h'⟩
      · exact Steady.wait (hself _ h)
      · exact Steady.throw (hself _ h) (hpush _ h')
      · exact Steady.refuse (hself _ h) (hpush _ h')
      · exact Steady.take (hself _ h) (hpush _ h')
    | false =>
      by_cases hlen : MAX_VALUE_SIZE < r.value.length
      · apply Steady.throw (e := r.error "Buffer overflow")
        · rw [content, not_needChars hneed, if_neg Bool.false_ne_true]
          dsimp only
          rw [hd, if_neg Bool.false_ne_true, append, if_pos hlen]
        · rw [content, needChars_push hneed, if_neg Bool.false_ne_true]
          dsimp only
          rw [charAt_push hneed, hd, if_neg Bool.false_ne_true, append, push_value, if_pos hlen]
          rfl
      · apply Steady.take
        · rw [content, not_needChars hneed, if_neg Bool.false_ne_true]
          dsimp only
          rw [hd, if_neg Bool.false_ne_true, append, if_neg hlen]
        · rw [content, needChars_push hneed, if_neg Bool.false_ne_true]
          dsimp only
          rw [charAt_push hneed, hd, if_neg Bool.false_ne_true, append, push_value, if_neg hlen]
          dsimp only
          rw [advancePos_push hneed]
          rfl
  · apply Steady.wait
    rw [content, if_pos (not_needChars_iff.mpr (Nat.lt_of_not_le hneed))]

/-! ## White space -/

/-- Skipping goes on where it stopped. -/
theorem skipSpaceLoop_push (store : Bool) {buf : Str} (hb : r.buf = buf) :
    (∀ e, skipSpaceLoop store buf r = .error e →
        skipSpaceLoop store (buf ++ c) (r.push c) = .error e) ∧
      ∀ q, skipSpaceLoop store buf r = .ok q →
        skipSpaceLoop store (buf ++ c) (r.push c) =
            skipSpaceLoop store (q.buf ++ c) (q.push c) ∧
          q.state = r.state := by
  induction buf generalizing r with
  | nil =>
    refine ⟨fun e h => ?_, fun q h => ?_⟩
    · cases h
    · cases h
      exact ⟨by rw [hb], rfl⟩
  | cons d buf ih =>
    have hone : 1 ≤ r.bufSize := by rw [bufSize, hb]; exact Nat.succ_pos _
    have hdrop : (r.advancePos 1).buf = buf := by rw [advancePos, hb]; rfl
    rw [List.cons_append, skipSpaceLoop, skipSpaceLoop, advancePos_push hone]
    cases hd : isSpace d with
    | false =>
      rw [if_neg Bool.false_ne_true, if_neg Bool.false_ne_true]
      refine ⟨fun e h => ?_, fun q h => ?_⟩
      · cases h
      · cases h
        refine ⟨?_, rfl⟩
        rw [hb, List.cons_append, skipSpaceLoop, hd, if_neg Bool.false_ne_true]
    | true =>
      rw [if_pos rfl, if_pos rfl]
      cases store with
      | false => exact ih hdrop
      | true =>
        rw [if_pos rfl, if_pos rfl, append, append, push_value]
        by_cases hlen : MAX_VALUE_SIZE < r.value.length
        · rw [if_pos hlen, if_pos hlen]
          refine ⟨fun e h => h, fun q h => ?_⟩
          cases h
        · rw [if_neg hlen, if_neg hlen]
          exact ih (r := { r.advancePos 1 with value := r.value ++ [d] }) hdrop

theorem skipSpaceLoop_of_ne {store : Bool} {d : UInt8} {buf : Str} (hd : isSpace d = false) :
    skipSpaceLoop store (d :: buf) r = .ok r := by
  rw [skipSpaceLoop, hd, if_neg Bool.false_ne_true]

theorem skipSpaceLoop_false_ok (buf : Str) : ∃ q, skipSpaceLoop false buf r = .ok q := by
  induction buf generalizing r with
  | nil => exact ⟨r, rfl⟩
  | cons d buf ih =>
    cases hd : isSpace d with
    | false => exact ⟨r, skipSpaceLoop_of_ne hd⟩
    | true =>
      obtain ⟨q, hq⟩ := ih (r := r.advancePos 1)
      exact ⟨q, by rw [skipSpaceLoop, hd, if_pos rfl, if_neg Bool.false_ne_true, hq]⟩

theorem skipSpace_nil {store : Bool} (hb : r.buf = []) : skipSpace store r = .ok (true, r) := by
  rw [skipSpace, if_pos]
  rw [not_needChars_iff, bufSize, hb]
  exact Nat.one_pos

theorem skipSpace_cons {store : Bool} {d : UInt8} {buf : Str} (hb : r.buf = d :: buf) :
    skipSpace store r = (skipSpaceLoop store r.buf r).map fun q => (isSpace d, q) := by
  have hneed : 1 ≤ r.bufSize := by rw [bufSize, hb]; exact Nat.succ_pos _
  rw [skipSpace, not_needChars hneed, if_neg Bool.false_ne_true, charAt, hb, List.getD_cons_zero]
  cases skipSpaceLoop store (d :: buf) r with
  | error e => rfl
  | ok q => rfl

/-! ## The functions of a state, one after the other -/

/-- The outcome of the functions stays what it is, and the reader keeps the data behind. -/
structure Exact (as : List Action) (r : SimpleXMLReader) (c : Str) : Prop where
  error : ∀ e, firstOf as r = .error e → firstOf as (r.push c) = .error e
  ok : ∀ r', firstOf as r = .ok r' → r' = r ∨ firstOf as (r.push c) = .ok (r'.push c)

/-- The states that wait for some bytes before they look for white space. -/
def skipsLate (state : ParseState) : Bool :=
  state == .start || state == .declVersionNum || state == .elementEnd

/-- The reader behind the white space that will be skipped before anything else is done. -/
def trim (r : SimpleXMLReader) : SimpleXMLReader :=
  if skipsLate r.state then r.advancePos (r.buf.takeWhile isSpace).length else r

/-- The same, or all that was there has been consumed and more is consumed in the same way. -/
structure Extends (as : List Action) (r : SimpleXMLReader) (c : Str) : Prop where
  error : ∀ e, firstOf as r = .error e → (firstOf as (r.push c)).toOption = none
  ok : ∀ r', firstOf as r = .ok r' → r' = r ∨ firstOf as (r.push c) = .ok (r'.push c) ∨
    (r'.state = r.state ∧
      ((firstOf as (r.push c)).toOption = (firstOf as (r'.push c)).toOption ∨
        firstOf as (r.push c) = .ok (r'.push c).trim))

theorem Exact.extends {as : List Action} (h : Exact as r c) : Extends as r c :=
  ⟨fun e he => by rw [h.error e he]; rfl, fun r' hr => (h.ok r' hr).imp_right Or.inl⟩

/-- Steady functions settle the matter, or leave it to the functions behind them. -/
theorem firstOf_steady {ms : List Action} (h : ∀ a ∈ ms, Steady a r c) (ls : List Action) :
    Exact (ms ++ ls) r c ∨
      (firstOf (ms ++ ls) r = firstOf ls r ∧
        firstOf (ms ++ ls) (r.push c) = firstOf ls (r.push c)) := by
  induction ms with
  | nil => exact Or.inr ⟨rfl, rfl⟩
  | cons a ms ih =>
    have ha := h a (List.mem_cons_self ..)
    rw [List.cons_append]
    cases har : a r with
    | error e =>
      refine Or.inl ⟨fun e' he => ?_, fun r' hr => ?_⟩
      · rw [firstOf, har] at he
        rw [firstOf, ha.error e har]
        exact he
      · rw [firstOf, har] at hr
        cases hr
    | ok x =>
      obtain ⟨b, q⟩ := x
      cases b with
      | true =>
        refine Or.inl ⟨fun e' he => ?_, fun r' hr => ?_⟩
        · rw [firstOf, har] at he
          cases he
        · rw [firstOf, har] at hr
          cases hr
          refine (ha.yes q har).imp_right fun hpush => ?_
          rw [firstOf, hpush]
      | false =>
        obtain ⟨rfl, hpush⟩ := ha.no q har
        have hr : firstOf (a :: (ms ++ ls)) q = firstOf (ms ++ ls) q := by rw [firstOf, har]
        have hp : firstOf (a :: (ms ++ ls)) (q.push c) = firstOf (ms ++ ls) (q.push c) := by
          rw [firstOf, hpush]
        rcases ih fun b hb => h b (List.mem_cons_of_mem a hb) with hexact | ⟨hr', hp'⟩
        · refine Or.inl ⟨fun e he => ?_, fun r' hr' => ?_⟩
          · rw [hr] at he
            rw [hp, hexact.error e he]
          · rw [hr] at hr'
            rw [hp]
            exact hexact.ok r' hr'
        · exact Or.inr ⟨hr.trans hr', hp.trans hp'⟩

theorem exact_fail {as : List Action} {message : String} (hlast : as.getLast? = some (fail message))
    (h : ∀ a ∈ as.dropLast, Steady a r c) : Exact as r c := by
  rw [← List.dropLast_append_getLast? _ hlast]
  rcases firstOf_steady h [fail message] with hexact | ⟨hr, hp⟩
  · exact hexact
  · refine ⟨fun e he => ?_, fun r' hr' => ?_⟩
    · rw [hp, ← he, hr]
      rfl
    · rw [hr] at hr'
      cases hr'

/-- The functions that know white space is not for them. -/
def RefusesSpace (a : Action) : Prop :=
  ∀ q : SimpleXMLReader, (∃ d rest, q.buf = d :: rest ∧ isSpace d = true) → a q = .ok (false, q)

theorem firstOf_refusesSpace {ms ls : List Action} (h : ∀ a ∈ ms, RefusesSpace a)
    (hr : ∃ d rest, r.buf = d :: rest ∧ isSpace d = true) :
    firstOf (ms ++ ls) r = firstOf ls r := by
  induction ms with
  | nil => rfl
  | cons a ms ih =>
    rw [List.cons_append, firstOf, h a (List.mem_cons_self ..) r hr]
    exact ih fun b hb => h b (List.mem_cons_of_mem a hb)

theorem firstOf_spaceOrError_of_space {message : String} {d : UInt8} {rest : Str}
    {q : SimpleXMLReader} (hb : r.buf = d :: rest) (hd : isSpace d = true)
    (hq : skipSpaceLoop false r.buf r = .ok q) : firstOf [spaceOrError message] r = .ok q := by
  rw [firstOf, spaceOrError, skipSpace_cons hb, hq, hd]
  rfl

theorem firstOf_spaceOrError_of_ne {message : String} {d : UInt8} {rest : Str}
    (hb : r.buf = d :: rest) (hd : isSpace d = false) :
    firstOf [spaceOrError message] r = .error (r.error message) := by
  rw [firstOf, spaceOrError, skipSpace_cons hb, hb, skipSpaceLoop_of_ne hd, hd]
  rfl

/-- White space behind functions that are steady. When it is all there is, more of it may come,
    and then the functions must know that it is not for them. -/
theorem extends_space {as : List Action} {message : String}
    (hlast : as.getLast? = some (spaceOrError message)) (h : ∀ a ∈ as.dropLast, Steady a r c)
    (hspace : ∀ a ∈ as.dropLast, RefusesSpace a) : Extends as r c := by
  rw [← List.dropLast_append_getLast? _ hlast]
  rcases firstOf_steady h [spaceOrError message] with hexact | ⟨hr, hp⟩
  · exact hexact.extends
  cases hb : r.buf with
  | nil =>
    have hwait : firstOf [spaceOrError message] r = .ok r := by
      rw [firstOf, spaceOrError, skipSpace_nil hb]
    refine ⟨fun e he => ?_, fun r' hr' => ?_⟩
    · rw [hr, hwait] at he
      cases he
    · rw [hr, hwait] at hr'
      cases hr'
      exact Or.inl rfl
  | cons d rest =>
    have hbp : (r.push c).buf = d :: (rest ++ c) := by rw [push_buf, hb, List.cons_append]
    cases hd : isSpace d with
    | false =>
      refine ⟨fun e he => ?_, fun r' hr' => ?_⟩
      · rw [hp, firstOf_spaceOrError_of_ne hbp hd]
        rfl
      · rw [hr, firstOf_spaceOrError_of_ne hb hd] at hr'
        cases hr'
    | true =>
      obtain ⟨q, hq⟩ := skipSpaceLoop_false_ok (r := r) r.buf
      obtain ⟨hsame, hstate⟩ := (skipSpaceLoop_push false rfl).2 q hq
      have hrq : firstOf (as.dropLast ++ [spaceOrError message]) r = .ok q := by
        rw [hr, firstOf_spaceOrError_of_space hb hd hq]
      have hpush : ∀ p, skipSpaceLoop false (q.buf ++ c) (q.push c) = .ok p →
          firstOf (as.dropLast ++ [spaceOrError message]) (r.push c) = .ok p := by
        intro p hp'
        rw [hp, firstOf_spaceOrError_of_space hbp hd]
        rw [push_buf, hsame, hp']
      refine ⟨fun e he => ?_, fun r' hr' => ?_⟩
      · rw [hrq] at he
        cases he
      rw [hrq] at hr'
      cases hr'
      -- the data behind: nothing, something else, or more white space
      cases hbuf : q.buf ++ c with
      | nil =>
        refine Or.inr (Or.inl (hpush _ ?_))
        rw [hbuf]
        rfl
      | cons x rest' =>
        cases hx : isSpace x with
        | false =>
          refine Or.inr (Or.inl (hpush _ ?_))
          rw [hbuf, skipSpaceLoop_of_ne hx]
        | true =>
          obtain ⟨p, hp'⟩ := skipSpaceLoop_false_ok (r := q.push c) (q.buf ++ c)
          refine Or.inr (Or.inr ⟨hstate, Or.inl ?_⟩)
          rw [hpush p hp', firstOf_refusesSpace hspace ⟨x, rest', hbuf, hx⟩,
            firstOf_spaceOrError_of_space hbuf hx hp']

/-- White space in front of everything else. -/
theorem extends_skipSpace {store : Bool} {as : List Action}
    (has : ∀ d rest, r.buf = d :: rest → isSpace d = false → Exact as r c) :
    Extends (skipSpace store :: as) r c := by
  cases hb : r.buf with
  | nil =>
    have hwait : firstOf (skipSpace store :: as) r = .ok r := by
      rw [firstOf, skipSpace_nil hb]
    refine ⟨fun e he => ?_, fun r' hr' => ?_⟩
    · rw [hwait] at he
      cases he
    · rw [hwait] at hr'
      cases hr'
      exact Or.inl rfl
  | cons d rest =>
    have hbp : (r.push c).buf = d :: (rest ++ c) := by rw [push_buf, hb, List.cons_append]
    cases hd : isSpace d with
    | false =>
      have hr : firstOf (skipSpace store :: as) r = firstOf as r := by
        rw [firstOf, skipSpace_cons hb, hb, skipSpaceLoop_of_ne hd, hd]
        rfl
      have hp : firstOf (skipSpace store :: as) (r.push c) = firstOf as (r.push c) := by
        rw [firstOf, skipSpace_cons hbp, hbp, skipSpaceLoop_of_ne hd, hd]
        rfl
      have hexact := has d rest hb hd
      refine ⟨fun e he => ?_, fun r' hr' => ?_⟩
      · rw [hr] at he
        rw [hp, hexact.error e he]
        rfl
      · rw [hr] at hr'
        rw [hp]
        exact (hexact.ok r' hr').imp_right Or.inl
    | true =>
      obtain ⟨herr, hok⟩ := skipSpaceLoop_push (c := c) store (rfl : r.buf = r.buf)
      have hpush : firstOf (skipSpace store :: as) (r.push c) =
          skipSpaceLoop store (r.buf ++ c) (r.push c) := by
        rw [firstOf, skipSpace_cons hbp, hd, push_buf]
        cases skipSpaceLoop store (r.buf ++ c) (r.push c) with
        | error e => rfl
        | ok q => rfl
      have hself : firstOf (skipSpace store :: as) r = skipSpaceLoop store r.buf r := by
        rw [firstOf, skipSpace_cons hb, hd]
        cases skipSpaceLoop store r.buf r with
        | error e => rfl
        | ok q => rfl
      refine ⟨fun e he => ?_, fun q hq => ?_⟩
      · rw [hself] at he
        rw [hpush, herr e he]
        rfl
      rw [hself] at hq
      obtain ⟨hsame, hstate⟩ := hok q hq
      rw [hpush, hsame]
      cases hbuf : q.buf ++ c with
      | nil => exact Or.inr (Or.inl rfl)
      | cons x rest' =>
        cases hx : isSpace x with
        | false => exact Or.inr (Or.inl (skipSpaceLoop_of_ne hx))
        | true =>
          refine Or.inr (Or.inr ⟨hstate, Or.inl ?_⟩)
          rw [firstOf, skipSpace_cons hbuf, hx, push_buf, hbuf]
          cases skipSpaceLoop store (x :: rest') (q.push c) with
          | error e => rfl
          | ok p => rfl

/-! ## Names and values -/

theorem takeWhile_append_dropWhile (p : UInt8 → Bool) (buf c : Str) :
    (buf ++ c).takeWhile p = buf.takeWhile p ++ (buf.dropWhile p ++ c).takeWhile p := by
  induction buf with
  | nil => rfl
  | cons d buf ih =>
    cases hd : p d with
    | true => simp [hd, ih]
    | false => simp [hd]

theorem drop_takeWhile (p : UInt8 → Bool) (buf : Str) :
    buf.drop (buf.takeWhile p).length = buf.dropWhile p := by
  induction buf with
  | nil => rfl
  | cons d buf ih =>
    cases hd : p d with
    | true => simp [hd, ih]
    | false => simp [hd]

theorem appendElement_nil (h : r.elements = []) (piece : Str) :
    r.appendElement piece = .ok r := by
  rw [appendElement, h]

theorem appendElement_cons {name : Str} {elements : List Str} (h : r.elements = name :: elements)
    (piece : Str) :
    r.appendElement piece = if MAX_NAME_SIZE < name.length + piece.length
      then .error (r.error "Buffer overflow")
      else .ok { r with elements := (name ++ piece) :: elements } := by
  rw [appendElement, h]
  dsimp only
  by_cases hlt : MAX_NAME_SIZE < name.length + piece.length
  · rw [appendRange, if_pos hlt, if_pos hlt]
  · rw [appendRange, if_neg hlt, if_neg hlt]

theorem appendAttrName_nil (h : r.attribs = []) (piece : Str) :
    r.appendAttrName piece = .ok r := by
  rw [appendAttrName, h]

theorem appendAttrName_cons {name value : Str} {attribs : List (Str × Str)}
    (h : r.attribs = (name, value) :: attribs) (piece : Str) :
    r.appendAttrName piece = if MAX_NAME_SIZE < name.length + piece.length
      then .error (r.error "Buffer overflow")
      else .ok { r with attribs := (name ++ piece, value) :: attribs } := by
  rw [appendAttrName, h]
  dsimp only
  by_cases hlt : MAX_NAME_SIZE < name.length + piece.length
  · rw [appendRange, if_pos hlt, if_pos hlt]
  · rw [appendRange, if_neg hlt, if_neg hlt]

theorem appendAttrValue_nil (h : r.attribs = []) (piece : Str) :
    r.appendAttrValue piece = .ok (r.advancePos piece.length) := by
  rw [appendAttrValue, h]

theorem appendAttrValue_cons {name value : Str} {attribs : List (Str × Str)}
    (h : r.attribs = (name, value) :: attribs) (piece : Str) :
    r.appendAttrValue piece = if MAX_VALUE_SIZE < value.length + piece.length
      then .error (r.error "Buffer overflow")
      else .ok ({ r with attribs := (name, value ++ piece) :: attribs }.advancePos
        piece.length) := by
  rw [appendAttrValue, h]
  dsimp only
  by_cases hlt : MAX_VALUE_SIZE < value.length + piece.length
  · rw [appendRange, if_pos hlt, if_pos hlt]
  · rw [appendRange, if_neg hlt, if_neg hlt]

theorem drop_append_drop {buf a : Str} (ha : a.length ≤ buf.length) (n : Nat) :
    (buf ++ c).drop (a.length + n) = (buf.drop a.length ++ c).drop n := by
  rw [← List.drop_drop, List.drop_append_of_le_length ha]

/-- Two results that throw both, or go on with readers that are the same `k` bytes apart. -/
def Shifted (k : Nat) (x y : Result SimpleXMLReader) : Prop :=
  (x.toOption = none ∧ y.toOption = none) ∨
    ∃ p q, x = .ok p ∧ y = .ok q ∧ ∀ n, p.advancePos (k + n) = q.advancePos n

/-- Appending to the name of the element in one piece or in two. -/
theorem appendElement_append {a b : Str} {q : SimpleXMLReader} (ha : a.length ≤ r.bufSize)
    (h : r.appendElement a = .ok q) :
    Shifted a.length ((r.push c).appendElement (a ++ b))
      (((q.advancePos a.length).push c).appendElement b) := by
  cases helems : r.elements with
  | nil =>
    rw [appendElement_nil helems] at h
    cases h
    rw [appendElement_nil (r := r.push c) helems,
      appendElement_nil (r := (r.advancePos a.length).push c) helems]
    refine Or.inr ⟨_, _, rfl, rfl, fun n => ?_⟩
    unfold advancePos push
    rw [drop_append_drop ha, Nat.add_assoc]
  | cons name elements =>
    rw [appendElement_cons helems] at h
    split at h
    · cases h
    · cases h
      rw [appendElement_cons (r := r.push c) helems, appendElement_cons rfl, List.length_append,
        List.length_append, Nat.add_assoc]
      split
      · exact Or.inl ⟨rfl, rfl⟩
      · refine Or.inr ⟨_, _, rfl, rfl, fun n => ?_⟩
        unfold advancePos push
        rw [drop_append_drop ha, Nat.add_assoc, List.append_assoc]

theorem appendAttrName_append {a b : Str} {q : SimpleXMLReader} (ha : a.length ≤ r.bufSize)
    (h : r.appendAttrName a = .ok q) :
    Shifted a.length ((r.push c).appendAttrName (a ++ b))
      (((q.advancePos a.length).push c).appendAttrName b) := by
  cases hattr : r.attribs with
  | nil =>
    rw [appendAttrName_nil hattr] at h
    cases h
    rw [appendAttrName_nil (r := r.push c) hattr,
      appendAttrName_nil (r := (r.advancePos a.length).push c) hattr]
    refine Or.inr ⟨_, _, rfl, rfl, fun n => ?_⟩
    unfold advancePos push
    rw [drop_append_drop ha, Nat.add_assoc]
  | cons attrib attribs =>
    obtain ⟨name, value⟩ := attrib
    rw [appendAttrName_cons hattr] at h
    split at h
    · cases h
    · cases h
      rw [appendAttrName_cons (r := r.push c) hattr, appendAttrName_cons rfl, List.length_append,
        List.length_append, Nat.add_assoc]
      split
      · exact Or.inl ⟨rfl, rfl⟩
      · refine Or.inr ⟨_, _, rfl, rfl, fun n => ?_⟩
        unfold advancePos push
        rw [drop_append_drop ha, Nat.add_assoc, List.append_assoc]

/-- To the value two pieces are appended as one. -/
theorem appendAttrValue_append {a b : Str} {q : SimpleXMLReader} (ha : a.length ≤ r.bufSize)
    (h : r.appendAttrValue a = .ok q) :
    ((r.push c).appendAttrValue (a ++ b)).toOption = ((q.push c).appendAttrValue b).toOption := by
  cases hattr : r.attribs with
  | nil =>
    rw [appendAttrValue_nil hattr] at h
    cases h
    rw [appendAttrValue_nil (r := r.push c) hattr,
      appendAttrValue_nil (r := (r.advancePos a.length).push c) hattr]
    unfold advancePos push
    rw [List.length_append, drop_append_drop ha, Nat.add_assoc]
  | cons attrib attribs =>
    obtain ⟨name, value⟩ := attrib
    rw [appendAttrValue_cons hattr] at h
    split at h
    · cases h
    · cases h
      rw [appendAttrValue_cons (r := r.push c) hattr, appendAttrValue_cons rfl, List.length_append,
        List.length_append, Nat.add_assoc]
      split
      · rfl
      · unfold advancePos push
        rw [drop_append_drop ha, Nat.add_assoc, List.append_assoc]

/-- An overflow is not undone by more of the name. -/
theorem appendElement_error {a b : Str} {e : Exception} (h : r.appendElement a = .error e) :
    (r.push c).appendElement (a ++ b) = .error e := by
  cases helems : r.elements with
  | nil => rw [appendElement_nil helems] at h; cases h
  | cons name elements =>
    rw [appendElement_cons helems] at h
    split at h
    · next hlt =>
      rw [appendElement_cons (r := r.push c) helems, if_pos]
      · exact h
      · rw [List.length_append]
        omega
    · cases h

theorem appendAttrName_error {a b : Str} {e : Exception} (h : r.appendAttrName a = .error e) :
    (r.push c).appendAttrName (a ++ b) = .error e := by
  cases hattr : r.attribs with
  | nil => rw [appendAttrName_nil hattr] at h; cases h
  | cons attrib attribs =>
    obtain ⟨name, value⟩ := attrib
    rw [appendAttrName_cons hattr] at h
    split at h
    · next hlt =>
      rw [appendAttrName_cons (r := r.push c) hattr, if_pos]
      · exact h
      · rw [List.length_append]
        omega
    · cases h

theorem appendAttrValue_error {a b : Str} {e : Exception} (h : r.appendAttrValue a = .error e) :
    (r.push c).appendAttrValue (a ++ b) = .error e := by
  cases hattr : r.attribs with
  | nil => rw [appendAttrValue_nil hattr] at h; cases h
  | cons attrib attribs =>
    obtain ⟨name, value⟩ := attrib
    rw [appendAttrValue_cons hattr] at h
    split at h
    · next hlt =>
      rw [appendAttrValue_cons (r := r.push c) hattr, if_pos]
      · exact h
      · rw [List.length_append]
        omega
    · cases h

theorem appendElement_push (piece : Str) :
    (r.push c).appendElement piece = (r.appendElement piece).map (push · c) := by
  cases helems : r.elements with
  | nil =>
    rw [appendElement_nil helems, appendElement_nil (r := r.push c) helems]
    rfl
  | cons name elements =>
    rw [appendElement_cons helems, appendElement_cons (r := r.push c) helems]
    split
    · rfl
    · rfl

theorem appendAttrName_push (piece : Str) :
    (r.push c).appendAttrName piece = (r.appendAttrName piece).map (push · c) := by
  cases hattr : r.attribs with
  | nil =>
    rw [appendAttrName_nil hattr, appendAttrName_nil (r := r.push c) hattr]
    rfl
  | cons attrib attribs =>
    obtain ⟨name, value⟩ := attrib
    rw [appendAttrName_cons hattr, appendAttrName_cons (r := r.push c) hattr]
    split
    · rfl
    · rfl

/-- What `readName` does, by what is behind the name. -/
theorem readName_nil (appendName : SimpleXMLReader → Str → Result SimpleXMLReader)
    (stop : UInt8 → Option (SimpleXMLReader → SimpleXMLReader))
    (h : r.buf.dropWhile isNameChar = []) :
    readName appendName stop r = (appendName r (r.buf.takeWhile isNameChar)).map fun q =>
      (true, q.advancePos (r.buf.takeWhile isNameChar).length) := by
  unfold readName
  dsimp only
  rw [drop_takeWhile, h]
  dsimp only
  cases appendName r (r.buf.takeWhile isNameChar) with
  | error e => rfl
  | ok q => rfl

theorem readName_cons (appendName : SimpleXMLReader → Str → Result SimpleXMLReader)
    (stop : UInt8 → Option (SimpleXMLReader → SimpleXMLReader)) {d : UInt8} {rest : Str}
    (h : r.buf.dropWhile isNameChar = d :: rest) :
    (stop d = none → readName appendName stop r = .ok (false, r)) ∧
      ∀ f, stop d = some f →
        readName appendName stop r = (appendName r (r.buf.takeWhile isNameChar)).map fun q =>
          (true, (f q).advancePos ((r.buf.takeWhile isNameChar).length + 1)) := by
  unfold readName
  dsimp only
  rw [drop_takeWhile, h]
  dsimp only
  refine ⟨fun hd => ?_, fun f hd => ?_⟩
  · rw [hd]
  · rw [hd]
    dsimp only
    cases appendName r (r.buf.takeWhile isNameChar) with
    | error e => rfl
    | ok q => rfl

theorem KeepsInput.push {f : SimpleXMLReader → SimpleXMLReader} (hf : KeepsInput f) :
    f (r.push c) = (f r).push c := by
  obtain ⟨h, hbuf, hpos⟩ := hf r (r.buf ++ c) r.pos
  calc f (r.push c) = { f r with buf := r.buf ++ c, pos := r.pos } := h
    _ = (f r).push c := by rw [SimpleXMLReader.push, hbuf, ← hpos]

theorem KeepsInput.advancePos {f : SimpleXMLReader → SimpleXMLReader} (hf : KeepsInput f)
    (n : Nat) :
    (f r).advancePos n = f (r.advancePos n) := by
  obtain ⟨h, hbuf, hpos⟩ := hf r (r.buf.drop n) (r.pos + n)
  unfold SimpleXMLReader.advancePos
  rw [h, hbuf, hpos]

/-- A name may come in two pieces. -/
theorem extends_readName {appendName : SimpleXMLReader → Str → Result SimpleXMLReader}
    {stop : UInt8 → Option (SimpleXMLReader → SimpleXMLReader)} (message : String)
    (hspec : ∀ {q piece}, appendName r piece = .ok q →
      q.buf = r.buf ∧ q.pos = r.pos ∧ q.state = r.state ∧ (piece = [] → q = r))
    (happ : ∀ {a b q}, a.length ≤ r.bufSize → appendName r a = .ok q →
      Shifted a.length (appendName (r.push c) (a ++ b))
        (appendName ((q.advancePos a.length).push c) b))
    (herr : ∀ {a b e}, appendName r a = .error e → appendName (r.push c) (a ++ b) = .error e)
    (hpush : ∀ piece, appendName (r.push c) piece = (appendName r piece).map (push · c))
    (hstop : ∀ {d f}, stop d = some f → KeepsInput f) :
    Extends [readName appendName stop, fail message] r c := by
  have hle := length_takeWhile_le isNameChar r.buf
  have htake := takeWhile_append_dropWhile isNameChar r.buf c
  cases hrest : r.buf.dropWhile isNameChar with
  | cons d rest =>
    -- the end of the name is there
    have hd : isNameChar d = false := by
      have := List.head?_dropWhile_not isNameChar r.buf
      rw [hrest] at this
      simpa using this
    have hrestp : (r.push c).buf.dropWhile isNameChar = d :: (rest ++ c) := by
      rw [← drop_takeWhile, push_buf, htake, hrest, List.cons_append, List.takeWhile_cons, hd,
        if_neg Bool.false_ne_true, List.append_nil,
        List.drop_append_of_le_length hle, drop_takeWhile, hrest, List.cons_append]
    have hname : (r.push c).buf.takeWhile isNameChar = r.buf.takeWhile isNameChar := by
      rw [push_buf, htake, hrest, List.cons_append, List.takeWhile_cons, hd,
        if_neg Bool.false_ne_true, List.append_nil]
    obtain ⟨hno, hyes⟩ := readName_cons appendName stop hrest
    obtain ⟨hnop, hyesp⟩ := readName_cons appendName stop hrestp
    apply Exact.extends
    apply exact_fail rfl
    intro a ha
    rw [List.mem_singleton.mp ha]
    cases hf : stop d with
    | none => exact Steady.refuse (hno hf) (hnop hf)
    | some f =>
      have hr := hyes f hf
      have hp := hyesp f hf
      rw [hname, hpush] at hp
      cases hq : appendName r (r.buf.takeWhile isNameChar) with
      | error e =>
        rw [hq] at hr hp
        exact Steady.throw hr hp
      | ok q =>
        obtain ⟨hbuf, -⟩ := hspec hq
        rw [hq] at hr hp
        apply Steady.take hr
        rw [hp]
        have hlt : (r.buf.takeWhile isNameChar).length + 1 ≤ (f q).bufSize := by
          rw [bufSize, (hstop hf q q.buf q.pos).2.1, hbuf]
          apply drop_cons_lt
          rw [drop_takeWhile, hrest]
        dsimp only [Except.map]
        rw [(hstop hf).push, advancePos_push hlt]
  | nil =>
    have hall : r.buf.takeWhile isNameChar = r.buf := by
      have := List.takeWhile_append_dropWhile (p := isNameChar) (l := r.buf)
      rwa [hrest, List.append_nil] at this
    have hr := readName_nil appendName stop hrest
    rw [hall] at hr htake
    rw [hrest, List.nil_append] at htake
    have hdrop : (r.buf ++ c).dropWhile isNameChar = c.dropWhile isNameChar := by
      rw [← drop_takeWhile, htake, List.length_append, drop_append_drop (le_refl _),
        List.drop_length, List.nil_append, drop_takeWhile]
    cases hq : appendName r r.buf with
    | error e =>
      have hpe := herr (b := c.takeWhile isNameChar) hq
      refine ⟨fun e' _ => ?_, fun r' hr' => ?_⟩
      · cases hc : c.dropWhile isNameChar with
        | nil =>
          have hp := readName_nil (r := r.push c) appendName stop
            (hdrop.trans hc)
          rw [push_buf, htake, hpe] at hp
          rw [firstOf, hp]
          rfl
        | cons d rest =>
          obtain ⟨hno, hyes⟩ := readName_cons (r := r.push c) appendName stop (hdrop.trans hc)
          cases hf : stop d with
          | none =>
            rw [firstOf, hno hf]
            rfl
          | some f =>
            have hp := hyes f hf
            rw [push_buf, htake, hpe] at hp
            rw [firstOf, hp]
            rfl
      · rw [firstOf, hr, hq] at hr'
        cases hr'
    | ok q =>
      obtain ⟨hbuf, hpos, hstate, -⟩ := hspec hq
      rw [hq] at hr
      refine ⟨fun e' he => ?_, fun r' hr' => ?_⟩
      · rw [firstOf, hr] at he
        cases he
      rw [firstOf, hr] at hr'
      cases hr'
      have hqnil : (q.advancePos r.buf.length).buf = [] := by
        rw [advancePos, hbuf, List.drop_length]
      have hbufp : ((q.advancePos r.buf.length).push c).buf = c := by
        rw [push_buf, hqnil, List.nil_append]
      have hshift := happ (b := c.takeWhile isNameChar) (le_refl _) hq
      refine Or.inr (Or.inr ⟨hstate, Or.inl ?_⟩)
      cases hc : c.dropWhile isNameChar with
      | nil =>
        have hp := readName_nil (r := r.push c) appendName stop
          (hdrop.trans hc)
        have hp' :=
          readName_nil (r := (q.advancePos r.buf.length).push c) appendName stop (by rw [hbufp, hc])
        rw [push_buf, htake] at hp
        rw [hbufp] at hp'
        rw [firstOf, firstOf, hp, hp']
        rcases hshift with ⟨hx, hy⟩ | ⟨x, y, hx, hy, hxy⟩
        · cases hx' : appendName (r.push c) (r.buf ++ c.takeWhile isNameChar) with
          | ok x => rw [hx'] at hx; cases hx
          | error e =>
            cases hy' : appendName ((q.advancePos r.buf.length).push c)
              (c.takeWhile isNameChar) with
            | ok y => rw [hy'] at hy; cases hy
            | error e' => rfl
        · rw [hx, hy]
          dsimp only [Except.map]
          rw [List.length_append, hxy]
      | cons d rest =>
        obtain ⟨hno, hyes⟩ := readName_cons (r := r.push c) appendName stop (hdrop.trans hc)
        obtain ⟨hno', hyes'⟩ := readName_cons (r := (q.advancePos r.buf.length).push c) appendName
          stop (by rw [hbufp, hc])
        rw [push_buf, htake] at hyes
        rw [hbufp] at hyes'
        rw [firstOf, firstOf]
        cases hf : stop d with
        | none =>
          rw [hno hf, hno' hf]
          rfl
        | some f =>
          rw [hyes f hf, hyes' f hf]
          rcases hshift with ⟨hx, hy⟩ | ⟨x, y, hx, hy, hxy⟩
          · cases hx' : appendName (r.push c) (r.buf ++ c.takeWhile isNameChar) with
            | ok x => rw [hx'] at hx; cases hx
            | error e =>
              cases hy' : appendName ((q.advancePos r.buf.length).push c)
                  (c.takeWhile isNameChar) with
              | ok y => rw [hy'] at hy; cases hy
              | error e' => rfl
          · rw [hx, hy]
            dsimp only [Except.map]
            rw [List.length_append, Nat.add_assoc, (hstop hf).advancePos, (hstop hf).advancePos,
              hxy]

end SimpleXMLReader
end Airdcpp
