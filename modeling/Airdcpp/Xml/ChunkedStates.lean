import Airdcpp.Xml.Chunking

/-!
# `Xml/ChunkedStates` — what a state makes of more data

For every state, the functions it tries go on with the data behind what they have consumed
(`extends_actions`), unless a reference of eight bytes is cut before its last one (`Trap`).
-/

namespace Airdcpp
namespace SimpleXMLReader

variable {opts : Options} {r r' : SimpleXMLReader} {c : Str}

/-! ## White space that is skipped late -/

theorem skipSpaceLoop_false {buf : Str} (hb : r.buf = buf) :
    skipSpaceLoop false buf r = .ok (r.advancePos (buf.takeWhile isSpace).length) := by
  induction buf generalizing r with
  | nil => rw [skipSpaceLoop, List.takeWhile_nil, List.length_nil, advancePos, List.drop_zero]; rfl
  | cons d buf ih =>
    rw [skipSpaceLoop, List.takeWhile_cons]
    cases isSpace d with
    | false =>
      rw [if_neg Bool.false_ne_true, if_neg Bool.false_ne_true, List.length_nil, advancePos,
        List.drop_zero]
      rfl
    | true =>
      rw [if_pos rfl, if_neg Bool.false_ne_true, if_pos rfl, ih (by rw [advancePos, hb]; rfl)]
      unfold advancePos
      rw [List.length_cons, List.drop_drop, Nat.add_assoc, Nat.add_comm 1]

theorem trim_of_late (h : skipsLate r.state = true) :
    r.trim = r.advancePos (r.buf.takeWhile isSpace).length := if_pos h

/-- In these states the white space that was there is skipped, and that behind it as well. -/
theorem extends_lateSpace {as : List Action} {message : String}
    (hlast : as.getLast? = some (spaceOrError message)) (h : ∀ a ∈ as.dropLast, Steady a r c)
    (hstate : skipsLate r.state = true) : Extends as r c := by
  rw [← List.dropLast_append_getLast? _ hlast]
  rcases firstOf_steady h [spaceOrError message] with hexact | ⟨hr, hp⟩
  · exact hexact.extends
  cases hb : r.buf with
  | nil =>
    have hwait : firstOf [spaceOrError message] r = .ok r := by
      rw [firstOf, spaceOrError, skipSpace_nil hb]
    refine ⟨fun e he => ?_, fun r' hr' => ?_⟩
    · rw [hr, hwait] at he
      cases he
    · rw [hr, hwait] at hr'
      cases hr'
      exact Or.inl rfl
  | cons d rest =>
    have hbp : (r.push c).buf = d :: (rest ++ c) := by rw [push_buf, hb, List.cons_append]
    cases hd : isSpace d with
    | false =>
      refine ⟨fun e he => ?_, fun r' hr' => ?_⟩
      · rw [hp, firstOf_spaceOrError_of_ne hbp hd]
        rfl
      · rw [hr, firstOf_spaceOrError_of_ne hb hd] at hr'
        cases hr'
    | true =>
      have hrq := hr.trans (firstOf_spaceOrError_of_space hb hd (skipSpaceLoop_false rfl))
      refine ⟨fun e he => ?_, fun r' hr' => ?_⟩
      · rw [hrq] at he
        cases he
      rw [hrq] at hr'
      cases hr'
      have hsame :=
        ((skipSpaceLoop_push (r := r) (c := c) false rfl).2 _ (skipSpaceLoop_false rfl)).1
      have htrim : ((r.advancePos (r.buf.takeWhile isSpace).length).push c).trim = _ :=
        trim_of_late hstate
      refine Or.inr (Or.inr ⟨rfl, Or.inr ?_⟩)
      rw [hp, firstOf_spaceOrError_of_space hbp hd (hsame.trans (skipSpaceLoop_false rfl)), htrim]
      rfl

/-! ## Names -/

theorem extends_elementName (message : String) : Extends [elementName, fail message] r c :=
  extends_readName message appendElement_spec appendElement_append appendElement_error
    appendElement_push keepsInput_elementNameStop

theorem extends_elementAttrName (message : String) : Extends [elementAttrName, fail message] r c :=
  extends_readName message appendAttrName_spec appendAttrName_append appendAttrName_error
    appendAttrName_push keepsInput_elementAttrNameStop

/-! ## Comments and character data -/

theorem commentLoop_push {buf : Str} (hb : r.buf = buf) :
    commentLoop (buf ++ c) (r.push c) = (commentLoop buf r).push c ∨
      ((commentLoop buf r).state = r.state ∧ commentLoop (buf ++ c) (r.push c) =
        commentLoop ((commentLoop buf r).buf ++ c) ((commentLoop buf r).push c)) := by
  induction buf generalizing r with
  | nil => exact Or.inr ⟨rfl, by rw [commentLoop, hb]⟩
  | cons d buf ih =>
    have hone : 1 ≤ r.bufSize := by rw [bufSize, hb]; exact Nat.succ_pos _
    have hnext := ih (r := r.advancePos 1) (by rw [advancePos, hb]; rfl)
    rw [← advancePos_push hone] at hnext
    rw [List.cons_append, commentLoop, commentLoop]
    split
    next hd =>
      by_cases hneed : 3 ≤ r.bufSize
      · rw [not_needChars hneed, needChars_push hneed, if_neg Bool.false_ne_true,
          if_neg Bool.false_ne_true, charAt_push (by omega), charAt_push (by omega),
          advancePos_push hneed]
        split
        · exact Or.inl rfl
        · exact hnext
      · have hwait : (!r.needChars 3) = true := not_needChars_iff.mpr (Nat.lt_of_not_le hneed)
        refine Or.inr ?_
        rw [if_pos hwait, hb, List.cons_append, commentLoop, if_pos hd]
        exact ⟨rfl, rfl⟩
    next => exact hnext

theorem extends_comment (message : String) : Extends [comment, fail message] r c := by
  have hfirst : ∀ q : SimpleXMLReader,
      firstOf [comment, fail message] q = .ok (commentLoop q.buf q) := fun _ => rfl
  refine ⟨fun e he => ?_, fun r' hr' => ?_⟩
  · rw [hfirst] at he
    cases he
  · rw [hfirst] at hr'
    cases hr'
    rw [hfirst, hfirst]
    rcases commentLoop_push (c := c) (rfl : r.buf = r.buf) with hpush | ⟨hstate, hpush⟩
    · exact Or.inr (Or.inl (congrArg Except.ok hpush))
    · exact Or.inr (Or.inr ⟨hstate, Or.inl (congrArg some hpush)⟩)

theorem cdataLoop_push {buf : Str} (hb : r.buf = buf) :
    (∀ e, cdataLoop buf r = .error e → cdataLoop (buf ++ c) (r.push c) = .error e) ∧
      ∀ q, cdataLoop buf r = .ok q → cdataLoop (buf ++ c) (r.push c) = .ok (q.push c) ∨
        (q.state = r.state ∧
          cdataLoop (buf ++ c) (r.push c) = cdataLoop (q.buf ++ c) (q.push c)) := by
  induction buf generalizing r with
  | nil =>
    refine ⟨fun e h => ?_, fun q h => ?_⟩
    · cases h
    · cases h
      exact Or.inr ⟨rfl, by rw [hb]⟩
  | cons d buf ih =>
    have hone : 1 ≤ r.bufSize := by rw [bufSize, hb]; exact Nat.succ_pos _
    rw [List.cons_append, cdataLoop, cdataLoop]
    cases hwait : d == chr ']' && !r.needChars 3 with
    | true =>
      rw [if_pos rfl]
      refine ⟨fun e h => ?_, fun q h => ?_⟩
      · cases h
      · cases h
        refine Or.inr ⟨rfl, ?_⟩
        rw [hb, List.cons_append, cdataLoop]
    | false =>
      -- the bracket, if it is one, has two more characters behind it
      have hwait' : (d == chr ']' && !(r.push c).needChars 3) = false := by
        rw [Bool.and_eq_false_iff] at hwait ⊢
        refine hwait.imp_right fun hneed => ?_
        rw [Bool.not_eq_false', needChars_iff] at hneed
        exact needChars_push hneed
      have hclose : (d == chr ']' && (r.push c).charAt 1 == chr ']' &&
          (r.push c).charAt 2 == chr '>') =
          (d == chr ']' && r.charAt 1 == chr ']' && r.charAt 2 == chr '>') := by
        rcases Bool.and_eq_false_iff.mp hwait with hd | hneed
        · rw [hd, Bool.false_and, Bool.false_and, Bool.false_and, Bool.false_and]
        · rw [Bool.not_eq_false', needChars_iff] at hneed
          rw [charAt_push (by omega), charAt_push (by omega)]
      rw [hwait', if_neg Bool.false_ne_true, if_neg Bool.false_ne_true, hclose]
      cases hend : d == chr ']' && r.charAt 1 == chr ']' && r.charAt 2 == chr '>' with
      | true =>
        rw [if_pos rfl, if_pos rfl]
        refine ⟨fun e h => ?_, fun q h => ?_⟩
        · cases h
        · cases h
          have hneed : 3 ≤ r.bufSize := by
            simp only [Bool.and_eq_true] at hend
            rw [hend.1.1, Bool.true_and, Bool.not_eq_false', needChars_iff] at hwait
            exact hwait
          rw [advancePos_push hneed]
          exact Or.inl rfl
      | false =>
        rw [if_neg Bool.false_ne_true, if_neg Bool.false_ne_true, append, append, push_value]
        by_cases hlen : MAX_VALUE_SIZE < r.value.length
        · rw [if_pos hlen, if_pos hlen]
          refine ⟨fun e h => h, fun q h => ?_⟩
          cases h
        · rw [if_neg hlen, if_neg hlen, advancePos_push hone]
          exact ih (r := { r.advancePos 1 with value := r.value ++ [d] })
            (by show r.buf.drop 1 = buf; rw [hb]; rfl)

theorem extends_cdata (message : String) : Extends [cdata, fail message] r c := by
  have hfirst : ∀ q : SimpleXMLReader,
      firstOf [cdata, fail message] q = cdataLoop q.buf q := by
    intro q
    rw [firstOf, cdata]
    cases cdataLoop q.buf q with
    | error e => rfl
    | ok q' => rfl
  obtain ⟨herr, hok⟩ := cdataLoop_push (c := c) (rfl : r.buf = r.buf)
  refine ⟨fun e he => ?_, fun r' hr' => ?_⟩
  · rw [hfirst] at he
    rw [hfirst, push_buf, herr e he]
    rfl
  · rw [hfirst] at hr'
    rw [hfirst, hfirst]
    rcases hok r' hr' with hpush | ⟨hstate, hpush⟩
    · exact Or.inr (Or.inl hpush)
    · exact Or.inr (Or.inr ⟨hstate, Or.inl (congrArg Except.toOption hpush)⟩)

/-! ## Values -/

/-- The value goes on with this byte as it is. -/
def isPlain (state : ParseState) (d : UInt8) : Bool := !(closing state d || d == AMP)

/-- A reference of eight bytes in the value is cut before its last one. -/
def ValueCut (r : SimpleXMLReader) : Prop :=
  (r.buf.dropWhile (isPlain r.state)).head? = some AMP ∧
    CutSeven (r.buf.dropWhile (isPlain r.state))

/-- What `elementAttrValue` does behind the bytes that are appended as they are. -/
def attrValueEnd (opts : Options) (r q : SimpleXMLReader) : Result (Bool × SimpleXMLReader) :=
  match q.buf with
  | [] => .ok (true, q)
  | d :: _ =>
    if closing q.state d then
      match r.decodeString opts q.attrValue with
      | .error e => .error e
      | .ok value => .ok (true, { (q.setAttrValue value).advancePos 1 with state := .elementAttr })
    else
      match q.entref q.attrValue with
      | .error e => .error e
      | .ok (b, value, q') => .ok (b, q'.setAttrValue value)

variable (opts) in
theorem elementAttrValue_of_ok {q : SimpleXMLReader}
    (h : r.appendAttrValue (r.buf.takeWhile (isPlain r.state)) = .ok q) :
    elementAttrValue opts r = attrValueEnd opts r q := by
  unfold isPlain at h
  rw [elementAttrValue, h]
  rfl

theorem elementAttrValue_of_error {e : Exception}
    (h : r.appendAttrValue (r.buf.takeWhile (isPlain r.state)) = .error e) :
    elementAttrValue opts r = .error e := by
  unfold isPlain at h
  rw [elementAttrValue, h]

theorem setAttrValue_push (value : Str) :
    (r.push c).setAttrValue value = (r.setAttrValue value).push c := by
  unfold setAttrValue
  rw [push_attribs]
  cases r.attribs with
  | nil => rfl
  | cons attrib attribs => rfl

theorem appendAttrValue_push {piece : Str} (hle : piece.length ≤ r.bufSize)
    (h : r.appendAttrValue piece = .ok r') :
    (r.push c).appendAttrValue piece = .ok (r'.push c) := by
  cases hattr : r.attribs with
  | nil =>
    rw [appendAttrValue_nil hattr] at h
    cases h
    rw [appendAttrValue_nil (r := r.push c) hattr, advancePos_push hle]
  | cons attrib attribs =>
    obtain ⟨name, value⟩ := attrib
    rw [appendAttrValue_cons hattr] at h
    rw [appendAttrValue_cons (r := r.push c) hattr]
    split at h
    · cases h
    · next hlt =>
      cases h
      rw [if_neg hlt]
      exact congrArg Except.ok
        (advancePos_push (r := { r with attribs := (name, value ++ piece) :: attribs }) hle)

variable (opts) in
/-- Behind the plain bytes, the end of the value and a reference that is not cut are dealt with in
    the same way when there is more behind them. -/
theorem attrValueEnd_push {q : SimpleXMLReader} {d : UInt8} {rest : Str}
    (hb : q.buf = d :: rest) (hd : isPlain q.state d = false)
    (hcut : ¬ (q.buf.head? = some AMP ∧ CutSeven q.buf)) :
    attrValueEnd opts r q = .ok (true, q) ∨
      (∃ e, attrValueEnd opts r q = .error e ∧
        attrValueEnd opts (r.push c) (q.push c) = .error e) ∨
      (∃ p p', attrValueEnd opts r q = .ok (false, p) ∧
        attrValueEnd opts (r.push c) (q.push c) = .ok (false, p')) ∨
      ∃ p, attrValueEnd opts r q = .ok (true, p) ∧
        attrValueEnd opts (r.push c) (q.push c) = .ok (true, p.push c) := by
  have hone : 1 ≤ q.bufSize := by rw [bufSize, hb]; exact Nat.succ_pos _
  have hbp : (q.push c).buf = d :: (rest ++ c) := by rw [push_buf, hb, List.cons_append]
  unfold attrValueEnd
  rw [hb, hbp]
  dsimp only
  rw [push_state]
  cases hclose : closing q.state d with
  | true =>
    rw [if_pos rfl, if_pos rfl]
    have hdec : (r.push c).decodeString opts (q.push c).attrValue =
        r.decodeString opts q.attrValue := rfl
    rw [hdec]
    cases r.decodeString opts q.attrValue with
    | error e => exact Or.inr (Or.inl ⟨e, rfl, rfl⟩)
    | ok value =>
      have hle : 1 ≤ (q.setAttrValue value).bufSize := by
        rw [bufSize, (setAttrValue_spec q value).1]
        exact hone
      refine Or.inr (Or.inr (Or.inr ⟨_, rfl, ?_⟩))
      dsimp only
      rw [setAttrValue_push, advancePos_push hle]
      rfl
  | false =>
    rw [if_neg Bool.false_ne_true, if_neg Bool.false_ne_true]
    have hamp : d = AMP := by
      rw [isPlain, hclose, Bool.false_or, Bool.not_eq_false', beq_iff_eq] at hd
      exact hd
    have hseven : ¬ CutSeven q.buf := by
      intro h
      exact hcut ⟨by rw [hb, hamp]; rfl, h⟩
    have hvalue : (q.push c).attrValue = q.attrValue := rfl
    rw [hvalue]
    rcases entref_push (c := c) (d := q.attrValue) hseven with
      ⟨h, -⟩ | ⟨h, h'⟩ | ⟨h, h'⟩ | ⟨s, n, -, -, h, h'⟩
    · rw [h]
      refine Or.inl ?_
      dsimp only
      rw [setAttrValue_attrValue]
    · rw [h, h']
      exact Or.inr (Or.inl ⟨_, rfl, rfl⟩)
    · rw [h, h']
      exact Or.inr (Or.inr (Or.inl ⟨_, _, rfl, rfl⟩))
    · rw [h, h']
      refine Or.inr (Or.inr (Or.inr ⟨_, rfl, ?_⟩))
      dsimp only
      rw [setAttrValue_push]

theorem appendAttrValue_encoding {piece : Str} (h : r.appendAttrValue piece = .ok r') :
    r'.encoding = r.encoding := by
  cases hattr : r.attribs with
  | nil =>
    rw [appendAttrValue_nil hattr] at h
    cases h
    rfl
  | cons attrib attribs =>
    obtain ⟨name, value⟩ := attrib
    rw [appendAttrValue_cons hattr] at h
    split at h
    · cases h
    · cases h
      rfl

/-- The reader in front of the piece is only asked for its encoding. -/
theorem attrValueEnd_toOption {q : SimpleXMLReader} (h : r.encoding = r'.encoding) :
    (attrValueEnd opts r q).toOption = (attrValueEnd opts r' q).toOption := by
  unfold attrValueEnd
  cases q.buf with
  | nil => rfl
  | cons d rest =>
    dsimp only
    split
    · have hdec : (r.decodeString opts q.attrValue).toOption =
          (r'.decodeString opts q.attrValue).toOption := by
        unfold decodeString
        rw [h]
        dsimp only
        split
        · rfl
        · split
          · split
            · unfold sanitized
              cases Text.sanitizeUtf8 q.attrValue with
              | none => rfl
              | some _ => rfl
            · rfl
          · rfl
      cases hx : r.decodeString opts q.attrValue with
      | error e =>
        cases hy : r'.decodeString opts q.attrValue with
        | error e' => rfl
        | ok v =>
          rw [hx, hy] at hdec
          cases hdec
      | ok u =>
        cases hy : r'.decodeString opts q.attrValue with
        | error e' =>
          rw [hx, hy] at hdec
          cases hdec
        | ok v =>
          rw [hx, hy] at hdec
          cases hdec
          rfl
    · rfl

variable (opts) in
/-- The plain bytes may come in two pieces. -/
theorem elementAttrValue_resume {q : SimpleXMLReader}
    (h : r.appendAttrValue (r.buf.takeWhile (isPlain r.state)) = .ok q) :
    (elementAttrValue opts (r.push c)).toOption = (elementAttrValue opts (q.push c)).toOption := by
  obtain ⟨hbuf, -, hstate, -⟩ := appendAttrValue_spec h
  rw [drop_takeWhile] at hbuf
  have htake : (r.push c).buf.takeWhile (isPlain (r.push c).state) =
      r.buf.takeWhile (isPlain r.state) ++ (q.push c).buf.takeWhile (isPlain (q.push c).state) := by
    rw [push_buf, push_state, takeWhile_append_dropWhile, push_buf, push_state, hbuf, hstate]
  have happ := appendAttrValue_append (c := c)
    (b := (q.push c).buf.takeWhile (isPlain (q.push c).state)) (length_takeWhile_le _ _) h
  rw [← htake] at happ
  cases hx : (r.push c).appendAttrValue ((r.push c).buf.takeWhile (isPlain (r.push c).state)) with
  | error e =>
    cases hy : (q.push c).appendAttrValue
        ((q.push c).buf.takeWhile (isPlain (q.push c).state)) with
    | error e' => rw [elementAttrValue_of_error hx, elementAttrValue_of_error hy]; rfl
    | ok v =>
      rw [hx, hy] at happ
      cases happ
  | ok u =>
    cases hy : (q.push c).appendAttrValue
        ((q.push c).buf.takeWhile (isPlain (q.push c).state)) with
    | error e' =>
      rw [hx, hy] at happ
      cases happ
    | ok v =>
      rw [hx, hy] at happ
      cases happ
      rw [elementAttrValue_of_ok opts hx, elementAttrValue_of_ok opts hy]
      exact attrValueEnd_toOption (appendAttrValue_encoding h).symm

theorem toOption_firstOf_fail {a : Action} (message : String) {x y : SimpleXMLReader}
    (h : (a x).toOption = (a y).toOption) :
    (firstOf [a, fail message] x).toOption = (firstOf [a, fail message] y).toOption := by
  rw [firstOf, firstOf]
  cases hx : a x with
  | error e =>
    cases hy : a y with
    | error e' => rfl
    | ok v =>
      rw [hx, hy] at h
      cases h
  | ok u =>
    cases hy : a y with
    | error e' =>
      rw [hx, hy] at h
      cases h
    | ok v =>
      rw [hx, hy] at h
      cases h
      obtain ⟨b, q⟩ := u
      cases b <;> rfl

theorem extends_elementAttrValue (hcut : ¬ ValueCut r) (message : String) :
    Extends [elementAttrValue opts, fail message] r c := by
  have hle := length_takeWhile_le (isPlain r.state) r.buf
  have htake := takeWhile_append_dropWhile (isPlain r.state) r.buf c
  cases happ : r.appendAttrValue (r.buf.takeWhile (isPlain r.state)) with
  | error e =>
    have hp : elementAttrValue opts (r.push c) = .error e := by
      apply elementAttrValue_of_error
      rw [push_buf, push_state, htake]
      exact appendAttrValue_error happ
    refine ⟨fun e' _ => ?_, fun r' hr' => ?_⟩
    · rw [firstOf, hp]
      rfl
    · rw [firstOf, elementAttrValue_of_error happ] at hr'
      cases hr'
  | ok q =>
    obtain ⟨hbuf, -, hstate, -⟩ := appendAttrValue_spec happ
    rw [drop_takeWhile] at hbuf
    have hr := elementAttrValue_of_ok opts happ
    have hresume := toOption_firstOf_fail message
      (elementAttrValue_resume opts (c := c) happ)
    -- the answer is yes, and more of the value is still to come
    have hwait : elementAttrValue opts r = .ok (true, q) →
        Extends [elementAttrValue opts, fail message] r c := by
      intro hyes
      refine ⟨fun e he => ?_, fun r' hr' => ?_⟩
      · rw [firstOf, hyes] at he
        cases he
      · rw [firstOf, hyes] at hr'
        cases hr'
        exact Or.inr (Or.inr ⟨hstate, Or.inl hresume⟩)
    cases hb : q.buf with
    | nil =>
      apply hwait
      rw [hr, attrValueEnd, hb]
    | cons d rest =>
      have hd : isPlain q.state d = false := by
        have hhead := List.head?_dropWhile_not (isPlain r.state) r.buf
        rw [← hbuf, hb] at hhead
        rw [hstate]
        simpa using hhead
      have hpiece : (r.push c).appendAttrValue
          ((r.push c).buf.takeWhile (isPlain (r.push c).state)) = .ok (q.push c) := by
        rw [push_buf, push_state, htake, ← hbuf, hb, List.cons_append, List.takeWhile_cons,
          ← hstate, hd, if_neg Bool.false_ne_true, List.append_nil, hstate]
        exact appendAttrValue_push hle happ
      have hp := elementAttrValue_of_ok opts hpiece
      unfold ValueCut at hcut
      rw [← hbuf] at hcut
      rcases attrValueEnd_push opts (r := r) (c := c) hb hd hcut with
        h | ⟨e, h, h'⟩ | ⟨p, p', h, h'⟩ | ⟨p, h, h'⟩
      · exact hwait (hr.trans h)
      · refine ⟨fun e' _ => ?_, fun r' hr' => ?_⟩
        · rw [firstOf, hp, h']
          rfl
        · rw [firstOf, hr, h] at hr'
          cases hr'
      · refine ⟨fun e' _ => ?_, fun r' hr' => ?_⟩
        · rw [firstOf, hp, h']
          rfl
        · rw [firstOf, hr, h] at hr'
          cases hr'
      · refine ⟨fun e' he => ?_, fun r' hr' => ?_⟩
        · rw [firstOf, hr, h] at he
          cases he
        · rw [firstOf, hr, h] at hr'
          cases hr'
          refine Or.inr (Or.inl ?_)
          rw [firstOf, hp, h']

/-! ## All states -/

theorem isSpace_cases {d : UInt8} (h : isSpace d = true) :
    d = 0x20 ∨ d = 0x09 ∨ d = 0x0d ∨ d = 0x0a := by
  simp only [isSpace, Bool.or_eq_true, beq_iff_eq, or_assoc] at h
  exact h

theorem not_nameStart_of_space {d : UInt8} (h : isSpace d = true) : isNameStartChar d = false := by
  rcases isSpace_cases h with rfl | rfl | rfl | rfl <;> rfl

theorem ne_of_space {d x : UInt8} (h : isSpace d = true) (hx : isSpace x = false) :
    (d == x) = false := by
  rw [beq_eq_false_iff_ne]
  rintro rfl
  rw [h] at hx
  cases hx

theorem refusesSpace_literal {lit : Str} (hlit : (lit.head?.map isSpace) = some false)
    (withSpace : Bool) (newState : ParseState) :
    RefusesSpace (literal lit withSpace newState) := by
  intro q hq
  obtain ⟨d, rest, hb, hd⟩ := hq
  cases lit with
  | nil => cases hlit
  | cons l lit =>
    have hl : isSpace l = false := Option.some.inj hlit
    rw [literal, hb, literalMatches, ne_of_space hd hl, Bool.false_and]
    rfl

theorem refusesSpace_character {x : UInt8} (hx : isSpace x = false) (newState : ParseState) :
    RefusesSpace (character x newState) := by
  intro q hq
  obtain ⟨d, rest, hb, hd⟩ := hq
  have hneed : 1 ≤ q.bufSize := by rw [bufSize, hb]; exact Nat.succ_pos _
  rw [character, not_needChars hneed, if_neg Bool.false_ne_true, charAt, hb, List.getD_cons_zero,
    ne_of_space hd hx, if_neg Bool.false_ne_true]

theorem refusesSpace_elementAttr : RefusesSpace elementAttr := by
  intro q hq
  obtain ⟨d, rest, hb, hd⟩ := hq
  have hneed : 1 ≤ q.bufSize := by rw [bufSize, hb]; exact Nat.succ_pos _
  rw [elementAttr, not_needChars hneed, if_neg Bool.false_ne_true, charAt, hb, List.getD_cons_zero]
  dsimp only
  rw [not_nameStart_of_space hd, if_neg Bool.false_ne_true]

theorem refusesSpace_elementEndComplex : RefusesSpace elementEndComplex := by
  intro q hq
  obtain ⟨d, rest, hb, hd⟩ := hq
  have hneed : 1 ≤ q.bufSize := by rw [bufSize, hb]; exact Nat.succ_pos _
  rw [elementEndComplex, not_needChars hneed, if_neg Bool.false_ne_true, charAt, hb,
    List.getD_cons_zero, ne_of_space hd (by rfl), if_neg Bool.false_ne_true]

theorem refusesSpace_elementEndEnd : RefusesSpace elementEndEnd := by
  intro q hq
  obtain ⟨d, rest, hb, hd⟩ := hq
  have hneed : 1 ≤ q.bufSize := by rw [bufSize, hb]; exact Nat.succ_pos _
  rw [elementEndEnd, not_needChars hneed, if_neg Bool.false_ne_true, charAt, hb,
    List.getD_cons_zero, ne_of_space hd (by rfl), if_neg Bool.false_ne_true]

/-- Behind white space that was skipped only white space can be wrong. -/
theorem exact_spaceOrError {as : List Action} {message : String}
    (hlast : as.getLast? = some (spaceOrError message)) (h : ∀ a ∈ as.dropLast, Steady a r c)
    {d : UInt8} {rest : Str} (hb : r.buf = d :: rest) (hd : isSpace d = false) : Exact as r c := by
  rw [← List.dropLast_append_getLast? _ hlast]
  rcases firstOf_steady h [spaceOrError message] with hexact | ⟨hr, hp⟩
  · exact hexact
  · have hbp : (r.push c).buf = d :: (rest ++ c) := by rw [push_buf, hb, List.cons_append]
    refine ⟨fun e he => ?_, fun r' hr' => ?_⟩
    · rw [hp, ← he, hr, firstOf_spaceOrError_of_ne hbp hd, firstOf_spaceOrError_of_ne hb hd]
      rfl
    · rw [hr, firstOf_spaceOrError_of_ne hb hd] at hr'
      cases hr'

/-- A reference of eight bytes is cut before its last one. -/
def ReferenceCut (r : SimpleXMLReader) : Prop :=
  (r.state = .content ∧ r.buf.head? = some AMP ∧ CutSeven r.buf) ∨
    ((r.state = .elementAttrValueApos ∨ r.state = .elementAttrValueQuot) ∧ ValueCut r)

variable (opts) in
/-- **Every state goes on with more data where it stopped**, but for the value of the encoding, and
    unless a reference is cut. -/
theorem extends_actions (hend : r.state ≠ .end) (henc : inEncodingValue r.state = false)
    (hcut : ¬ ReferenceCut r) : Extends (actions opts r.state) r c := by
  cases hs : r.state with
  | start =>
    refine extends_lateSpace rfl ?_ (by rw [hs]; rfl)
    simp [actions, steady_literal, steady_element]
  | declVersion =>
    apply extends_skipSpace
    intro d rest hb hd
    exact exact_spaceOrError rfl (by simp [steady_literal]) hb hd
  | declVersionNum =>
    refine extends_lateSpace rfl ?_ (by rw [hs]; rfl)
    simp [actions, steady_declVersionNum]
  | elementEnd =>
    refine extends_lateSpace rfl ?_ (by rw [hs]; rfl)
    simp [actions, steady_elementEnd]
  -- one character, or white space
  | declVersionEq | declEncodingEq | declEncodingName | declStandaloneEq | elementAttrEq
    | elementAttrValue =>
    apply extends_space rfl
    · simp [actions, steady_character]
    · simp (disch := decide) [actions, refusesSpace_character]
  -- one literal of some, or white space
  | declEncoding | declStandalone | declStandaloneYes | declEnd =>
    apply extends_space rfl
    · simp [actions, steady_literal]
    · simp (disch := decide) [actions, refusesSpace_literal]
  | declEncodingNameApos | declEncodingNameQuot =>
    rw [hs] at henc
    cases henc
  | elementName => exact extends_elementName _
  | elementAttr =>
    apply extends_space rfl
    · simp [actions, steady_elementAttr, steady_elementEndComplex, steady_character]
    · simp (disch := decide) [actions, refusesSpace_elementAttr, refusesSpace_elementEndComplex,
        refusesSpace_character]
  | elementAttrName => exact extends_elementAttrName _
  | elementAttrValueQuot =>
    apply extends_elementAttrValue
    intro h
    exact hcut (Or.inr ⟨Or.inr hs, h⟩)
  | elementAttrValueApos =>
    apply extends_elementAttrValue
    intro h
    exact hcut (Or.inr ⟨Or.inl hs, h⟩)
  | elementEndSimple => exact (exact_fail rfl (by simp [actions, steady_elementEndSimple])).extends
  | elementEndEnd =>
    apply extends_space rfl
    · simp [actions, steady_elementEndEnd]
    · simp [actions, refusesSpace_elementEndEnd]
  | comment => exact extends_comment _
  | content =>
    apply extends_skipSpace
    intro d rest hb hd
    have hcontent : Steady content r c :=
      steady_content fun hhead h => hcut (Or.inl ⟨hs, hhead, h⟩)
    apply exact_fail rfl
    simp [steady_literal, steady_element, hcontent]
  | cdata => exact extends_cdata _
  | «end» => exact absurd hs hend

end SimpleXMLReader
end Airdcpp
