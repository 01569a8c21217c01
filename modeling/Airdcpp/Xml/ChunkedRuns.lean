import Airdcpp.Xml.ElementNames

/-!
# `Xml/ChunkedRuns` — every partition of a document

What the reader does with a document does not depend on the pieces it comes in
(`parseAll_partition`), as long as no piece ends inside a reference of eight bytes, before its last
one, and none leaves the reader inside a reference in the value of the encoding.
-/

namespace Airdcpp
namespace SimpleXMLReader

variable {opts : Options} {r r' : SimpleXMLReader} {c : Str}

/-! ## White space in front -/

/-- What these states wait for. -/
def lateBytes (r : SimpleXMLReader) : Nat :=
  if r.state = .start then 2
  else if r.state = .declVersionNum then 5
  else (r.elements.headD []).length

theorem skipsLate_cases (h : skipsLate r.state = true) :
    r.state = .start ∨ r.state = .declVersionNum ∨ r.state = .elementEnd := by
  simp only [skipsLate, Bool.or_eq_true, beq_iff_eq, or_assoc] at h
  exact h

theorem literal_short {lit : Str} {withSpace : Bool} {newState : ParseState}
    (h : r.bufSize < lit.length) :
    literal lit withSpace newState r = .ok (literalMatches lit r.buf, r) := by
  unfold literal
  cases literalMatches lit r.buf with
  | false => rfl
  | true =>
    rw [if_neg (Nat.not_le.mpr h)]
    rfl

theorem late_wait (hlate : skipsLate r.state = true) (h : r.bufSize < r.lateBytes) :
    firstOf (actions opts r.state) r = .ok r := by
  unfold lateBytes at h
  rcases skipsLate_cases hlate with hs | hs | hs
  · rw [if_pos hs] at h
    rw [hs, actions, firstOf, literal_short (h.trans (by decide))]
    cases literalMatches [0xef, 0xbb, 0xbf] r.buf with
    | true => rfl
    | false =>
      dsimp only
      rw [firstOf, literal_short (h.trans (by decide))]
      cases literalMatches (str "<?xml") r.buf with
      | true => rfl
      | false =>
        dsimp only
        rw [firstOf, literal_short (h.trans (by decide))]
        cases literalMatches (str "<!--") r.buf with
        | true => rfl
        | false =>
          dsimp only
          rw [firstOf, element, if_pos (not_needChars_iff.mpr h)]
  · rw [hs, if_neg (by decide), if_pos rfl] at h
    rw [hs, actions, firstOf, declVersionNum, if_pos (not_needChars_iff.mpr h)]
  · rw [hs, if_neg (by decide), if_neg (by decide)] at h
    rw [hs, actions, firstOf, elementEnd]
    cases helems : r.elements with
    | nil =>
      rw [helems] at h
      cases h
    | cons top rest =>
      rw [helems, List.headD_cons] at h
      dsimp only
      rw [if_pos (not_needChars_iff.mpr h)]

theorem late_skip (hlate : skipsLate r.state = true) (hn : NamesOk r)
    (h : r.lateBytes ≤ r.bufSize) {d : UInt8} {rest : Str} (hb : r.buf = d :: rest)
    (hd : isSpace d = true) : firstOf (actions opts r.state) r = .ok r.trim := by
  have hrest : ∀ {message : String}, firstOf [spaceOrError message] r = .ok r.trim := by
    intro message
    rw [firstOf_spaceOrError_of_space hb hd (skipSpaceLoop_false rfl), trim_of_late hlate]
  have hspace : ∃ d rest, r.buf = d :: rest ∧ isSpace d = true := ⟨d, rest, hb, hd⟩
  have h0 : r.charAt 0 = d := by rw [charAt, hb, List.getD_cons_zero]
  unfold lateBytes at h
  rcases skipsLate_cases hlate with hs | hs | hs
  · rw [if_pos hs] at h
    have helement : element r = .ok (false, r) := by
      rw [element, not_needChars h, if_neg Bool.false_ne_true]
      dsimp only
      rw [h0, ne_of_space hd (by rfl), Bool.false_and, if_neg Bool.false_ne_true]
    rw [hs, actions, firstOf, refusesSpace_literal (by decide) _ _ r hspace]
    dsimp only
    rw [firstOf, refusesSpace_literal (by decide) _ _ r hspace]
    dsimp only
    rw [firstOf, refusesSpace_literal (by decide) _ _ r hspace]
    dsimp only
    rw [firstOf, helement]
    exact hrest
  · rw [hs, if_neg (by decide), if_pos rfl] at h
    have hnum : declVersionNum r = .ok (false, r) := by
      rw [declVersionNum, not_needChars h, if_neg Bool.false_ne_true]
      dsimp only
      rw [h0, ne_of_space hd (by rfl), ne_of_space hd (by rfl)]
      rfl
    rw [hs, actions, firstOf, hnum]
    exact hrest
  · rw [hs, if_neg (by decide), if_neg (by decide)] at h
    have hend : elementEnd r = .ok (false, r) := by
      rw [elementEnd]
      cases helems : r.elements with
      | nil => rfl
      | cons top elements =>
        rw [helems, List.headD_cons] at h
        obtain ⟨x, name, hname, hx⟩ := hn top (by rw [helems]; exact List.mem_cons_self ..)
        dsimp only
        rw [not_needChars h, if_neg Bool.false_ne_true, hname, hb, List.length_cons,
          List.take_succ_cons, List.cons_beq_cons, ne_of_space hd hx, Bool.false_and,
          if_neg Bool.false_ne_true]
    rw [hs, actions, firstOf, hend]
    exact hrest

@[simp] theorem trim_state : r.trim.state = r.state := by
  unfold trim
  split <;> rfl

theorem trim_eq_self (h : r.buf.takeWhile isSpace = []) : r.trim = r := by
  unfold trim
  split
  · rw [h, List.length_nil, advancePos, List.drop_zero]
    rfl
  · rfl

theorem trim_trim : r.trim.trim = r.trim := by
  cases hl : skipsLate r.state with
  | false =>
    have hself : r.trim = r := by rw [trim, hl, if_neg Bool.false_ne_true]
    rw [hself, hself]
  | true =>
    apply trim_eq_self
    rw [trim_of_late hl, advancePos, drop_takeWhile]
    have hhead := List.head?_dropWhile_not isSpace r.buf
    cases hd : r.buf.dropWhile isSpace with
    | nil => rfl
    | cons x rest =>
      rw [hd] at hhead
      rw [List.takeWhile_cons, if_neg]
      simpa using hhead

/-! ## The outcome of `process` -/

/-- What can be told of a call from outside: the loop does not end, the reader throws, or it is
    left in some state. -/
def outcome (opts : Options) (r : SimpleXMLReader) : Option (Option SimpleXMLReader) :=
  (process opts r).map fun x => x.toOption.map fun y => y.2.trim

theorem process_of_next (h : Loop.Next (processBody opts) r r') :
    process opts r = process opts r' := by
  apply Option.ext
  intro x
  rw [process_eq_some_iff, process_eq_some_iff, Loop.returns_iff_of_next h]

theorem process_of_return {x : Result (Bool × SimpleXMLReader)}
    (h : processBody opts r = some (.inl x)) : process opts r = some x :=
  process_eq_some_iff.mpr (Loop.returns_of_return h)

theorem outcome_of_next (h : Loop.Next (processBody opts) r r') :
    outcome opts r = outcome opts r' := by
  rw [outcome, process_of_next h, outcome]

/-- A round that waits is the last one. -/
theorem processBody_of_wait (hend : r.state ≠ .end) (h : transition opts r = some (.ok r)) :
    processBody opts r = some (.inl (.ok (true, r))) := by
  rw [processBody, if_neg hend, h]
  dsimp only
  rw [if_pos ⟨rfl, rfl⟩]

theorem outcome_of_wait (hend : r.state ≠ .end) (h : transition opts r = some (.ok r)) :
    outcome opts r = some (some r.trim) := by
  rw [outcome, process_of_return (processBody_of_wait hend h)]
  rfl

theorem outcome_of_error {e : Exception} (hend : r.state ≠ .end)
    (h : transition opts r = some (.error e)) : outcome opts r = some none := by
  rw [outcome, process_of_return (x := .error e)]
  · rfl
  · rw [processBody, if_neg hend, h]

theorem flush_of_state {state : ParseState} (h : r.state = state) :
    flush opts state r = .ok r := by
  rw [flush, if_neg]
  intro hne
  exact hne.2.1 h

variable (opts) in
theorem transition_of_not_encoding (h : inEncodingValue r.state = false) :
    transition opts r = some (firstOf (actions opts r.state) r) := by
  rw [transition, h, if_neg Bool.false_ne_true]

theorem skipsLate_spec (h : skipsLate r.state = true) :
    r.state ≠ .end ∧ inEncodingValue r.state = false := by
  rcases skipsLate_cases h with hs | hs | hs <;> rw [hs] <;> exact ⟨by decide, rfl⟩

/-- **White space in front makes no difference to the rest of the run.** -/
theorem outcome_trim (hn : NamesOk r) : outcome opts r.trim = outcome opts r := by
  cases hl : skipsLate r.state with
  | false => rw [trim, hl, if_neg Bool.false_ne_true]
  | true =>
    cases hb : r.buf with
    | nil => rw [trim_eq_self (by rw [hb]; rfl)]
    | cons d rest =>
      cases hd : isSpace d with
      | false =>
        rw [trim_eq_self]
        rw [hb, List.takeWhile_cons, hd, if_neg Bool.false_ne_true]
      | true =>
        obtain ⟨hend, henc⟩ := skipsLate_spec hl
        have hlt : skipsLate r.trim.state = true := by rw [trim_state, hl]
        obtain ⟨hendt, henct⟩ := skipsLate_spec hlt
        by_cases hsize : r.bufSize < r.lateBytes
        · have hsizet : r.trim.bufSize < r.trim.lateBytes := by
            have hbytes : r.trim.lateBytes = r.lateBytes := by
              rw [trim_of_late hl]
              rfl
            have hle : r.trim.bufSize ≤ r.bufSize := by
              rw [trim_of_late hl, bufSize, advancePos, List.length_drop]
              exact Nat.sub_le _ _
            omega
          have hwait := transition_of_not_encoding opts henc
          have hwaitt := transition_of_not_encoding opts henct
          rw [late_wait hl hsize] at hwait
          rw [late_wait hlt hsizet] at hwaitt
          rw [outcome_of_wait hend hwait, outcome_of_wait hendt hwaitt, trim_trim]
        · have hskip := transition_of_not_encoding opts henc
          rw [late_skip hl hn (Nat.le_of_not_lt hsize) hb hd] at hskip
          refine (outcome_of_next ?_).symm
          have hpos : r.trim.pos ≠ r.pos := by
            rw [trim_of_late hl, advancePos, hb, List.takeWhile_cons, hd, if_pos rfl,
              List.length_cons]
            exact Nat.ne_of_gt (Nat.lt_add_of_pos_right (Nat.succ_pos _))
          rw [Loop.Next, processBody, if_neg hend, hskip]
          dsimp only
          rw [if_neg fun h => hpos h.2, flush_of_state trim_state]

/-! ## The value of the encoding -/

/-- The loop of the encoding value comes to a reference that is not there, or cut. -/
def EncodingCut (opts : Options) (r : SimpleXMLReader) : Prop :=
  inEncodingValue r.state = true ∧ ∃ q, Loop.Steps (declEncodingBody opts) r q ∧
    (CutReference q ∨ (q.buf.head? = some AMP ∧ CutSeven q.buf))

variable (opts) in
theorem declEncodingBody_push (hcut : ¬ CutReference r)
    (hseven : r.buf.head? = some AMP → ¬ CutSeven r.buf) :
    r.buf = [] ∨
      (∃ t, Loop.Next (declEncodingBody opts) r t ∧
        Loop.Next (declEncodingBody opts) (r.push c) (t.push c)) ∨
      (∃ e, declEncodingBody opts r = some (.inl (.error e)) ∧
        declEncodingBody opts (r.push c) = some (.inl (.error e))) ∨
      (∃ q, declEncodingBody opts r = some (.inl (.ok (true, q))) ∧
        declEncodingBody opts (r.push c) = some (.inl (.ok (true, q.push c)))) ∨
      (declEncodingBody opts r = some (.inl (.ok (false, r))) ∧
        declEncodingBody opts (r.push c) = some (.inl (.ok (false, r.push c))) ∧
        r.buf.head? = some AMP) := by
  cases hb : r.buf with
  | nil => exact Or.inl rfl
  | cons d rest =>
    have hone : 1 ≤ r.bufSize := by rw [bufSize, hb]; exact Nat.succ_pos _
    have hbp : (r.push c).buf = d :: (rest ++ c) := by rw [push_buf, hb, List.cons_append]
    unfold Loop.Next declEncodingBody
    rw [hb, hbp]
    dsimp only
    rw [push_state, push_encoding, advancePos_push hone]
    refine Or.inr ?_
    cases hclose : closing r.state d with
    | true =>
      rw [if_pos rfl, if_pos rfl]
      exact Or.inr (Or.inr (Or.inl ⟨_, rfl, rfl⟩))
    | false =>
      rw [if_neg Bool.false_ne_true, if_neg Bool.false_ne_true]
      cases hamp : d == AMP with
      | true =>
        have hhead : r.buf.head? = some AMP := by rw [hb, beq_iff_eq.mp hamp]; rfl
        rw [if_pos rfl, if_pos rfl]
        rcases entref_push (c := c) (d := r.encoding) (hseven hhead) with
          ⟨h, hsize⟩ | ⟨h, h'⟩ | ⟨h, h'⟩ | ⟨s, n, -, -, h, h'⟩
        · refine absurd ⟨hhead, closing_amp _, hsize, ?_⟩ hcut
          unfold entref at h
          split at h
          · cases h
          · next hle => exact Nat.le_of_not_lt hle
        · rw [h, h']
          exact Or.inr (Or.inl ⟨_, rfl, rfl⟩)
        · rw [h, h']
          exact Or.inr (Or.inr (Or.inr ⟨rfl, rfl, congrArg some (beq_iff_eq.mp hamp)⟩))
        · rw [h, h']
          exact Or.inl ⟨_, rfl, rfl⟩
      | false =>
        rw [if_neg Bool.false_ne_true, if_neg Bool.false_ne_true, append, append]
        by_cases hlen : MAX_VALUE_SIZE < r.encoding.length
        · rw [if_pos hlen, if_pos hlen]
          exact Or.inr (Or.inl ⟨_, rfl, rfl⟩)
        · rw [if_neg hlen, if_neg hlen]
          exact Or.inl ⟨_, rfl, rfl⟩

theorem declEncodingValue_of_next (h : Loop.Next (declEncodingBody opts) r r') :
    declEncodingValue opts r = declEncodingValue opts r' := by
  apply Option.ext
  intro x
  rw [declEncodingValue_eq_some_iff, declEncodingValue_eq_some_iff, Loop.returns_iff_of_next h]

theorem declEncodingValue_of_return {x : Result (Bool × SimpleXMLReader)}
    (h : declEncodingBody opts r = some (.inl x)) : declEncodingValue opts r = some x :=
  declEncodingValue_eq_some_iff.mpr (Loop.returns_of_return h)

/-- What the loop of the encoding value does when there is more behind. -/
theorem declEncodingValue_push {x : Result (Bool × SimpleXMLReader)}
    (hcut : ∀ q, Loop.Steps (declEncodingBody opts) r q →
      ¬ CutReference q ∧ (q.buf.head? = some AMP → ¬ CutSeven q.buf))
    (hx : Loop.Returns (declEncodingBody opts) r x) :
    (∃ e, x = .error e ∧ declEncodingValue opts (r.push c) = some (.error e)) ∨
      (∃ q, x = .ok (true, q) ∧ q.state = r.state ∧
        declEncodingValue opts (r.push c) = declEncodingValue opts (q.push c)) ∨
      (∃ q, x = .ok (true, q) ∧
        declEncodingValue opts (r.push c) = some (.ok (true, q.push c))) ∨
      ∃ q, x = .ok (false, q) ∧ q.buf.head? = some AMP ∧
        declEncodingValue opts (r.push c) = some (.ok (false, q.push c)) := by
  obtain ⟨n, hn⟩ := hx
  induction n generalizing r with
  | zero => cases hn
  | succ n ih =>
    obtain ⟨hself, hseven⟩ := hcut r .refl
    rcases declEncodingBody_push opts (c := c) hself hseven with
      hnil | ⟨t, h, h'⟩ | ⟨e, h, h'⟩ | ⟨q, h, h'⟩ | ⟨h, h', hhead⟩
    · have hret : declEncodingBody opts r = some (.inl (.ok (true, r))) := by
        rw [declEncodingBody, hnil]
      rw [Loop.run_succ_of_return hret] at hn
      cases hn
      exact Or.inr (Or.inl ⟨r, rfl, rfl, rfl⟩)
    · rw [Loop.run_succ_of_next h] at hn
      have hstate : t.state = r.state := by
        obtain ⟨m, -, -, -, -, hstate⟩ := declEncodingBody_next hself h
        exact hstate
      have hrest := ih (fun q hq => hcut q (.head h hq)) hn
      rw [declEncodingValue_of_next h', ← hstate]
      exact hrest
    · rw [Loop.run_succ_of_return h] at hn
      cases hn
      exact Or.inl ⟨e, rfl, declEncodingValue_of_return h'⟩
    · rw [Loop.run_succ_of_return h] at hn
      cases hn
      exact Or.inr (Or.inr (Or.inl ⟨q, rfl, declEncodingValue_of_return h'⟩))
    · rw [Loop.run_succ_of_return h] at hn
      cases hn
      exact Or.inr (Or.inr (Or.inr ⟨r, rfl, hhead, declEncodingValue_of_return h'⟩))

/-! ## Rounds with more data behind -/

/-- The reader cannot know what comes: a reference is cut before its last byte, or not waited
    for. -/
def Trap (opts : Options) (r : SimpleXMLReader) : Prop := ReferenceCut r ∨ EncodingCut opts r

/-- What a round makes of more data, by what it makes of the data that is there. -/
structure Continues (opts : Options) (r : SimpleXMLReader) (c : Str) : Prop where
  error : ∀ e, transition opts r = some (.error e) →
    ∃ e', transition opts (r.push c) = some (.error e')
  ok : ∀ r', transition opts r = some (.ok r') → r' = r ∨
    transition opts (r.push c) = some (.ok (r'.push c)) ∨
    (r'.state = r.state ∧
      ((transition opts (r.push c)).map Except.toOption =
          (transition opts (r'.push c)).map Except.toOption ∨
        transition opts (r.push c) = some (.ok (r'.push c).trim)))

theorem toOption_eq_none {α : Type} {x : Result α} (h : x.toOption = none) : ∃ e, x = .error e := by
  cases x with
  | error e => exact ⟨e, rfl⟩
  | ok a => cases h

/-- A function that has answered already. -/
theorem firstOf_answered {x : Result (Bool × SimpleXMLReader)} {as : List Action}
    {q q' : SimpleXMLReader} :
    firstOf ((fun _ => x) :: as) q = firstOf ((fun _ => x) :: as) q' := by
  rw [firstOf, firstOf]

theorem actions_encoding (h : inEncodingValue r.state = true) :
    actions opts r.state = [spaceOrError "Expecting encoding value"] := by
  simp only [inEncodingValue, Bool.or_eq_true, beq_iff_eq] at h
  rcases h with hs | hs <;> rw [hs] <;> rfl

theorem transition_of_encoding (h : inEncodingValue r.state = true)
    {x : Result (Bool × SimpleXMLReader)} (hx : declEncodingValue opts r = some x) :
    transition opts r =
      some (firstOf ((fun _ => x) :: [spaceOrError "Expecting encoding value"]) r) := by
  rw [transition, if_pos h, hx, actions_encoding h]
  rfl

/-- Behind a reference that is none. -/
theorem firstOf_refused_amp {q : SimpleXMLReader} (q' : SimpleXMLReader)
    (h : q.buf.head? = some AMP) :
    ∃ e, firstOf ((fun _ => .ok (false, q)) :: [spaceOrError "Expecting encoding value"]) q' =
      .error e := by
  obtain ⟨rest, hb⟩ := List.head?_eq_some_iff.mp h
  exact ⟨_, firstOf_spaceOrError_of_ne hb rfl⟩

theorem continues_encoding (henc : inEncodingValue r.state = true)
    (hcut : ¬ EncodingCut opts r) : Continues opts r c := by
  have hfree : ∀ q, Loop.Steps (declEncodingBody opts) r q →
      ¬ CutReference q ∧ (q.buf.head? = some AMP → ¬ CutSeven q.buf) := by
    intro q hq
    constructor
    · intro h
      exact hcut ⟨henc, q, hq, Or.inl h⟩
    · intro hhead h
      exact hcut ⟨henc, q, hq, Or.inr ⟨hhead, h⟩⟩
  cases hx : declEncodingValue opts r with
  | none =>
    obtain ⟨q, hq, hself⟩ := declEncodingValue_eq_none_iff.mp hx
    exact absurd hself (hfree q hq).1
  | some x =>
    have ht := transition_of_encoding henc hx
    have henc' : ∀ {q : SimpleXMLReader}, q.state = r.state →
        inEncodingValue (q.push c).state = true := by
      intro q hq
      rw [push_state, hq, henc]
    rcases declEncodingValue_push (c := c) hfree (declEncodingValue_eq_some_iff.mp hx) with
      ⟨e, rfl, h⟩ | ⟨q, rfl, hstate, h⟩ | ⟨q, rfl, h⟩ | ⟨q, rfl, hhead, h⟩
    · have ht' := transition_of_encoding (henc' rfl) h
      refine ⟨fun e' _ => ⟨e, ht'⟩, fun r' hr' => ?_⟩
      rw [ht] at hr'
      cases hr'
    · refine ⟨fun e' he => ?_, fun r' hr' => ?_⟩
      · rw [ht] at he
        cases he
      · rw [ht] at hr'
        cases hr'
        refine Or.inr (Or.inr ⟨hstate, Or.inl ?_⟩)
        rw [transition, transition, if_pos (henc' rfl), if_pos (henc' hstate), h,
          actions_encoding (henc' rfl), actions_encoding (henc' hstate)]
        exact congrArg _ (Option.map_congr fun x _ => firstOf_answered)
    · have ht' := transition_of_encoding (henc' rfl) h
      refine ⟨fun e' he => ?_, fun r' hr' => ?_⟩
      · rw [ht] at he
        cases he
      · rw [ht] at hr'
        cases hr'
        exact Or.inr (Or.inl ht')
    · have ht' := transition_of_encoding (henc' rfl) h
      obtain ⟨e, he⟩ := firstOf_refused_amp r hhead
      have hheadp : (q.push c).buf.head? = some AMP := by
        obtain ⟨rest, hb⟩ := List.head?_eq_some_iff.mp hhead
        rw [push_buf, hb]
        rfl
      obtain ⟨e', he'⟩ := firstOf_refused_amp (r.push c) hheadp
      rw [he'] at ht'
      refine ⟨fun _ _ => ⟨e', ht'⟩, fun r' hr' => ?_⟩
      rw [ht, he] at hr'
      cases hr'

theorem continues_transition (hend : r.state ≠ .end) (htrap : ¬ Trap opts r) :
    Continues opts r c := by
  cases henc : inEncodingValue r.state with
  | true => exact continues_encoding henc fun h => htrap (Or.inr h)
  | false =>
    have hext := extends_actions opts (c := c) hend henc fun h => htrap (Or.inl h)
    have ht := transition_of_not_encoding opts henc
    have htp : transition opts (r.push c) = some (firstOf (actions opts r.state) (r.push c)) :=
      transition_of_not_encoding opts henc
    refine ⟨fun e he => ?_, fun r' hr' => ?_⟩
    · rw [ht] at he
      obtain ⟨e', he'⟩ := toOption_eq_none (hext.error e (Option.some.inj he))
      exact ⟨e', by rw [htp, he']⟩
    · rw [ht] at hr'
      rcases hext.ok r' (Option.some.inj hr') with h | h | ⟨hstate, h⟩
      · exact Or.inl h
      · exact Or.inr (Or.inl (by rw [htp, h]))
      · refine Or.inr (Or.inr ⟨hstate, ?_⟩)
        have htq : transition opts (r'.push c) =
            some (firstOf (actions opts r.state) (r'.push c)) := by
          rw [transition_of_not_encoding opts (by rw [push_state, hstate, henc]), push_state,
            hstate]
        rw [htp, htq]
        exact h.imp (congrArg some) (congrArg some)

/-! ## Calls with more data behind -/

theorem next_of_transition (hend : r.state ≠ .end) {q p : SimpleXMLReader}
    (ht : transition opts r = some (.ok q)) (hprogress : ¬ (q.state = r.state ∧ q.pos = r.pos))
    (hf : flush opts r.state q = .ok p) : Loop.Next (processBody opts) r p := by
  rw [Loop.Next, processBody, if_neg hend, ht]
  dsimp only
  rw [if_neg hprogress, hf]

theorem outcome_of_flush_error (hend : r.state ≠ .end) {q : SimpleXMLReader} {e : Exception}
    (ht : transition opts r = some (.ok q)) (hprogress : ¬ (q.state = r.state ∧ q.pos = r.pos))
    (hf : flush opts r.state q = .error e) : outcome opts r = some none := by
  rw [outcome, process_of_return (x := .error e)]
  · rfl
  · rw [processBody, if_neg hend, ht]
    dsimp only
    rw [if_neg hprogress, hf]

theorem flush_push (state : ParseState) :
    flush opts state (r.push c) = (flush opts state r).map (push · c) := by
  have hdec : (r.push c).decodeString opts (r.push c).value = r.decodeString opts r.value := rfl
  unfold flush
  rw [push_state, push_value]
  split
  · rw [push_value] at hdec
    rw [hdec]
    cases r.decodeString opts r.value with
    | error e => rfl
    | ok value => rfl
  · rfl

/-- A round that takes nothing and stays in its state leaves the reader as it was. -/
theorem transition_still (ht : transition opts r = some (.ok r'))
    (h : r'.state = r.state ∧ r'.pos = r.pos) : r' = r := by
  rcases (transition_moves ht).still h.2 with heq | ⟨hs, hs'⟩
  · exact heq
  · rw [h.1, hs] at hs'
    cases hs'

/-- Two readers in the same state of which a round makes the same, when one of them has something
    to catch up with. -/
theorem outcome_of_same {a b : SimpleXMLReader} (hend : a.state ≠ .end) (hstate : b.state = a.state)
    (hpos : a.pos < b.pos)
    (h : (transition opts a).map Except.toOption = (transition opts b).map Except.toOption) :
    outcome opts a = outcome opts b := by
  have hendb : b.state ≠ .end := by rwa [hstate]
  cases hb : transition opts b with
  | none =>
    rw [hb, Option.map_none, Option.map_eq_none_iff] at h
    have hnone : ∀ {q : SimpleXMLReader}, transition opts q = none → outcome opts q = none := by
      intro q hq
      rw [outcome, process, Loop.run_succ_of_none]
      · rfl
      · exact processBody_eq_none_iff.mpr (transition_eq_none_iff.mp hq)
    rw [hnone h, hnone hb]
  | some y =>
    rw [hb, Option.map_some, Option.map_eq_some_iff] at h
    obtain ⟨x, ha, hxy⟩ := h
    cases y with
    | error e =>
      obtain ⟨e', rfl⟩ := toOption_eq_none hxy
      rw [outcome_of_error hend ha, outcome_of_error hendb hb]
    | ok p =>
      have hx : x = .ok p := by
        cases x with
        | error e => cases hxy
        | ok p' =>
          cases hxy
          rfl
      rw [hx] at ha
      have hle := (transition_moves hb).pos_le
      have hprogress : ¬ (p.state = a.state ∧ p.pos = a.pos) := by
        intro hstill
        omega
      by_cases hstill : p.state = b.state ∧ p.pos = b.pos
      · have hp := transition_still hb hstill
        rw [hp] at ha hprogress
        exact outcome_of_next (next_of_transition hend ha hprogress (flush_of_state hstate))
      · cases hf : flush opts a.state p with
        | error e =>
          rw [outcome_of_flush_error hend ha hprogress hf,
            outcome_of_flush_error hendb hb hstill (by rw [hstate, hf])]
        | ok q =>
          rw [outcome_of_next (next_of_transition hend ha hprogress hf),
            outcome_of_next (next_of_transition hendb hb hstill (by rw [hstate, hf]))]

/-- A round that goes on goes on to the same with more data behind. -/
theorem outcome_push_of_next {q : SimpleXMLReader} (hn : NamesOk r) (htrap : ¬ Trap opts r)
    (h : Loop.Next (processBody opts) r q) :
    outcome opts (r.push c) = outcome opts (q.push c) := by
  have hend : r.state ≠ .end := by
    intro hend
    rw [Loop.Next, processBody, if_pos hend] at h
    cases h
  obtain ⟨p, ht, hprogress, hf⟩ := processBody_next h
  have hmove := transition_moves ht
  rcases (continues_transition (c := c) hend htrap).ok p ht with rfl | hpush | ⟨hstate, hsame⟩
  · exact absurd ⟨rfl, rfl⟩ hprogress
  · apply outcome_of_next
    refine next_of_transition (r := r.push c) hend hpush hprogress ?_
    rw [push_state, flush_push, hf]
    rfl
  · have hq : q = p := by
      rw [flush_of_state hstate, Except.ok.injEq] at hf
      exact hf.symm
    have hlt : r.pos < p.pos := by
      have hle := hmove.pos_le
      have hne : p.pos ≠ r.pos := fun hpos => hprogress ⟨hstate, hpos⟩
      omega
    rw [hq]
    rcases hsame with hsame | htrim
    · exact outcome_of_same hend hstate hlt hsame
    · have hnames : NamesOk (p.push c) := (transition_namesOk ht hn).of_elements rfl
      rw [← outcome_trim hnames]
      apply outcome_of_next
      refine next_of_transition (r := r.push c) hend htrim ?_ (flush_of_state ?_)
      · intro hstill
        have hle : p.pos ≤ (p.push c).trim.pos := by
          unfold trim
          split
          · exact Nat.le_add_right _ _
          · exact le_refl _
        have hpos := hstill.2
        rw [push_pos] at hpos
        omega
      · rw [trim_state, push_state, push_state, hstate]

/-- **A call goes on with more data behind where it stopped**, if no round of it is a trap. -/
theorem outcome_push {x : Result (Bool × SimpleXMLReader)} (hn : NamesOk r)
    (htrap : ∀ q, Loop.Steps (processBody opts) r q → ¬ Trap opts q)
    (hx : Loop.Returns (processBody opts) r x) :
    (∀ e, x = .error e → outcome opts (r.push c) = some none) ∧
      ∀ b q, x = .ok (b, q) → outcome opts (r.push c) = outcome opts (q.push c) := by
  obtain ⟨n, hrun⟩ := hx
  induction n generalizing r with
  | zero => cases hrun
  | succ n ih =>
    cases hbody : processBody opts r with
    | none =>
      rw [Loop.run_succ_of_none hbody] at hrun
      cases hrun
    | some y =>
      cases y with
      | inr q =>
        rw [Loop.run_succ_of_next hbody] at hrun
        rw [outcome_push_of_next hn (htrap r .refl) hbody]
        exact ih (processBody_namesOk hbody hn) (fun p hp => htrap p (.head hbody hp)) hrun
      | inl y =>
        rw [Loop.run_succ_of_return hbody, Option.some.injEq] at hrun
        rw [hrun] at hbody
        rw [processBody] at hbody
        split at hbody
        · next hend =>
          -- nothing is read any more
          cases hbody
          have hret : ∀ {q : SimpleXMLReader}, q.state = .end →
              outcome opts q = some (some { q with buf := [] }.trim) := by
            intro q hq
            rw [outcome, process_of_return (x := .ok (false, { q with buf := [] }))]
            · rfl
            · rw [processBody, if_pos hq]
          refine ⟨fun e he => ?_, fun b q hq => ?_⟩
          · cases he
          · cases hq
            rw [hret (q := r.push c) hend, hret (q := push { r with buf := [] } c) hend]
            rfl
        · next hend =>
          have hcont := continues_transition (c := c) hend (htrap r .refl)
          cases ht : transition opts r with
          | none =>
            rw [ht] at hbody
            cases hbody
          | some z =>
            rw [ht] at hbody
            cases z with
            | error e =>
              cases hbody
              obtain ⟨e', he'⟩ := hcont.error e ht
              refine ⟨fun _ _ => outcome_of_error hend he', fun b q hq => ?_⟩
              cases hq
            | ok p =>
              dsimp only at hbody
              split at hbody
              · next hstill =>
                cases hbody
                refine ⟨fun e he => ?_, fun b q hq => ?_⟩
                · cases he
                · cases hq
                  rw [transition_still ht hstill]
              · next hprogress =>
                cases hf : flush opts r.state p with
                | ok q =>
                  rw [hf] at hbody
                  cases hbody
                | error e =>
                  rw [hf] at hbody
                  cases hbody
                  refine ⟨fun _ _ => ?_, fun b q hq => ?_⟩
                  · rcases hcont.ok p ht with rfl | hpush | ⟨hstate, -⟩
                    · exact absurd ⟨rfl, rfl⟩ hprogress
                    · refine outcome_of_flush_error hend hpush hprogress (e := e) ?_
                      rw [push_state, flush_push, hf]
                      rfl
                    · rw [flush_of_state hstate] at hf
                      cases hf
                  · cases hq

/-! ## Documents in pieces -/

/-- `parse` is called with one piece after the other, until the reader throws. -/
def parseAll (opts : Options) : SimpleXMLReader → List Str → Option (Result SimpleXMLReader)
  | r, [] => some (.ok r)
  | r, piece :: pieces =>
    match r.parse opts piece with
    | none => none
    | some (.error e) => some (.error e)
    | some (.ok (_, r')) => parseAll opts r' pieces

/-- Both readers throw, or both have made the same callbacks and are in the same state: they are
    equal but for white space in front of the buffer, which one of them may have skipped. -/
def SameOutcome : Option (Result SimpleXMLReader) → Option (Result SimpleXMLReader) → Prop
  | some (.error _), some (.error _) => True
  | some (.ok r), some (.ok r') => r.events = r'.events ∧ r.state = r'.state ∧ r.trim = r'.trim
  | _, _ => False

/-- No round of a call with one of the pieces is a trap. -/
def Clear (opts : Options) : SimpleXMLReader → List Str → Prop
  | _, [] => True
  | r, piece :: pieces =>
    (∀ q, Loop.Steps (processBody opts) (r.push piece) q → ¬ Trap opts q) ∧
      ∀ b r', r.parse opts piece = some (.ok (b, r')) → Clear opts r' pieces

/-- The reader has done what it can with its buffer. -/
def Settled (opts : Options) (r : SimpleXMLReader) : Prop :=
  NamesOk r ∧ outcome opts r = some (some r.trim)

theorem settled_init : Settled opts {} := by
  constructor
  · intro name hname
    cases hname
  · exact outcome_of_wait (by decide) (by rfl)

theorem spins_trap (h : Spins opts r) : Trap opts r := by
  obtain ⟨henc, q, hq, hself⟩ := h
  exact Or.inr ⟨henc, q, hq, Or.inl hself⟩

/-- A call that meets no trap returns. -/
theorem process_ne_none (htrap : ∀ q, Loop.Steps (processBody opts) r q → ¬ Trap opts q) :
    process opts r ≠ none := by
  obtain ⟨x, n, hx⟩ := (Loop.halts_iff work (Spins opts)
    (fun _ h hn => h (processBody_eq_none_iff.mp hn))
    (fun _ _ _ hnext => processBody_decreases hnext) (fun _ h => spins_not_halts h)).mpr
    (fun h => by
      obtain ⟨q, hq, hspin⟩ := h
      exact htrap q hq (spins_trap hspin))
  rw [process_eq_some_iff.mpr ⟨n, hx⟩]
  exact Option.some_ne_none x

theorem process_namesOk {b : Bool} (h : process opts r = some (.ok (b, r'))) (hn : NamesOk r) :
    NamesOk r' := by
  refine Loop.Returns.induct (P := NamesOk) (Q := fun x => ∀ b q, x = .ok (b, q) → NamesOk q)
    (fun s t hs hnext => processBody_namesOk hnext hs) ?_ (process_eq_some_iff.mp h) hn b r' rfl
  intro s x hs hret b q hx
  rw [hx] at hret
  unfold processBody at hret
  repeat' split at hret
  all_goals try (cases hret; done)
  · cases hret
    exact hs.of_elements rfl
  · next ht _ =>
    cases hret
    exact transition_namesOk ht hs

/-- **The pieces are read as the document would be**: all of them one after the other, or together
    in one call. -/
theorem parseAll_flatten {pieces : List Str} (hset : Settled opts r)
    (hclear : Clear opts r pieces) :
    (∃ e, parseAll opts r pieces = some (.error e) ∧
        outcome opts (r.push pieces.flatten) = some none) ∨
      ∃ r', parseAll opts r pieces = some (.ok r') ∧
        outcome opts (r.push pieces.flatten) = some (some r'.trim) := by
  induction pieces generalizing r with
  | nil => exact Or.inr ⟨r, rfl, by rw [List.flatten_nil, push_nil, hset.2]⟩
  | cons piece pieces ih =>
    obtain ⟨htrap, hrest⟩ := hclear
    have hn : NamesOk (r.push piece) := hset.1.of_elements rfl
    rw [List.flatten_cons, ← push_push, parseAll]
    cases hx : r.parse opts piece with
    | none => exact absurd hx (process_ne_none htrap)
    | some x =>
      have hreturns := process_eq_some_iff.mp hx
      cases x with
      | error e => exact Or.inl ⟨e, rfl, (outcome_push hn htrap hreturns).1 e rfl⟩
      | ok y =>
        obtain ⟨b, q⟩ := y
        have hpush : ∀ d, outcome opts ((r.push piece).push d) = outcome opts (q.push d) :=
          fun d => (outcome_push hn htrap hreturns).2 b q rfl
        have hsettled : Settled opts q := by
          refine ⟨process_namesOk hx hn, ?_⟩
          have hself := hpush []
          rw [push_nil, push_nil] at hself
          have hprocess : process opts (r.push piece) = some (.ok (b, q)) := hx
          rw [← hself, outcome, hprocess]
          rfl
        rw [hpush]
        exact ih hsettled (hrest b q hx)

/-! ## Documents without references -/

theorem declEncodingBody_suffix (h : Loop.Next (declEncodingBody opts) r r') :
    r'.buf <:+ r.buf := by
  by_cases hcut : CutReference r
  · have hself : Loop.Next (declEncodingBody opts) r r := cutReference_next hcut
    cases hself.symm.trans h
    exact List.suffix_rfl
  · obtain ⟨n, -, -, hbuf, -⟩ := declEncodingBody_next hcut h
    rw [hbuf]
    exact List.drop_suffix n r.buf

theorem mem_of_head? {buf : Str} (h : buf.head? = some AMP) : AMP ∈ buf :=
  List.mem_of_mem_head? h

/-- There is an ampersand in every trap. -/
theorem Trap.mem (h : Trap opts r) : AMP ∈ r.buf := by
  rcases h with (⟨-, hhead, -⟩ | ⟨-, hhead, -⟩) | ⟨-, q, hq, hcut⟩
  · exact mem_of_head? hhead
  · exact (List.dropWhile_suffix _).subset (mem_of_head? hhead)
  · have hsuffix : q.buf <:+ r.buf := by
      clear hcut
      induction hq with
      | refl => exact List.suffix_rfl
      | tail _ hnext ih => exact (declEncodingBody_suffix hnext).trans ih
    apply hsuffix.subset
    rcases hcut with ⟨hhead, -⟩ | ⟨hhead, -⟩
    · exact mem_of_head? hhead
    · exact mem_of_head? hhead

theorem Moves.suffix (h : Moves r r') : r'.buf <:+ r.buf := by
  obtain ⟨n, -, hbuf, -⟩ := h.bytes
  rw [hbuf]
  exact List.drop_suffix n r.buf

theorem processBody_suffix (h : Loop.Next (processBody opts) r r') : r'.buf <:+ r.buf := by
  obtain ⟨q, ht, -, hf⟩ := processBody_next h
  rw [(flush_spec hf).1]
  exact (transition_moves ht).suffix

theorem process_suffix {b : Bool} (h : process opts r = some (.ok (b, r'))) :
    r'.buf <:+ r.buf := by
  refine Loop.Returns.induct (P := fun q => q.buf <:+ r.buf)
    (Q := fun x => ∀ b q, x = .ok (b, q) → q.buf <:+ r.buf)
    (fun s t hs hnext => (processBody_suffix hnext).trans hs) ?_ (process_eq_some_iff.mp h)
    List.suffix_rfl b r' rfl
  intro s x hs hret b q hx
  rw [hx] at hret
  unfold processBody at hret
  repeat' split at hret
  all_goals try (cases hret; done)
  · cases hret
    exact List.nil_suffix
  · next ht _ =>
    cases hret
    exact (transition_moves ht).suffix.trans hs

/-- Without an ampersand there is no trap. -/
theorem clear_of_no_amp {pieces : List Str} (hr : AMP ∉ r.buf)
    (h : ∀ piece ∈ pieces, AMP ∉ piece) : Clear opts r pieces := by
  induction pieces generalizing r with
  | nil => trivial
  | cons piece pieces ih =>
    have hpush : AMP ∉ (r.push piece).buf := by
      rw [push_buf, List.mem_append, not_or]
      exact ⟨hr, h piece (List.mem_cons_self ..)⟩
    constructor
    · intro q hq htrap
      have hsuffix : q.buf <:+ (r.push piece).buf := by
        clear htrap
        induction hq with
        | refl => exact List.suffix_rfl
        | tail _ hnext ih => exact (processBody_suffix hnext).trans ih
      exact hpush (hsuffix.subset htrap.mem)
    · intro b r' hparse
      apply ih
      · intro hmem
        exact hpush ((process_suffix hparse).subset hmem)
      · intro piece' hmem
        exact h piece' (List.mem_cons_of_mem _ hmem)

/-! ## Every partition -/

/-- The document `<a>&#12345;</a>`, with the last byte of its reference in another piece. -/
def cutDocument : List Str := [str "<a>&#12345", str ";</a>"]

/-- The reader throws on `cutDocument`, and reads it when it comes in one piece. -/
theorem not_sameOutcome_cutDocument :
    ¬ ∀ pieces pieces' : List Str, pieces.flatten = pieces'.flatten →
      SameOutcome (parseAll asciiOptions {} pieces) (parseAll asciiOptions {} pieces') := by
  intro h
  have hsame := h cutDocument [str "<a>&#12345;</a>"] (by rfl)
  have hcut : ∃ e, parseAll asciiOptions {} cutDocument = some (.error e) := ⟨_, rfl⟩
  have hwhole : ∃ r, parseAll asciiOptions {} [str "<a>&#12345;</a>"] = some (.ok r) := ⟨_, rfl⟩
  obtain ⟨e, he⟩ := hcut
  obtain ⟨r, hr⟩ := hwhole
  rw [he, hr] at hsame
  exact hsame

/-- **What the reader makes of a document does not depend on the pieces it comes in**, if no piece
    ends in a trap. -/
theorem parseAll_partition (opts : Options) (pieces pieces' : List Str)
    (hflatten : pieces.flatten = pieces'.flatten) (hclear : Clear opts {} pieces)
    (hclear' : Clear opts {} pieces') :
    SameOutcome (parseAll opts {} pieces) (parseAll opts {} pieces') := by
  rcases parseAll_flatten settled_init hclear with ⟨e, h, ho⟩ | ⟨r, h, ho⟩
  · rcases parseAll_flatten settled_init hclear' with ⟨e', h', ho'⟩ | ⟨r', h', ho'⟩
    · rw [h, h']
      trivial
    · rw [hflatten, ho'] at ho
      cases ho
  · rcases parseAll_flatten settled_init hclear' with ⟨e', h', ho'⟩ | ⟨r', h', ho'⟩
    · rw [hflatten, ho'] at ho
      cases ho
    · rw [hflatten, ho', Option.some.injEq, Option.some.injEq] at ho
      have htrim : ∀ q : SimpleXMLReader, q.trim.events = q.events ∧ q.trim.state = q.state := by
        intro q
        refine ⟨?_, trim_state⟩
        unfold trim
        split <;> rfl
      rw [h, h']
      refine ⟨?_, ?_, ho.symm⟩
      · rw [← (htrim r).1, ← (htrim r').1, ho]
      · rw [← (htrim r).2, ← (htrim r').2, ho]

/-- A tag that is cut in its attribute. -/
theorem sameOutcome_cutTag :
    SameOutcome (parseAll asciiOptions {} [str "<a b", str "='c'/>"])
      (parseAll asciiOptions {} [str "<a b='c'/>"]) :=
  parseAll_partition asciiOptions [str "<a b", str "='c'/>"] [str "<a b='c'/>"] (by rfl)
    (clear_of_no_amp (by decide) (by decide)) (clear_of_no_amp (by decide) (by decide))

end SimpleXMLReader
end Airdcpp
