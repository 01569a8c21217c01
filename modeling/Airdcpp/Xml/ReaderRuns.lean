import Airdcpp.Xml.ChunkedRuns
import Airdcpp.Xml.SimpleXML

/-!
# `Xml/ReaderRuns` — what the reader makes of well-formed text

One lemma for every piece of markup: with the piece in front of the buffer, the rounds of `process`
go on to the reader behind it (`Reaches`). The number of bytes read so far is of no interest, so it
is left open. There is no declaration in these texts, and so no encoding.
-/

namespace Airdcpp
namespace SimpleXMLReader

open SimpleXML (escapedChars replacement escape)

variable {opts : Options} {r q p : SimpleXMLReader}

/-- Some rounds lead from `r` to `q`, wherever in the document `r` is. -/
def Reaches (opts : Options) (r q : SimpleXMLReader) : Prop :=
  ∀ pos, ∃ pos', Loop.Steps (processBody opts) { r with pos := pos } { q with pos := pos' }

theorem Reaches.refl (r : SimpleXMLReader) : Reaches opts r r := fun pos => ⟨pos, .refl⟩

theorem Reaches.trans (h : Reaches opts r q) (h' : Reaches opts q p) : Reaches opts r p := by
  intro pos
  obtain ⟨pos', hsteps⟩ := h pos
  obtain ⟨pos'', hsteps'⟩ := h' pos'
  exact ⟨pos'', hsteps.trans hsteps'⟩

/-- The states with a list of functions and nothing else. -/
def isOrdinary (state : ParseState) : Bool := state != .end && !inEncodingValue state

/-- A round that takes `n` bytes. -/
theorem reaches_of_round {n : Nat} (hn : 0 < n) (hstate : isOrdinary r.state = true)
    (h : ∀ pos, firstOf (actions opts r.state) { r with pos := pos } =
      .ok { q with pos := pos + n })
    (hf : ∀ pos, flush opts r.state { q with pos := pos } = .ok { p with pos := pos }) :
    Reaches opts r p := by
  intro pos
  rw [isOrdinary, Bool.and_eq_true, bne_iff_ne, Bool.not_eq_true'] at hstate
  have ht : transition opts { r with pos := pos } = some (.ok { q with pos := pos + n }) := by
    rw [← h pos]
    exact transition_of_not_encoding opts hstate.2
  refine ⟨pos + n, .single ?_⟩
  refine next_of_transition (r := { r with pos := pos }) hstate.1 ht ?_ (hf (pos + n))
  intro hstill
  have hpos : pos + n = pos := hstill.2
  omega

/-- A round that has no data to report. -/
theorem reaches_of_quiet {n : Nat} (hn : 0 < n) (hstate : isOrdinary r.state = true)
    (hquiet : (r.state != .content || q.state == r.state) = true)
    (h : ∀ pos, firstOf (actions opts r.state) { r with pos := pos } =
      .ok { q with pos := pos + n }) : Reaches opts r q := by
  refine reaches_of_round hn hstate h fun pos => ?_
  rw [flush, if_neg]
  intro hne
  rw [Bool.or_eq_true, bne_iff_ne, beq_iff_eq] at hquiet
  rcases hquiet with hq | hq
  · exact hq hne.1
  · exact hne.2.1 hq

/-- The callback for what is left of the content. -/
def dataEvents (value : Str) : List Event := if value = [] then [] else [.data value]

theorem flush_content (henc : q.encoding = []) (hstate : q.state ≠ .content)
    (hvalue : Text.validateUtf8 q.value = true) :
    flush opts .content q =
      .ok { q with events := q.events ++ dataEvents q.value, value := [] } := by
  unfold flush dataEvents
  by_cases hnil : q.value = []
  · rw [if_neg (fun h => h.2.2 hnil), if_pos hnil, List.append_nil, ← hnil]
  · have hdec : q.decodeString opts q.value = .ok q.value := by
      unfold decodeString
      rw [henc, hvalue]
      rfl
    rw [if_pos ⟨rfl, hstate, hnil⟩, if_neg hnil, hdec]

/-! ## Start tags -/

theorem ne_of_nameStart {d x : UInt8} (hd : isNameStartChar d = true)
    (hx : isNameStartChar x = false) : (d == x) = false := by
  rw [beq_eq_false_iff_ne]
  rintro rfl
  rw [hd] at hx
  cases hx

variable {d : UInt8} {rest name value : Str} {elements : List Str} {attribs : List (Str × Str)}
  {events : List Event}

theorem element_of_nameStart (hb : r.buf = chr '<' :: d :: rest) (hd : isNameStartChar d = true)
    (hnest : r.elements.length < MAX_NESTING) :
    element r =
      .ok (true, { r.advancePos 2 with state := .elementName, elements := [d] :: r.elements }) := by
  have hneed : 2 ≤ r.bufSize := by
    rw [bufSize, hb, List.length_cons, List.length_cons]
    omega
  rw [element, not_needChars hneed, if_neg Bool.false_ne_true]
  dsimp only
  rw [charAt, charAt, hb, List.getD_cons_zero, List.getD_cons_succ, List.getD_cons_zero, hd,
    if_pos (by rfl), if_neg (Nat.not_le.mpr hnest)]
  rfl

theorem literal_refuses {lit : Str} {withSpace : Bool} {newState : ParseState}
    (h : literalMatches lit r.buf = false) : literal lit withSpace newState r = .ok (false, r) := by
  rw [literal, h]
  rfl

theorem literalMatches_of_second {lit : Str} {x c : UInt8} (hx : lit[1]? = some x)
    (hne : (d == x) = false) : literalMatches lit (c :: d :: rest) = false := by
  cases lit with
  | nil => cases hx
  | cons l lit =>
    cases lit with
    | nil => cases hx
    | cons l' lit =>
      cases hx
      rw [literalMatches, literalMatches, hne, Bool.false_and, Bool.and_false]

theorem reaches_element_start (hd : isNameStartChar d = true)
    (hnest : elements.length < MAX_NESTING) :
    Reaches opts { buf := chr '<' :: d :: rest, state := .start, elements, events }
      { buf := rest, state := .elementName, elements := [d] :: elements, events } := by
  refine reaches_of_quiet (Nat.succ_pos 1) rfl rfl fun pos => ?_
  have hdecl : literalMatches (str "<?xml") (chr '<' :: d :: rest) = false :=
    literalMatches_of_second (by rfl) (ne_of_nameStart hd (x := chr '?') (by rfl))
  have hcomment : literalMatches (str "<!--") (chr '<' :: d :: rest) = false :=
    literalMatches_of_second (by rfl) (ne_of_nameStart hd (x := chr '!') (by rfl))
  dsimp only [actions]
  rw [firstOf, literal_refuses (by rfl)]
  dsimp only
  rw [firstOf, literal_refuses hdecl]
  dsimp only
  rw [firstOf, literal_refuses hcomment]
  dsimp only
  rw [firstOf, element_of_nameStart rfl hd hnest]
  rfl

theorem skipSpace_refuses {store : Bool} (hb : r.buf = d :: rest) (hd : isSpace d = false) :
    skipSpace store r = .ok (false, r) := by
  rw [skipSpace_cons hb, hb, skipSpaceLoop_of_ne hd, hd]
  rfl

/-- The beginning of a start tag in the content; what has been read of it is reported. -/
theorem reaches_element (hd : isNameStartChar d = true) (hnest : elements.length < MAX_NESTING)
    (hvalue : Text.validateUtf8 value = true) :
    Reaches opts { buf := chr '<' :: d :: rest, state := .content, value, elements, events }
      { buf := rest, state := .elementName, elements := [d] :: elements,
        events := events ++ dataEvents value } := by
  refine reaches_of_round
    (q := { buf := rest, state := .elementName, value, elements := [d] :: elements, events })
    (Nat.succ_pos 1) rfl (fun pos => ?_) fun pos => flush_content rfl (by simp) hvalue
  have hcomment : literalMatches (str "<!--") (chr '<' :: d :: rest) = false :=
    literalMatches_of_second (by rfl) (ne_of_nameStart hd (x := chr '!') (by rfl))
  have hcdata : literalMatches (str "<![CDATA[") (chr '<' :: d :: rest) = false :=
    literalMatches_of_second (by rfl) (ne_of_nameStart hd (x := chr '!') (by rfl))
  dsimp only [actions]
  rw [firstOf, skipSpace_refuses rfl (by rfl)]
  dsimp only
  rw [firstOf, literal_refuses hcomment]
  dsimp only
  rw [firstOf, literal_refuses hcdata]
  dsimp only
  rw [firstOf, element_of_nameStart rfl hd hnest]
  rfl

theorem takeWhile_name (hname : ∀ x ∈ name, isNameChar x = true) (hd : isNameChar d = false) :
    (name ++ d :: rest).takeWhile isNameChar = name := by
  rw [List.takeWhile_append_of_pos hname, List.takeWhile_cons, hd, if_neg Bool.false_ne_true,
    List.append_nil]

theorem dropWhile_name (hname : ∀ x ∈ name, isNameChar x = true) (hd : isNameChar d = false) :
    (name ++ d :: rest).dropWhile isNameChar = d :: rest := by
  rw [List.dropWhile_append_of_pos hname, List.dropWhile_cons, hd, if_neg Bool.false_ne_true]

/-- The rest of the name of a tag, and what ends it. -/
theorem elementName_of_stop {top : Str} {f : SimpleXMLReader → SimpleXMLReader}
    (hb : r.buf = name ++ d :: rest) (helems : r.elements = top :: elements)
    (hname : ∀ x ∈ name, isNameChar x = true) (hlen : top.length + name.length ≤ MAX_NAME_SIZE)
    (hd : isNameChar d = false) (hf : elementNameStop d = some f) :
    elementName r = .ok (true,
      (f { r with elements := (top ++ name) :: elements }).advancePos (name.length + 1)) := by
  have hdrop : r.buf.dropWhile isNameChar = d :: rest := by rw [hb, dropWhile_name hname hd]
  have htake : r.buf.takeWhile isNameChar = name := by rw [hb, takeWhile_name hname hd]
  rw [elementName, (readName_cons appendElement elementNameStop hdrop).2 f hf, htake,
    appendElement_cons helems, if_neg (Nat.not_lt.mpr hlen)]
  rfl

theorem drop_behind (a : Str) (rest : Str) : (a ++ d :: rest).drop (a.length + 1) = rest := by
  rw [← List.drop_drop, List.drop_left]
  rfl

section Name

variable {top : Str} (hname : ∀ x ∈ name, isNameChar x = true)
  (hlen : top.length + name.length ≤ MAX_NAME_SIZE)

include hname hlen

theorem reaches_elementName_space :
    Reaches opts
      { buf := name ++ chr ' ' :: rest, state := .elementName, elements := top :: elements, events }
      { buf := rest, state := .elementAttr, elements := (top ++ name) :: elements, events } := by
  refine reaches_of_quiet (Nat.succ_pos name.length) rfl rfl fun pos => ?_
  dsimp only [actions]
  rw [firstOf, elementName_of_stop rfl rfl hname hlen (by rfl) (by rfl)]
  unfold advancePos
  dsimp only
  rw [drop_behind]

theorem reaches_elementName_slash :
    Reaches opts
      { buf := name ++ chr '/' :: rest, state := .elementName, elements := top :: elements, events }
      { buf := rest, state := .elementEndSimple, elements := (top ++ name) :: elements,
        events } := by
  refine reaches_of_quiet (Nat.succ_pos name.length) rfl rfl fun pos => ?_
  dsimp only [actions]
  rw [firstOf, elementName_of_stop rfl rfl hname hlen (by rfl) (by rfl)]
  unfold advancePos
  dsimp only
  rw [drop_behind]

theorem reaches_elementName_end :
    Reaches opts
      { buf := name ++ chr '>' :: rest, state := .elementName, elements := top :: elements, events }
      { buf := rest, state := .content, elements := (top ++ name) :: elements,
        events := events ++ [.startTag (top ++ name) [] false] } := by
  refine reaches_of_quiet (Nat.succ_pos name.length) rfl rfl fun pos => ?_
  dsimp only [actions]
  rw [firstOf, elementName_of_stop rfl rfl hname hlen (by rfl) (by rfl)]
  unfold advancePos startTag
  dsimp only
  rw [drop_behind]
  rfl

end Name

/-! ## Attributes -/

/-- A name the reader knows, of the size that it stores. -/
structure IsName (name : Str) : Prop where
  start : ∃ d rest, name = d :: rest ∧ isNameStartChar d = true
  chars : ∀ x ∈ name, isNameChar x = true
  length : name.length ≤ MAX_NAME_SIZE

theorem charAt_zero (hb : r.buf = d :: rest) : r.charAt 0 = d := by
  rw [charAt, hb, List.getD_cons_zero]

theorem one_le_bufSize (hb : r.buf = d :: rest) : 1 ≤ r.bufSize := by
  rw [bufSize, hb]
  exact Nat.succ_pos _

theorem character_takes {newState : ParseState} (hb : r.buf = d :: rest) :
    character d newState r = .ok (true, { r.advancePos 1 with state := newState }) := by
  rw [character, not_needChars (one_le_bufSize hb), if_neg Bool.false_ne_true, charAt_zero hb,
    if_pos (beq_self_eq_true d)]

theorem character_refuses {x : UInt8} {newState : ParseState} (hb : r.buf = d :: rest)
    (hne : (d == x) = false) : character x newState r = .ok (false, r) := by
  rw [character, not_needChars (one_le_bufSize hb), if_neg Bool.false_ne_true, charAt_zero hb, hne,
    if_neg Bool.false_ne_true]

/-- A space between the name of a tag, its attributes and the end of the start tag. -/
theorem reaches_attrSpace (hd : isSpace d = false) :
    Reaches opts
      { buf := chr ' ' :: d :: rest, state := .elementAttr, attribs, elements, events }
      { buf := d :: rest, state := .elementAttr, attribs, elements, events } := by
  refine reaches_of_quiet Nat.one_pos rfl rfl fun pos => ?_
  have hspace : isSpace (chr ' ') = true := by rfl
  dsimp only [actions]
  rw [firstOf, refusesSpace_elementAttr _ ⟨_, _, rfl, hspace⟩]
  dsimp only
  rw [firstOf, refusesSpace_elementEndComplex _ ⟨_, _, rfl, hspace⟩]
  dsimp only
  rw [firstOf, character_refuses rfl (by rfl)]
  dsimp only
  rw [firstOf_spaceOrError_of_space rfl hspace (skipSpaceLoop_false rfl)]
  dsimp only
  rw [List.takeWhile_cons, hspace, if_pos rfl, List.takeWhile_cons, hd, if_neg Bool.false_ne_true]
  rfl

theorem elementAttrName_of_equals {start : Str} (hb : r.buf = name ++ chr '=' :: rest)
    (hattr : r.attribs = (start, value) :: attribs) (hname : ∀ x ∈ name, isNameChar x = true)
    (hlen : start.length + name.length ≤ MAX_NAME_SIZE) :
    elementAttrName r = .ok (true,
      advancePos { r with attribs := (start ++ name, value) :: attribs, state := .elementAttrValue }
        (name.length + 1)) := by
  have hdrop : r.buf.dropWhile isNameChar = chr '=' :: rest := by
    rw [hb, dropWhile_name hname (by rfl)]
  have htake : r.buf.takeWhile isNameChar = name := by rw [hb, takeWhile_name hname (by rfl)]
  rw [elementAttrName, (readName_cons appendAttrName elementAttrNameStop hdrop).2 _ rfl, htake,
    appendAttrName_cons hattr, if_neg (Nat.not_lt.mpr hlen)]
  rfl

/-- `name="` -/
theorem reaches_attrName (hname : IsName name) :
    Reaches opts
      { buf := name ++ str "=\"" ++ rest, state := .elementAttr, attribs, elements, events }
      { buf := rest, state := .elementAttrValueQuot, attribs := (name, []) :: attribs, elements,
        events } := by
  obtain ⟨d, tail, rfl, hd⟩ := hname.start
  have htail : ∀ x ∈ tail, isNameChar x = true :=
    fun x hx => hname.chars x (List.mem_cons_of_mem d hx)
  have hfirst : Reaches opts
      { buf := d :: tail ++ str "=\"" ++ rest, state := .elementAttr, attribs, elements, events }
      { buf := tail ++ str "=\"" ++ rest, state := .elementAttrName,
        attribs := ([d], []) :: attribs, elements, events } := by
    refine reaches_of_quiet Nat.one_pos rfl rfl fun pos => ?_
    dsimp only [actions]
    rw [firstOf, elementAttr, not_needChars (one_le_bufSize rfl), if_neg Bool.false_ne_true,
      charAt_zero rfl]
    dsimp only
    rw [hd, if_pos rfl]
    rfl
  have hrest : Reaches opts
      { buf := tail ++ chr '=' :: QUOT :: rest, state := .elementAttrName,
        attribs := ([d], []) :: attribs, elements, events }
      { buf := QUOT :: rest, state := .elementAttrValue, attribs := (d :: tail, []) :: attribs,
        elements, events } := by
    refine reaches_of_quiet (Nat.succ_pos tail.length) rfl rfl fun pos => ?_
    have hlen : [d].length + tail.length ≤ MAX_NAME_SIZE := by
      rw [List.length_singleton, Nat.add_comm]
      exact hname.length
    dsimp only [actions]
    rw [firstOf, elementAttrName_of_equals rfl rfl htail hlen]
    unfold advancePos
    dsimp only
    rw [drop_behind]
    rfl
  have hquot : Reaches opts
      { buf := QUOT :: rest, state := .elementAttrValue, attribs := (d :: tail, []) :: attribs,
        elements, events }
      { buf := rest, state := .elementAttrValueQuot, attribs := (d :: tail, []) :: attribs,
        elements, events } := by
    refine reaches_of_quiet Nat.one_pos rfl rfl fun pos => ?_
    dsimp only [actions]
    rw [firstOf, character_refuses rfl (by rfl)]
    dsimp only
    rw [firstOf, character_takes rfl]
    rfl
  have htext : tail ++ str "=\"" ++ rest = tail ++ chr '=' :: QUOT :: rest := by
    rw [List.append_assoc]
    rfl
  rw [htext] at hfirst
  exact (hfirst.trans hrest).trans hquot

/-! ## What is escaped -/

theorem escape_append (aAttrib : Bool) (s t : Str) :
    escape aAttrib (s ++ t) = escape aAttrib s ++ escape aAttrib t := by
  induction s with
  | nil => rfl
  | cons c s ih => rw [List.cons_append, escape, escape, ih, List.append_assoc]

theorem escape_of_plain {aAttrib : Bool} {s : Str} (h : ∀ c ∈ s, c ∉ escapedChars aAttrib) :
    escape aAttrib s = s := by
  induction s with
  | nil => rfl
  | cons c s ih =>
    rw [escape, if_neg (h c (List.mem_cons_self ..)),
      ih fun x hx => h x (List.mem_cons_of_mem c hx)]
    rfl

theorem mem_escapedChars {aAttrib : Bool} {c : UInt8} (h : c ∈ escapedChars aAttrib) :
    c = chr '<' ∨ c = AMP ∨ c = chr '>' ∨ c = APOS ∨ c = QUOT := by
  cases aAttrib with
  | true => simpa [escapedChars] using h
  | false =>
    have h' : c = chr '<' ∨ c = AMP ∨ c = chr '>' := by simpa [escapedChars] using h
    rcases h' with h | h | h
    · exact Or.inl h
    · exact Or.inr (Or.inl h)
    · exact Or.inr (Or.inr (Or.inl h))

/-- The reader knows what is written for a character. -/
theorem reference_replacement {aAttrib : Bool} {c : UInt8} (h : c ∈ escapedChars aAttrib)
    (tail : Str) :
    ∃ t, replacement c = AMP :: t ∧ 3 ≤ t.length ∧
      reference (AMP :: (t ++ tail)) = some ([c], t.length + 1) := by
  rcases mem_escapedChars h with rfl | rfl | rfl | rfl | rfl
  · exact ⟨str "lt;", by rfl, by decide, by rfl⟩
  · exact ⟨str "amp;", by rfl, by decide, by rfl⟩
  · exact ⟨str "gt;", by rfl, by decide, by rfl⟩
  · exact ⟨str "apos;", by rfl, by decide, by rfl⟩
  · exact ⟨str "quot;", by rfl, by decide, by rfl⟩

theorem entref_reference {s t tail : Str} {n : Nat} (hb : r.buf = AMP :: tail)
    (hsize : s.length ≤ MAX_VALUE_SIZE) (htail : 5 < tail.length)
    (href : reference (AMP :: tail) = some (t, n)) :
    r.entref s = .ok (true, s ++ t, r.advancePos n) := by
  have hbuf : 6 < r.bufSize := by
    rw [bufSize, hb, List.length_cons]
    exact Nat.succ_lt_succ htail
  rw [entref, if_neg (Nat.not_lt.mpr hsize), if_pos hbuf, hb, href]

/-! ## Values of attributes -/

/-- The bytes in front of the end of the value or a reference. -/
theorem appendAttrValue_piece {s : Str} (hb : r.buf = s ++ d :: rest)
    (hs : r.state = .elementAttrValueQuot) (hattr : r.attribs = (name, value) :: attribs)
    (hplain : ∀ c ∈ s, isPlain .elementAttrValueQuot c = true)
    (hd : isPlain .elementAttrValueQuot d = false)
    (hlen : value.length + s.length ≤ MAX_VALUE_SIZE) :
    r.appendAttrValue (r.buf.takeWhile (isPlain r.state)) =
      .ok (advancePos { r with attribs := (name, value ++ s) :: attribs } s.length) := by
  have htake : r.buf.takeWhile (isPlain r.state) = s := by
    rw [hb, hs, List.takeWhile_append_of_pos hplain, List.takeWhile_cons, hd,
      if_neg Bool.false_ne_true, List.append_nil]
  rw [htake, appendAttrValue_cons hattr, if_neg (Nat.not_lt.mpr hlen)]

theorem reaches_attrValue_close {s : Str}
    (hplain : ∀ c ∈ s, isPlain .elementAttrValueQuot c = true)
    (hlen : value.length + s.length ≤ MAX_VALUE_SIZE)
    (hutf8 : Text.validateUtf8 (value ++ s) = true) :
    Reaches opts
      { buf := s ++ QUOT :: rest, state := .elementAttrValueQuot,
        attribs := (name, value) :: attribs, elements, events }
      { buf := rest, state := .elementAttr, attribs := (name, value ++ s) :: attribs, elements,
        events } := by
  refine reaches_of_quiet (Nat.succ_pos s.length) rfl rfl fun pos => ?_
  dsimp only [actions]
  rw [firstOf, elementAttrValue_of_ok opts (appendAttrValue_piece rfl rfl rfl hplain (by rfl) hlen),
    attrValueEnd]
  unfold advancePos
  dsimp only
  rw [List.drop_left]
  dsimp only
  rw [if_pos (by rfl)]
  have hdec : ∀ r : SimpleXMLReader, r.encoding = [] →
      r.decodeString opts (value ++ s) = .ok (value ++ s) := by
    intro r henc
    rw [decodeString, henc, hutf8]
    rfl
  unfold attrValue setAttrValue
  dsimp only
  rw [hdec _ rfl]
  rfl

theorem reaches_attrValue_reference {s t tail : Str} {n : Nat}
    (hplain : ∀ c ∈ s, isPlain .elementAttrValueQuot c = true)
    (hlen : value.length + s.length ≤ MAX_VALUE_SIZE) (hsize : 5 < tail.length) (hn : 0 < n)
    (href : reference (AMP :: tail) = some (t, n)) :
    Reaches opts
      { buf := s ++ AMP :: tail, state := .elementAttrValueQuot,
        attribs := (name, value) :: attribs, elements, events }
      { buf := (AMP :: tail).drop n, state := .elementAttrValueQuot,
        attribs := (name, value ++ s ++ t) :: attribs, elements, events } := by
  refine reaches_of_quiet (Nat.add_pos_right s.length hn) rfl rfl fun pos => ?_
  dsimp only [actions]
  rw [firstOf, elementAttrValue_of_ok opts (appendAttrValue_piece rfl rfl rfl hplain (by rfl) hlen),
    attrValueEnd]
  unfold advancePos
  dsimp only
  rw [List.drop_left]
  dsimp only
  rw [if_neg (by rw [closing_amp]; exact Bool.false_ne_true)]
  unfold attrValue
  dsimp only
  rw [entref_reference rfl (by rw [List.length_append]; exact hlen) hsize href]
  unfold setAttrValue advancePos
  dsimp only
  rw [Nat.add_assoc]

theorem isPlain_of_not_escaped {c : UInt8} (h : c ∉ escapedChars true) :
    isPlain .elementAttrValueQuot c = true := by
  have hq : c ≠ QUOT := fun hc => h (by rw [hc]; decide)
  have ha : c ≠ AMP := fun hc => h (by rw [hc]; decide)
  rw [isPlain, Bool.not_eq_true', Bool.or_eq_false_iff, beq_eq_false_iff_ne]
  refine ⟨?_, ha⟩
  show ((false && c == APOS) || (true && c == QUOT)) = false
  rw [beq_eq_false_iff_ne.mpr hq, Bool.false_and, Bool.and_false, Bool.or_false]

/-- A string in front of the first character that is escaped, and that character. -/
theorem split_escaped (aAttrib : Bool) (s : Str) :
    (∀ c ∈ s, c ∉ escapedChars aAttrib) ∨
      ∃ t c u, s = t ++ c :: u ∧ (∀ x ∈ t, x ∉ escapedChars aAttrib) ∧
        c ∈ escapedChars aAttrib := by
  induction s with
  | nil => exact Or.inl fun c hc => by cases hc
  | cons c s ih =>
    by_cases hc : c ∈ escapedChars aAttrib
    · exact Or.inr ⟨[], c, s, rfl, (fun x hx => by cases hx), hc⟩
    · rcases ih with h | ⟨t, x, u, hs, ht, hx⟩
      · exact Or.inl (List.forall_mem_cons.mpr ⟨hc, h⟩)
      · exact Or.inr ⟨c :: t, x, u, by rw [hs]; rfl, List.forall_mem_cons.mpr ⟨hc, ht⟩, hx⟩

/-- **The value of an attribute is read as it was before it was escaped.** -/
theorem reaches_attrValue {s : Str} (hlen : value.length + s.length ≤ MAX_VALUE_SIZE)
    (hutf8 : Text.validateUtf8 (value ++ s) = true) (hrest : 2 ≤ rest.length) :
    Reaches opts
      { buf := escape true s ++ QUOT :: rest, state := .elementAttrValueQuot,
        attribs := (name, value) :: attribs, elements, events }
      { buf := rest, state := .elementAttr, attribs := (name, value ++ s) :: attribs, elements,
        events } := by
  induction hn : s.length using Nat.strong_induction_on generalizing s value with
  | _ n ih =>
  rcases split_escaped true s with h | ⟨t, c, u, rfl, ht, hc⟩
  · rw [escape_of_plain h]
    exact reaches_attrValue_close (fun c hc => isPlain_of_not_escaped (h c hc)) hlen hutf8
  · obtain ⟨w, hw, hwlen, href⟩ := reference_replacement hc (escape true u ++ QUOT :: rest)
    have htext : escape true (t ++ c :: u) ++ QUOT :: rest =
        t ++ AMP :: (w ++ (escape true u ++ QUOT :: rest)) := by
      rw [escape_append, escape_of_plain ht, escape, if_pos hc, hw]
      simp only [List.append_assoc, List.cons_append]
    rw [List.length_append, List.length_cons] at hlen hn
    have hlt : u.length < n := by omega
    have hsize : 5 < (w ++ (escape true u ++ QUOT :: rest)).length := by
      simp only [List.length_append, List.length_cons]
      omega
    have hvalue : value ++ (t ++ c :: u) = value ++ t ++ [c] ++ u := by
      simp only [List.append_assoc, List.singleton_append]
    rw [hvalue] at hutf8
    have hmore : (value ++ t ++ [c]).length + u.length ≤ MAX_VALUE_SIZE := by
      simp only [List.length_append, List.length_singleton]
      omega
    rw [htext, hvalue]
    refine (reaches_attrValue_reference (fun x hx => isPlain_of_not_escaped (ht x hx)) (by omega)
      hsize (Nat.succ_pos _) href).trans ?_
    rw [List.drop_succ_cons, List.drop_left]
    exact ih u.length hlt hmore hutf8 rfl

/-- `name="value"` -/
theorem reaches_attr (hname : IsName name) (hlen : value.length ≤ MAX_VALUE_SIZE)
    (hutf8 : Text.validateUtf8 value = true) (hrest : 2 ≤ rest.length) :
    Reaches opts
      { buf := name ++ str "=\"" ++ (escape true value ++ QUOT :: rest), state := .elementAttr,
        attribs, elements, events }
      { buf := rest, state := .elementAttr, attribs := (name, value) :: attribs, elements,
        events } := by
  refine (reaches_attrName hname).trans ?_
  apply reaches_attrValue
  · rw [List.length_nil, Nat.zero_add]
    exact hlen
  · exact hutf8
  · exact hrest

theorem reaches_simple_end {top : Str} :
    Reaches opts
      { buf := chr '>' :: rest, state := .elementEndSimple, attribs, elements := top :: elements,
        events }
      { buf := rest, state := .content, elements,
        events := events ++ [.startTag top attribs.reverse true] } := by
  refine reaches_of_quiet Nat.one_pos rfl rfl fun pos => ?_
  dsimp only [actions]
  rw [firstOf, elementEndSimple, not_needChars (one_le_bufSize rfl), if_neg Bool.false_ne_true,
    charAt_zero rfl, if_pos (by rfl)]
  rfl

theorem reaches_attr_slash :
    Reaches opts { buf := chr '/' :: rest, state := .elementAttr, attribs, elements, events }
      { buf := rest, state := .elementEndSimple, attribs, elements, events } := by
  refine reaches_of_quiet Nat.one_pos rfl rfl fun pos => ?_
  dsimp only [actions]
  rw [firstOf, elementAttr, not_needChars (one_le_bufSize rfl), if_neg Bool.false_ne_true,
    charAt_zero rfl]
  dsimp only
  rw [if_neg (by decide)]
  dsimp only
  rw [firstOf, elementEndComplex, not_needChars (one_le_bufSize rfl), if_neg Bool.false_ne_true,
    charAt_zero rfl, if_neg (by decide)]
  dsimp only
  rw [firstOf, character_takes rfl]
  rfl

theorem reaches_attr_end {top : Str} :
    Reaches opts
      { buf := chr '>' :: rest, state := .elementAttr, attribs, elements := top :: elements,
        events }
      { buf := rest, state := .content, elements := top :: elements,
        events := events ++ [.startTag top attribs.reverse false] } := by
  refine reaches_of_quiet Nat.one_pos rfl rfl fun pos => ?_
  dsimp only [actions]
  rw [firstOf, elementAttr, not_needChars (one_le_bufSize rfl), if_neg Bool.false_ne_true,
    charAt_zero rfl]
  dsimp only
  rw [if_neg (by decide)]
  dsimp only
  rw [firstOf, elementEndComplex, not_needChars (one_le_bufSize rfl), if_neg Bool.false_ne_true,
    charAt_zero rfl, if_pos (by rfl)]
  rfl

/-! ## Content -/

/-- White space is stored. -/
theorem skipSpaceLoop_true {ws buf : Str} (hb : r.buf = ws ++ buf)
    (hws : ∀ c ∈ ws, isSpace c = true) (hbuf : ∀ d rest, buf = d :: rest → isSpace d = false)
    (hlen : r.value.length + ws.length ≤ MAX_VALUE_SIZE) :
    skipSpaceLoop true r.buf r =
      .ok { r.advancePos ws.length with value := r.value ++ ws } := by
  rw [hb]
  induction ws generalizing r with
  | nil =>
    have hself : skipSpaceLoop true buf r = .ok r := by
      cases buf with
      | nil => rfl
      | cons d rest => exact skipSpaceLoop_of_ne (hbuf d rest rfl)
    rw [List.nil_append, hself, List.append_nil, advancePos]
    rfl
  | cons c ws ih =>
    rw [List.length_cons] at hlen
    have hone : ¬ MAX_VALUE_SIZE < r.value.length := by omega
    rw [List.cons_append, skipSpaceLoop, hws c (List.mem_cons_self ..), if_pos rfl, if_pos rfl,
      append, if_neg hone]
    dsimp only
    rw [ih (r := { r.advancePos 1 with value := r.value ++ [c] })]
    · unfold advancePos
      dsimp only
      rw [List.drop_drop, List.append_assoc, List.length_cons, Nat.add_assoc, Nat.add_comm 1,
        List.singleton_append]
    · unfold advancePos
      dsimp only
      rw [hb]
      rfl
    · exact fun x hx => hws x (List.mem_cons_of_mem c hx)
    · rw [List.length_append, List.length_singleton]
      omega

theorem reaches_whiteSpace {ws : Str} (hws : ∀ c ∈ ws, isSpace c = true)
    (hd : isSpace d = false) (hlen : value.length + ws.length ≤ MAX_VALUE_SIZE) :
    Reaches opts { buf := ws ++ d :: rest, state := .content, value, elements, events }
      { buf := d :: rest, state := .content, value := value ++ ws, elements, events } := by
  cases ws with
  | nil =>
    rw [List.nil_append, List.append_nil]
    exact Reaches.refl _
  | cons c ws =>
    refine reaches_of_quiet (Nat.succ_pos ws.length) rfl rfl fun pos => ?_
    have hc : isSpace c = true := hws c (List.mem_cons_self ..)
    have hhead : ∀ x tail, d :: rest = x :: tail → isSpace x = false := by
      intro x tail heq
      cases heq
      exact hd
    dsimp only [actions]
    rw [firstOf, skipSpace_cons (by rfl), hc, skipSpaceLoop_true (by rfl) hws hhead hlen]
    unfold advancePos Except.map
    dsimp only
    rw [List.drop_left]
    rfl

theorem literal_refuses_head {x : UInt8} {lit : Str} {withSpace : Bool} {newState : ParseState}
    (hb : r.buf = d :: rest) (hx : lit.head? = some x) (hne : (d == x) = false) :
    literal lit withSpace newState r = .ok (false, r) := by
  apply literal_refuses
  cases lit with
  | nil => cases hx
  | cons l lit =>
    cases hx
    rw [hb, literalMatches, hne, Bool.false_and]

theorem element_refuses (hb : r.buf = d :: rest) (hrest : rest ≠ [])
    (hne : (d == chr '<') = false) : element r = .ok (false, r) := by
  have hneed : 2 ≤ r.bufSize := by
    rw [bufSize, hb, List.length_cons]
    exact Nat.succ_le_succ (List.length_pos_iff.mpr hrest)
  rw [element, not_needChars hneed, if_neg Bool.false_ne_true]
  dsimp only
  rw [charAt_zero hb, hne, Bool.false_and, if_neg Bool.false_ne_true]

/-- What comes to the last function of the content. -/
theorem firstOf_content (hb : r.buf = d :: rest) (hrest : rest ≠ []) (hd : isSpace d = false)
    (hne : (d == chr '<') = false) :
    firstOf (actions opts .content) r =
      firstOf [content, fail "Expecting content, element or comment"] r := by
  rw [actions, firstOf, skipSpace_refuses hb hd]
  dsimp only
  rw [firstOf, literal_refuses_head hb (by rfl) hne]
  dsimp only
  rw [firstOf, literal_refuses_head hb (by rfl) hne]
  dsimp only
  rw [firstOf, element_refuses hb hrest hne]
  dsimp only
  rw [firstOf, literal_refuses_head hb (by rfl) hne]

theorem reaches_char (hrest : rest ≠ []) (hd : isSpace d = false) (hlt : (d == chr '<') = false)
    (hamp : (d == AMP) = false) (hlen : value.length ≤ MAX_VALUE_SIZE) :
    Reaches opts { buf := d :: rest, state := .content, value, elements, events }
      { buf := rest, state := .content, value := value ++ [d], elements, events } := by
  refine reaches_of_quiet Nat.one_pos rfl rfl fun pos => ?_
  dsimp only
  rw [firstOf_content rfl hrest hd hlt, firstOf, content, not_needChars (one_le_bufSize rfl),
    if_neg Bool.false_ne_true, charAt_zero rfl]
  dsimp only
  rw [hamp, if_neg Bool.false_ne_true, append, if_neg (Nat.not_lt.mpr hlen)]
  rfl

theorem reaches_reference {t tail : Str} {n : Nat} (hsize : 5 < tail.length) (hn : 0 < n)
    (href : reference (AMP :: tail) = some (t, n)) (hlen : value.length ≤ MAX_VALUE_SIZE) :
    Reaches opts { buf := AMP :: tail, state := .content, value, elements, events }
      { buf := (AMP :: tail).drop n, state := .content, value := value ++ t, elements,
        events } := by
  have htail : tail ≠ [] := by
    intro hnil
    rw [hnil] at hsize
    cases hsize
  refine reaches_of_quiet hn rfl rfl fun pos => ?_
  dsimp only
  rw [firstOf_content rfl htail (by rfl) (by rfl), firstOf, content,
    not_needChars (one_le_bufSize rfl), if_neg Bool.false_ne_true, charAt_zero rfl]
  dsimp only
  rw [if_pos (by rfl), entref_reference rfl hlen hsize href]
  rfl

theorem not_escaped_of_space {c : UInt8} (hc : isSpace c = true) : c ∉ escapedChars false := by
  rcases isSpace_cases hc with rfl | rfl | rfl | rfl <;> decide

/-- Text that does not begin with white space is not written so, either. -/
theorem escape_head (rest : Str) {s : Str} (h : ∀ c t, s = c :: t → isSpace c = false) :
    ∃ d tail, escape false s ++ chr '<' :: rest = d :: tail ∧ isSpace d = false := by
  cases s with
  | nil => exact ⟨chr '<', rest, rfl, by rfl⟩
  | cons c s =>
    by_cases hc : c ∈ escapedChars false
    · obtain ⟨w, hw, -⟩ := reference_replacement hc []
      refine ⟨AMP, w ++ (escape false s ++ chr '<' :: rest), ?_, by rfl⟩
      rw [escape, if_pos hc, hw, List.append_assoc, List.cons_append]
    · refine ⟨c, escape false s ++ chr '<' :: rest, ?_, h c s rfl⟩
      rw [escape, if_neg hc, List.append_assoc, List.singleton_append]

/-- **Data is read as it was before it was escaped.** -/
theorem reaches_data {s : Str} (hlen : value.length + s.length ≤ MAX_VALUE_SIZE)
    (hrest : 2 ≤ rest.length) :
    Reaches opts
      { buf := escape false s ++ chr '<' :: rest, state := .content, value, elements, events }
      { buf := chr '<' :: rest, state := .content, value := value ++ s, elements, events } := by
  induction hn : s.length using Nat.strong_induction_on generalizing s value with
  | _ n ih =>
  cases s with
  | nil =>
    rw [List.append_nil]
    exact Reaches.refl _
  | cons c s =>
    have hvalue : value ++ c :: s = value ++ [c] ++ s := by
      rw [List.append_assoc, List.singleton_append]
    have hmore : (value ++ [c]).length + s.length ≤ MAX_VALUE_SIZE := by
      rw [List.length_append, List.length_singleton]
      rw [List.length_cons] at hlen
      omega
    have hlt : s.length < n := by
      rw [← hn]
      exact Nat.lt_succ_self _
    by_cases hc : c ∈ escapedChars false
    · obtain ⟨w, hw, hwlen, href⟩ := reference_replacement hc (escape false s ++ chr '<' :: rest)
      have htext : escape false (c :: s) ++ chr '<' :: rest =
          AMP :: (w ++ (escape false s ++ chr '<' :: rest)) := by
        rw [escape, if_pos hc, hw, List.append_assoc, List.cons_append]
      have hsize : 5 < (w ++ (escape false s ++ chr '<' :: rest)).length := by
        simp only [List.length_append, List.length_cons]
        omega
      rw [htext, hvalue]
      refine (reaches_reference hsize (Nat.succ_pos _) href (by omega)).trans ?_
      rw [List.drop_succ_cons, List.drop_left]
      exact ih s.length hlt hmore rfl
    · have htext : escape false (c :: s) ++ chr '<' :: rest =
          c :: (escape false s ++ chr '<' :: rest) := by
        rw [escape, if_neg hc, List.append_assoc, List.singleton_append]
      have hbehind : escape false s ++ chr '<' :: rest ≠ [] :=
        List.append_ne_nil_of_right_ne_nil _ (List.cons_ne_nil _ _)
      have hne : ∀ x ∈ escapedChars false, (c == x) = false := by
        intro x hx
        rw [beq_eq_false_iff_ne]
        rintro rfl
        exact hc hx
      cases hsp : isSpace c with
      | false =>
        rw [htext, hvalue]
        refine (reaches_char hbehind hsp (hne _ (by decide)) (hne _ (by decide)) (by omega)).trans
          ?_
        exact ih s.length hlt hmore rfl
      | true =>
        have hsplit := List.takeWhile_append_dropWhile (p := isSpace) (l := c :: s)
        have hws : ∀ x ∈ (c :: s).takeWhile isSpace, isSpace x = true :=
          fun x hx => List.mem_takeWhile_imp hx
        have hhead : ∀ x t, (c :: s).dropWhile isSpace = x :: t → isSpace x = false := by
          intro x t hx
          have hnot := List.head?_dropWhile_not isSpace (c :: s)
          rw [hx] at hnot
          simpa using hnot
        have hshort : ((c :: s).dropWhile isSpace).length < n := by
          rw [List.dropWhile_cons, if_pos hsp]
          exact Nat.lt_of_le_of_lt (List.dropWhile_suffix isSpace).length_le hlt
        generalize (c :: s).takeWhile isSpace = ws at hsplit hws
        generalize (c :: s).dropWhile isSpace = t at hsplit hhead hshort
        rw [← hsplit, List.length_append] at hlen
        obtain ⟨d, tail, htext, hd⟩ := escape_head rest hhead
        rw [← hsplit, escape_append, escape_of_plain fun x hx => not_escaped_of_space (hws x hx),
          List.append_assoc, htext, ← List.append_assoc]
        refine (reaches_whiteSpace hws hd (by omega)).trans ?_
        rw [← htext]
        refine ih t.length hshort ?_ rfl
        rw [List.length_append]
        omega

theorem reaches_endTag {top : Str} (htop : top ≠ []) (hvalue : Text.validateUtf8 value = true) :
    Reaches opts
      { buf := chr '<' :: chr '/' :: (top ++ chr '>' :: rest), state := .content, value,
        elements := top :: elements, events }
      { buf := rest, state := .content, elements,
        events := events ++ dataEvents value ++ [.endTag top] } := by
  have hlit : Reaches opts
      { buf := chr '<' :: chr '/' :: (top ++ chr '>' :: rest), state := .content, value,
        elements := top :: elements, events }
      { buf := top ++ chr '>' :: rest, state := .elementEnd, elements := top :: elements,
        events := events ++ dataEvents value } := by
    refine reaches_of_round
      (q := { buf := top ++ chr '>' :: rest, state := .elementEnd, value,
              elements := top :: elements, events })
      (Nat.succ_pos 1) rfl (fun pos => ?_) fun pos => flush_content rfl (by simp) hvalue
    have hcomment : literalMatches (str "<!--")
        (chr '<' :: chr '/' :: (top ++ chr '>' :: rest)) = false :=
      literalMatches_of_second (by rfl) (x := chr '!') (by rfl)
    have hcdata : literalMatches (str "<![CDATA[")
        (chr '<' :: chr '/' :: (top ++ chr '>' :: rest)) = false :=
      literalMatches_of_second (by rfl) (x := chr '!') (by rfl)
    dsimp only [actions]
    rw [firstOf, skipSpace_refuses rfl (by rfl)]
    dsimp only
    rw [firstOf, literal_refuses hcomment]
    dsimp only
    rw [firstOf, literal_refuses hcdata]
    dsimp only
    rw [firstOf, element, not_needChars (by
      rw [bufSize, List.length_cons, List.length_cons]
      exact Nat.le_add_left 2 _), if_neg Bool.false_ne_true]
    dsimp only
    rw [charAt, charAt, List.getD_cons_zero, List.getD_cons_succ, List.getD_cons_zero,
      if_neg (by decide)]
    dsimp only
    rw [firstOf, literal]
    rfl
  have hname : Reaches opts
      { buf := top ++ chr '>' :: rest, state := .elementEnd, elements := top :: elements,
        events := events ++ dataEvents value }
      { buf := chr '>' :: rest, state := .elementEndEnd, elements := top :: elements,
        events := events ++ dataEvents value } := by
    refine reaches_of_quiet (List.length_pos_iff.mpr htop) rfl rfl fun pos => ?_
    dsimp only [actions]
    rw [firstOf, elementEnd]
    dsimp only
    rw [not_needChars (by
      rw [bufSize, List.length_append]
      exact Nat.le_add_right _ _), if_neg Bool.false_ne_true, List.take_left,
      if_pos (beq_self_eq_true top)]
    unfold advancePos
    dsimp only
    rw [List.drop_left]
  have hend : Reaches opts
      { buf := chr '>' :: rest, state := .elementEndEnd, elements := top :: elements,
        events := events ++ dataEvents value }
      { buf := rest, state := .content, elements,
        events := events ++ dataEvents value ++ [.endTag top] } := by
    refine reaches_of_quiet Nat.one_pos rfl rfl fun pos => ?_
    dsimp only [actions]
    rw [firstOf, elementEndEnd, not_needChars (one_le_bufSize rfl), if_neg Bool.false_ne_true,
      charAt_zero rfl, if_pos (by rfl)]
    rfl
  exact (hlit.trans hname).trans hend

end SimpleXMLReader
end Airdcpp
