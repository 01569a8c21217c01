import Airdcpp.Xml.ChunkedStates

/-!
# `Xml/ElementNames` — the names on the stack of elements

The name of an element begins with a letter, a colon or an underscore, and never again is anything
put in front of it. So white space in front of an end tag is never taken for the name.
-/

namespace Airdcpp
namespace SimpleXMLReader

variable {opts : Options} {r r' : SimpleXMLReader}

/-- The names of elements begin with something that is no white space. -/
def NamesOk (r : SimpleXMLReader) : Prop :=
  ∀ name ∈ r.elements, ∃ d rest, name = d :: rest ∧ isSpace d = false

def KeepsNames (a : Action) : Prop :=
  ∀ {r r' : SimpleXMLReader} {b : Bool}, a r = .ok (b, r') → NamesOk r → NamesOk r'

theorem NamesOk.of_elements (h : NamesOk r) (he : r'.elements = r.elements) : NamesOk r' := by
  unfold NamesOk
  rw [he]
  exact h

theorem NamesOk.tail (h : NamesOk r) (he : r'.elements = r.elements.tail) : NamesOk r' := by
  intro name hname
  rw [he] at hname
  exact h name (List.mem_of_mem_tail hname)

theorem keepsNames_literal (lit : Str) (withSpace : Bool) (newState : ParseState) :
    KeepsNames (literal lit withSpace newState) := by
  intro r r' b h hn
  unfold literal at h
  repeat' split at h
  all_goals
    cases h
    exact hn.of_elements rfl

theorem keepsNames_character (d : UInt8) (newState : ParseState) :
    KeepsNames (character d newState) := by
  intro r r' b h hn
  unfold character at h
  repeat' split at h
  all_goals
    cases h
    exact hn.of_elements rfl

theorem skipSpaceLoop_elements {store : Bool} {buf : Str}
    (h : skipSpaceLoop store buf r = .ok r') : r'.elements = r.elements := by
  induction buf generalizing r with
  | nil =>
    cases h
    rfl
  | cons d buf ih =>
    rw [skipSpaceLoop] at h
    split at h
    · split at h
      · split at h
        · cases h
        · exact (ih h).trans rfl
      · exact (ih h).trans rfl
    · cases h
      rfl

theorem keepsNames_skipSpace (store : Bool) : KeepsNames (skipSpace store) := by
  intro r r' b h hn
  unfold skipSpace at h
  split at h
  · cases h
    exact hn
  · split at h
    · cases h
    · next q hq =>
      cases h
      exact hn.of_elements (skipSpaceLoop_elements hq)

theorem keepsNames_spaceOrError (message : String) : KeepsNames (spaceOrError message) := by
  intro r r' b h hn
  unfold spaceOrError at h
  split at h
  · cases h
  · exact keepsNames_skipSpace false h hn

theorem keepsNames_fail (message : String) : KeepsNames (fail message) := by
  intro r r' b h hn
  cases h

theorem not_space_of_nameStart {d : UInt8} (h : isNameStartChar d = true) : isSpace d = false := by
  rw [Bool.eq_false_iff]
  intro hd
  rw [not_nameStart_of_space hd] at h
  cases h

theorem keepsNames_element : KeepsNames element := by
  intro r r' b h hn
  unfold element at h
  dsimp only at h
  split at h
  · cases h
    exact hn
  split at h
  · next hstart =>
    split at h
    · cases h
    · cases h
      rw [Bool.and_eq_true] at hstart
      intro name hname
      rcases List.mem_cons.mp hname with rfl | hname
      · exact ⟨_, [], rfl, not_space_of_nameStart hstart.2⟩
      · exact hn name hname
  · cases h
    exact hn

theorem keepsNames_elementName : KeepsNames elementName := by
  intro r r' b h hn
  have happ : ∀ {q : SimpleXMLReader} {piece : Str}, r.appendElement piece = .ok q → NamesOk q := by
    intro q piece hq
    cases helems : r.elements with
    | nil =>
      rw [appendElement_nil helems] at hq
      cases hq
      exact hn
    | cons top rest =>
      rw [appendElement_cons helems] at hq
      split at hq
      · cases hq
      · cases hq
        intro name hname
        rcases List.mem_cons.mp hname with rfl | hname
        · obtain ⟨d, rest', rfl, hd⟩ := hn top (helems ▸ List.mem_cons_self ..)
          exact ⟨d, rest' ++ piece, rfl, hd⟩
        · exact hn name (helems ▸ List.mem_cons_of_mem _ hname)
  unfold elementName readName at h
  dsimp only at h
  split at h
  · split at h
    · cases h
    · next q hq =>
      cases h
      exact (happ hq).of_elements rfl
  · split at h
    · cases h
      exact hn
    · next f hf =>
      split at h
      · cases h
      · next q hq =>
        cases h
        refine (happ hq).of_elements ?_
        unfold elementNameStop at hf
        repeat' split at hf
        all_goals
          cases hf
          try rfl

theorem keepsNames_elementAttr : KeepsNames elementAttr := by
  intro r r' b h hn
  unfold elementAttr at h
  dsimp only at h
  repeat' split at h
  all_goals
    cases h
    try exact hn.of_elements rfl

theorem keepsNames_elementAttrName : KeepsNames elementAttrName := by
  intro r r' b h hn
  have happ : ∀ {q : SimpleXMLReader} {piece : Str}, r.appendAttrName piece = .ok q →
      NamesOk q := by
    intro q piece hq
    unfold appendAttrName at hq
    repeat' split at hq
    all_goals
      cases hq
      try exact hn.of_elements rfl
  unfold elementAttrName readName at h
  dsimp only at h
  split at h
  · split at h
    · cases h
    · next q hq =>
      cases h
      exact (happ hq).of_elements rfl
  · split at h
    · cases h
      exact hn
    · next f hf =>
      split at h
      · cases h
      · next q hq =>
        cases h
        refine (happ hq).of_elements ?_
        unfold elementAttrNameStop at hf
        repeat' split at hf
        all_goals
          cases hf
          try rfl

theorem setAttrValue_elements (value : Str) : (r.setAttrValue value).elements = r.elements := by
  unfold setAttrValue
  split
  · rfl
  · rfl

theorem appendAttrValue_elements {piece : Str} (h : r.appendAttrValue piece = .ok r') :
    r'.elements = r.elements := by
  cases hattr : r.attribs with
  | nil =>
    rw [appendAttrValue_nil hattr] at h
    cases h
    rfl
  | cons attrib attribs =>
    obtain ⟨name, value⟩ := attrib
    rw [appendAttrValue_cons hattr] at h
    split at h
    · cases h
    · cases h
      rfl

theorem entref_elements {d d' : Str} {b : Bool} (h : r.entref d = .ok (b, d', r')) :
    r'.elements = r.elements := by
  rcases entref_cases h with ⟨rfl, -⟩ | ⟨-, s, n, -, -, -, rfl⟩
  · rfl
  · rfl

theorem keepsNames_elementAttrValue : KeepsNames (elementAttrValue opts) := by
  intro r r' b h hn
  unfold elementAttrValue at h
  dsimp only at h
  split at h
  · cases h
  next q hq =>
  have hnq := hn.of_elements (appendAttrValue_elements hq)
  split at h
  · cases h
    exact hnq
  split at h
  · split at h
    · cases h
    · cases h
      exact hnq.of_elements (setAttrValue_elements _)
  · split at h
    · cases h
    · next b' value p hp =>
      cases h
      exact hnq.of_elements ((setAttrValue_elements _).trans (entref_elements hp))

theorem keepsNames_elementEndSimple : KeepsNames elementEndSimple := by
  intro r r' b h hn
  unfold elementEndSimple at h
  repeat' split at h
  · cases h
    exact hn
  · cases h
    exact hn.tail rfl
  · cases h
    exact hn

theorem keepsNames_elementEndComplex : KeepsNames elementEndComplex := by
  intro r r' b h hn
  unfold elementEndComplex at h
  repeat' split at h
  all_goals
    cases h
    exact hn.of_elements rfl

theorem keepsNames_elementEnd : KeepsNames elementEnd := by
  intro r r' b h hn
  unfold elementEnd at h
  repeat' split at h
  all_goals
    cases h
    exact hn.of_elements rfl

theorem keepsNames_elementEndEnd : KeepsNames elementEndEnd := by
  intro r r' b h hn
  unfold elementEndEnd at h
  repeat' split at h
  · cases h
    exact hn
  · cases h
    exact hn.tail rfl
  · cases h
    exact hn

theorem keepsNames_declVersionNum : KeepsNames declVersionNum := by
  intro r r' b h hn
  unfold declVersionNum at h
  dsimp only at h
  repeat' split at h
  all_goals
    cases h
    exact hn.of_elements rfl

theorem commentLoop_elements (buf : Str) : (commentLoop buf r).elements = r.elements := by
  induction buf generalizing r with
  | nil => rfl
  | cons d buf ih =>
    rw [commentLoop]
    repeat' split
    · rfl
    · rfl
    · exact ih
    · exact ih

theorem keepsNames_comment : KeepsNames comment := by
  intro r r' b h hn
  cases h
  exact hn.of_elements (commentLoop_elements r.buf)

theorem cdataLoop_elements {buf : Str} (h : cdataLoop buf r = .ok r') :
    r'.elements = r.elements := by
  induction buf generalizing r with
  | nil =>
    cases h
    rfl
  | cons d buf ih =>
    rw [cdataLoop] at h
    repeat' split at h
    · cases h
      rfl
    · cases h
      rfl
    · cases h
    · exact (ih h).trans rfl

theorem keepsNames_cdata : KeepsNames cdata := by
  intro r r' b h hn
  unfold cdata at h
  split at h
  · cases h
  · next q hq =>
    cases h
    exact hn.of_elements (cdataLoop_elements hq)

theorem keepsNames_content : KeepsNames content := by
  intro r r' b h hn
  unfold content at h
  dsimp only at h
  split at h
  · cases h
    exact hn
  split at h
  · split at h
    · cases h
    · next b' value q hq =>
      cases h
      have helems : q.elements = r.elements := entref_elements hq
      exact hn.of_elements helems
  · split at h
    · cases h
    · cases h
      exact hn.of_elements rfl

theorem keepsNames_actions (state : ParseState) : ∀ a ∈ actions opts state, KeepsNames a := by
  cases state <;>
    simp [actions, keepsNames_literal, keepsNames_character, keepsNames_skipSpace,
      keepsNames_spaceOrError, keepsNames_fail, keepsNames_element, keepsNames_elementName,
      keepsNames_elementAttr, keepsNames_elementAttrName, keepsNames_elementAttrValue,
      keepsNames_elementEndSimple, keepsNames_elementEndComplex, keepsNames_elementEnd,
      keepsNames_elementEndEnd, keepsNames_declVersionNum, keepsNames_comment, keepsNames_cdata,
      keepsNames_content]

theorem firstOf_namesOk {as : List Action} (has : ∀ a ∈ as, KeepsNames a)
    (h : firstOf as r = .ok r') (hn : NamesOk r) : NamesOk r' := by
  induction as generalizing r with
  | nil =>
    cases h
    exact hn
  | cons a as ih =>
    rw [firstOf] at h
    cases ha : a r with
    | error e => rw [ha] at h; cases h
    | ok x =>
      obtain ⟨b, q⟩ := x
      rw [ha] at h
      have hq : NamesOk q := has a (List.mem_cons_self ..) ha hn
      cases b with
      | true =>
        cases h
        exact hq
      | false => exact ih (fun b hb => has b (List.mem_cons_of_mem a hb)) h hq

/-- The loop of the encoding value does not touch the stack. -/
theorem declEncodingValue_elements {b : Bool}
    (h : declEncodingValue opts r = some (.ok (b, r'))) : r'.elements = r.elements := by
  refine Loop.Returns.induct (P := fun q => q.elements = r.elements)
    (Q := fun x => ∀ b q, x = .ok (b, q) → q.elements = r.elements) ?_ ?_
    (declEncodingValue_eq_some_iff.mp h) rfl b r' rfl
  · intro s t hs hnext
    unfold Loop.Next declEncodingBody at hnext
    repeat' split at hnext
    all_goals try (cases hnext; done)
    · next hent =>
      cases hnext
      exact (entref_elements hent).trans hs
    · cases hnext
      exact hs
  · intro s x hs hret b q hx
    rw [hx] at hret
    unfold declEncodingBody at hret
    repeat' split at hret
    all_goals try (cases hret; done)
    · cases hret
      exact hs
    · cases hret
      exact hs
    · next hent =>
      cases hret
      exact (entref_elements hent).trans hs

theorem transition_namesOk (h : transition opts r = some (.ok r')) (hn : NamesOk r) :
    NamesOk r' := by
  unfold transition at h
  split at h
  · obtain ⟨x, hx, hfirst⟩ := Option.map_eq_some_iff.mp h
    rw [firstOf] at hfirst
    cases x with
    | error e => cases hfirst
    | ok y =>
      obtain ⟨b, q⟩ := y
      have hq : NamesOk q := hn.of_elements (declEncodingValue_elements hx)
      cases b with
      | true =>
        cases hfirst
        exact hq
      | false => exact firstOf_namesOk (keepsNames_actions _) hfirst hq
  · exact firstOf_namesOk (keepsNames_actions _) (Option.some.inj h) hn

/-- A round of `process` keeps the names. -/
theorem processBody_namesOk (h : Loop.Next (processBody opts) r r') (hn : NamesOk r) :
    NamesOk r' := by
  obtain ⟨q, ht, -, hf⟩ := processBody_next h
  have hq := transition_namesOk ht hn
  unfold flush at hf
  split at hf
  · split at hf
    · cases hf
    · cases hf
      exact hq.of_elements rfl
  · cases hf
    exact hq

end SimpleXMLReader
end Airdcpp
