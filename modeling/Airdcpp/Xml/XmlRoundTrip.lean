import Airdcpp.Xml.ReaderRuns

/-!
# `Xml/XmlRoundTrip` — what is written is read again

The text of a tag, between the tabs in front of it and the end of its line (`text`), the callbacks
the reader makes of it (`tagEvents`), and the tag that is built from these (`readBack`). The tag has
white space for its data when there are children in it, and is the tag that was written otherwise.
-/

namespace Airdcpp
namespace SimpleXML

open SimpleXMLReader

variable {opts : Options}

/-- A line end and the tabs of the next line. -/
def lineEnd (indent : Nat) : Str := chr '\r' :: chr '\n' :: List.replicate indent (chr '\t')

/-- The attributes, each behind a space. -/
def attrText : List (Str × Str) → Str
  | [] => []
  | (name, value) :: attribs =>
    chr ' ' :: (name ++ str "=\"" ++ (escape true value ++ QUOT :: attrText attribs))

namespace Tag

mutual

/-- The tag without the tabs in front and the line end behind. -/
def text (indent : Nat) : Tag → Str
  | ⟨name, attribs, data, children, forceEndTag⟩ =>
    if children.isEmpty && data.isEmpty && !forceEndTag then
      chr '<' :: (name ++ (attrText attribs ++ str "/>"))
    else
      chr '<' :: (name ++ (attrText attribs ++ chr '>' ::
        ((if children.isEmpty then escape false data
          else childrenText (indent + 1) children ++ lineEnd indent) ++
          (str "</" ++ name ++ [chr '>']))))

def childrenText (indent : Nat) : List Tag → Str
  | [] => []
  | child :: children => lineEnd indent ++ (child.text indent ++ childrenText indent children)

end

/-! ## The text that is written -/

theorem escape_of_needsEscape (aAttrib : Bool) (s : Str) :
    (if needsEscape s aAttrib then escape aAttrib s else s) = escape aAttrib s := by
  split
  · rfl
  · next h =>
    refine (escape_of_plain fun c hc hmem => h ?_).symm
    rw [needsEscape, List.any_eq_true]
    exact ⟨c, hc, decide_eq_true hmem⟩

theorem appendAttribString_eq (attribs : List (Str × Str)) (tmp : Str) :
    appendAttribString attribs (tmp ++ [chr ' ']) = tmp ++ attrText attribs := by
  have hloop : ∀ tmp : Str, attribs.foldl appendAttrib (tmp ++ [chr ' ']) =
      tmp ++ attrText attribs ++ [chr ' '] := by
    induction attribs with
    | nil =>
      intro tmp
      rw [List.foldl_nil, attrText, List.append_nil]
    | cons attrib attribs ih =>
      intro tmp
      obtain ⟨name, value⟩ := attrib
      have hspace : str "\" " = [QUOT] ++ [chr ' '] := by rfl
      rw [List.foldl_cons, appendAttrib, escape_of_needsEscape, hspace, ← List.append_assoc, ih,
        attrText]
      simp only [List.append_assoc, List.cons_append, List.nil_append]
  rw [appendAttribString, hloop, List.dropLast_concat]

theorem startText_eq (indent : Nat) (name : Str) (attribs : List (Str × Str)) :
    startText indent name attribs =
      List.replicate indent (chr '\t') ++ chr '<' :: (name ++ attrText attribs) := by
  rw [startText, appendAttribString_eq]
  simp only [List.append_assoc, List.cons_append, List.nil_append]

mutual

theorem toXML_eq (indent : Nat) : ∀ t : Tag,
    t.toXML indent = List.replicate indent (chr '\t') ++ (t.text indent ++ str "\r\n")
  | ⟨name, attribs, data, children, forceEndTag⟩ => by
    rw [toXML, text, startText_eq, escape_of_needsEscape]
    split
    · have hend : str "/>\r\n" = str "/>" ++ str "\r\n" := by rfl
      rw [hend]
      simp only [List.append_assoc, List.cons_append]
    · have hend : str ">\r\n" = chr '>' :: str "\r\n" := by rfl
      have hclose : str ">" = [chr '>'] := by rfl
      have hline : lineEnd indent = str "\r\n" ++ List.replicate indent (chr '\t') := by rfl
      rw [hend, hclose, hline]
      split
      · simp only [List.append_assoc, List.cons_append, List.nil_append]
      · have hchildren := childrenToXML_eq (indent + 1) children
        simp only [List.append_assoc, List.cons_append, List.nil_append] at hchildren ⊢
        rw [← List.append_assoc (str "\r\n") (childrenToXML _ _), hchildren]
        simp only [List.append_assoc]

/-- Line ends in front of the children, or behind them. -/
theorem childrenToXML_eq (indent : Nat) : ∀ children : List Tag,
    str "\r\n" ++ childrenToXML indent children = childrenText indent children ++ str "\r\n"
  | [] => by rw [childrenToXML, childrenText, List.append_nil, List.nil_append]
  | child :: children => by
    have hline : lineEnd indent = str "\r\n" ++ List.replicate indent (chr '\t') := by rfl
    rw [childrenToXML, childrenText, toXML_eq indent child, hline]
    simp only [List.append_assoc]
    rw [childrenToXML_eq indent children]

end

/-! ## Reading a start tag -/

section StartTag

variable {d : UInt8} {tail rest : Str} {elements : List Str} {events : List Event}

/-- The name of a tag is stored behind its first letter. -/
theorem isName_tail (h : IsName (d :: tail)) :
    (∀ x ∈ tail, isNameChar x = true) ∧ [d].length + tail.length ≤ MAX_NAME_SIZE := by
  constructor
  · exact fun x hx => h.chars x (List.mem_cons_of_mem d hx)
  · rw [List.length_singleton, Nat.add_comm]
    exact h.length

/-- What the reader can take for an attribute. -/
def IsAttrib (attrib : Str × Str) : Prop :=
  IsName attrib.1 ∧ attrib.2.length ≤ MAX_VALUE_SIZE ∧ Text.IsUtf8 attrib.2

theorem IsAttrib.reaches {name value : Str} {attribs : List (Str × Str)}
    (h : IsAttrib (name, value)) (hrest : 2 ≤ rest.length) :
    Reaches opts
      { buf := name ++ str "=\"" ++ (escape true value ++ QUOT :: rest), state := .elementAttr,
        attribs, elements, events }
      { buf := rest, state := .elementAttr, attribs := (name, value) :: attribs, elements,
        events } :=
  reaches_attr h.1 h.2.1 (Text.validateUtf8_of_isUtf8 h.2.2) hrest

theorem not_space_of_isName {name : Str} (h : IsName name) :
    ∃ d tail, name = d :: tail ∧ isSpace d = false := by
  obtain ⟨d, tail, rfl, hd⟩ := h.start
  exact ⟨d, tail, rfl, not_space_of_nameStart hd⟩

theorem attrText_cons {name value : Str} {attribs : List (Str × Str)} :
    attrText ((name, value) :: attribs) ++ rest = chr ' ' :: (name ++ str "=\"" ++
      (escape true value ++ QUOT :: (attrText attribs ++ rest))) := by
  rw [attrText]
  simp only [List.append_assoc, List.cons_append]

theorem reaches_attribs {attribs acc : List (Str × Str)} (h : ∀ a ∈ attribs, IsAttrib a)
    (hrest : 2 ≤ rest.length) :
    Reaches opts
      { buf := attrText attribs ++ rest, state := .elementAttr, attribs := acc, elements, events }
      { buf := rest, state := .elementAttr, attribs := attribs.reverse ++ acc, elements,
        events } := by
  induction attribs generalizing acc with
  | nil => exact Reaches.refl _
  | cons attrib attribs ih =>
    obtain ⟨name, value⟩ := attrib
    have hattrib := h (name, value) (List.mem_cons_self ..)
    have hisName : IsName name := hattrib.1
    obtain ⟨c, name', hname, hc⟩ := not_space_of_isName hisName
    have hspace : Reaches opts
        { buf := chr ' ' :: (name ++ str "=\"" ++
            (escape true value ++ QUOT :: (attrText attribs ++ rest))),
          state := .elementAttr, attribs := acc, elements, events }
        { buf := name ++ str "=\"" ++
            (escape true value ++ QUOT :: (attrText attribs ++ rest)),
          state := .elementAttr, attribs := acc, elements, events } := by
      rw [hname]
      exact reaches_attrSpace hc
    have hmore : 2 ≤ (attrText attribs ++ rest).length := by
      rw [List.length_append]
      exact Nat.le_add_left_of_le hrest
    rw [attrText_cons, List.reverse_cons, List.append_assoc attribs.reverse,
      List.singleton_append]
    refine (hspace.trans (hattrib.reaches hmore)).trans ?_
    exact ih fun a ha => h a (List.mem_cons_of_mem _ ha)

variable {attribs : List (Str × Str)} (hname : IsName (d :: tail))
  (hattribs : ∀ a ∈ attribs, IsAttrib a)

include hname hattribs

/-- From the name of a tag behind its first letter to what is behind the attributes. -/
theorem reaches_behind_attribs (hne : attribs ≠ []) (hrest : 2 ≤ rest.length) :
    Reaches opts
      { buf := tail ++ (attrText attribs ++ rest), state := .elementName,
        elements := [d] :: elements, events }
      { buf := rest, state := .elementAttr, attribs := attribs.reverse,
        elements := (d :: tail) :: elements, events } := by
  cases attribs with
  | nil => exact absurd rfl hne
  | cons attrib attribs =>
    obtain ⟨name, value⟩ := attrib
    obtain ⟨htail, hlen⟩ := isName_tail hname
    have hattrib := hattribs (name, value) (List.mem_cons_self ..)
    have hmore : 2 ≤ (attrText attribs ++ rest).length := by
      rw [List.length_append]
      exact Nat.le_add_left_of_le hrest
    rw [attrText_cons, List.reverse_cons]
    refine ((reaches_elementName_space htail hlen).trans (hattrib.reaches hmore)).trans ?_
    exact reaches_attribs (fun a ha => hattribs a (List.mem_cons_of_mem _ ha)) hrest

theorem reaches_simple :
    Reaches opts
      { buf := tail ++ (attrText attribs ++ (str "/>" ++ rest)), state := .elementName,
        elements := [d] :: elements, events }
      { buf := rest, state := .content, elements,
        events := events ++ [.startTag (d :: tail) attribs true] } := by
  have hend : str "/>" ++ rest = chr '/' :: chr '>' :: rest := by rfl
  rw [hend]
  by_cases hnil : attribs = []
  · obtain ⟨htail, hlen⟩ := isName_tail hname
    rw [hnil]
    exact (reaches_elementName_slash htail hlen).trans reaches_simple_end
  · refine (reaches_behind_attribs hname hattribs hnil (Nat.le_add_left 2 _)).trans ?_
    refine reaches_attr_slash.trans ?_
    have hevent : Event.startTag (d :: tail) attribs true =
        .startTag (d :: tail) attribs.reverse.reverse true := by rw [List.reverse_reverse]
    rw [hevent]
    exact reaches_simple_end

theorem reaches_complex (hrest : rest ≠ []) :
    Reaches opts
      { buf := tail ++ (attrText attribs ++ chr '>' :: rest), state := .elementName,
        elements := [d] :: elements, events }
      { buf := rest, state := .content, elements := (d :: tail) :: elements,
        events := events ++ [.startTag (d :: tail) attribs false] } := by
  by_cases hnil : attribs = []
  · obtain ⟨htail, hlen⟩ := isName_tail hname
    rw [hnil]
    exact reaches_elementName_end htail hlen
  · have hmore : 2 ≤ (chr '>' :: rest).length := by
      rw [List.length_cons]
      exact Nat.succ_le_succ (List.length_pos_iff.mpr hrest)
    refine (reaches_behind_attribs hname hattribs hnil hmore).trans ?_
    have hevent : Event.startTag (d :: tail) attribs false =
        .startTag (d :: tail) attribs.reverse.reverse false := by rw [List.reverse_reverse]
    rw [hevent]
    exact reaches_attr_end

end StartTag

/-! ## Reading a tag -/

mutual

/-- The tags that the reader takes for what they are. The data of a tag with children is not
    written. -/
def WellFormed : Tag → Prop
  | ⟨name, attribs, data, children, _⟩ =>
    IsName name ∧ (∀ a ∈ attribs, IsAttrib a) ∧
      (children = [] → data.length ≤ MAX_VALUE_SIZE ∧ Text.IsUtf8 data) ∧
      childrenWellFormed children

def childrenWellFormed : List Tag → Prop
  | [] => True
  | child :: children => child.WellFormed ∧ childrenWellFormed children

end

mutual

/-- How many tags are inside of each other below the tag. -/
def depth : Tag → Nat
  | ⟨_, _, _, children, _⟩ => childrenDepth children

def childrenDepth : List Tag → Nat
  | [] => 0
  | child :: children => max (child.depth + 1) (childrenDepth children)

end

mutual

/-- The callbacks that are made for a tag. -/
def tagEvents (indent : Nat) : Tag → List Event
  | ⟨name, attribs, data, children, forceEndTag⟩ =>
    if children.isEmpty && data.isEmpty && !forceEndTag then [.startTag name attribs true]
    else
      .startTag name attribs false ::
        ((if children.isEmpty then dataEvents data
          else childrenEvents (indent + 1) children ++ [.data (lineEnd indent)]) ++
          [.endTag name])

def childrenEvents (indent : Nat) : List Tag → List Event
  | [] => []
  | child :: children =>
    .data (lineEnd indent) :: (child.tagEvents indent ++ childrenEvents indent children)

end

theorem lineEnd_space {indent : Nat} : ∀ c ∈ lineEnd indent, isSpace c = true := by
  intro c hc
  rcases List.mem_cons.mp hc with rfl | hc
  · rfl
  rcases List.mem_cons.mp hc with rfl | hc
  · rfl
  · rw [List.eq_of_mem_replicate hc]
    rfl

theorem lineEnd_isUtf8 (indent : Nat) : Text.IsUtf8 (lineEnd indent) := by
  refine ⟨'\r' :: '\n' :: List.replicate indent '\t', ?_⟩
  have htabs : (List.replicate indent '\t').flatMap String.utf8EncodeChar =
      List.replicate indent (chr '\t') := by
    induction indent with
    | zero => rfl
    | succ n ih =>
      rw [List.replicate_succ, List.flatMap_cons, ih]
      rfl
  rw [List.flatMap_cons, List.flatMap_cons, htabs]
  rfl

theorem dataEvents_lineEnd (indent : Nat) :
    dataEvents (lineEnd indent) = [.data (lineEnd indent)] :=
  if_neg (List.cons_ne_nil _ _)

theorem lineEnd_length (indent : Nat) : (lineEnd indent).length = indent + 2 := by
  rw [lineEnd, List.length_cons, List.length_cons, List.length_replicate]

/-- White space between two tags, and the next tag. -/
theorem reaches_lineEnd {indent : Nat} {d : UInt8} {rest : Str} {elements : List Str}
    {events : List Event} (hindent : indent ≤ MAX_NESTING) (hd : isNameStartChar d = true)
    (hnest : elements.length < MAX_NESTING) :
    Reaches opts
      { buf := lineEnd indent ++ chr '<' :: d :: rest, state := .content, elements, events }
      { buf := rest, state := .elementName, elements := [d] :: elements,
        events := events ++ [.data (lineEnd indent)] } := by
  have hlen : ([] : Str).length + (lineEnd indent).length ≤ MAX_VALUE_SIZE := by
    rw [lineEnd_length, List.length_nil]
    exact Nat.le_trans (by omega) (show 0 + (MAX_NESTING + 2) ≤ MAX_VALUE_SIZE by decide)
  rw [← dataEvents_lineEnd]
  refine (reaches_whiteSpace lineEnd_space (by rfl) hlen).trans ?_
  exact reaches_element hd hnest (Text.validateUtf8_of_isUtf8 (lineEnd_isUtf8 indent))

theorem reaches_lineEnd_endTag {indent : Nat} {top rest : Str} {elements : List Str}
    {events : List Event} (hindent : indent ≤ MAX_NESTING) (htop : top ≠ []) :
    Reaches opts
      { buf := lineEnd indent ++ chr '<' :: chr '/' :: (top ++ chr '>' :: rest),
        state := .content, elements := top :: elements, events }
      { buf := rest, state := .content, elements,
        events := events ++ [.data (lineEnd indent)] ++ [.endTag top] } := by
  have hlen : ([] : Str).length + (lineEnd indent).length ≤ MAX_VALUE_SIZE := by
    rw [lineEnd_length, List.length_nil]
    exact Nat.le_trans (by omega) (show 0 + (MAX_NESTING + 2) ≤ MAX_VALUE_SIZE by decide)
  rw [← dataEvents_lineEnd]
  refine (reaches_whiteSpace lineEnd_space (by rfl) hlen).trans ?_
  exact reaches_endTag htop (Text.validateUtf8_of_isUtf8 (lineEnd_isUtf8 indent))

theorem text_head {t : Tag} (h : t.WellFormed) (indent : Nat) :
    ∃ d tail, t.text indent = chr '<' :: d :: tail ∧ isNameStartChar d = true := by
  obtain ⟨name, attribs, data, children, forceEndTag⟩ := t
  rw [WellFormed] at h
  obtain ⟨d, tail, rfl, hd⟩ := h.1.start
  rw [text]
  split
  · exact ⟨d, _, rfl, hd⟩
  · exact ⟨d, _, rfl, hd⟩

mutual

/-- **A tag is read behind the first letter of its name**, and the callbacks are those of the
    tag. -/
theorem reaches_tag (indent : Nat) : ∀ (t : Tag) {d : UInt8} {tail rest : Str}
    {elements : List Str} {events : List Event}, t.WellFormed →
    elements.length + t.depth < MAX_NESTING → indent + t.depth < MAX_NESTING →
    t.text indent = chr '<' :: d :: tail →
    Reaches opts
      { buf := tail ++ rest, state := .elementName, elements := [d] :: elements, events }
      { buf := rest, state := .content, elements, events := events ++ t.tagEvents indent }
  | ⟨name, attribs, data, children, forceEndTag⟩, d, tail, rest, elements, events => by
    intro hw hnest hindent htext
    rw [WellFormed] at hw
    obtain ⟨hname, hattribs, hdata, hchildren⟩ := hw
    obtain ⟨d', name', rfl, hd⟩ := hname.start
    rw [depth] at hnest hindent
    have hclose : str "</" = [chr '<', chr '/'] := by rfl
    rw [text] at htext
    rw [tagEvents]
    split at htext
    · next hsimple =>
      rw [List.cons_append, List.cons.injEq, List.cons.injEq] at htext
      obtain ⟨-, rfl, rfl⟩ := htext
      rw [if_pos hsimple]
      have hbuf : name' ++ (attrText attribs ++ str "/>") ++ rest =
          name' ++ (attrText attribs ++ (str "/>" ++ rest)) := by
        simp only [List.append_assoc]
      rw [hbuf]
      exact reaches_simple hname hattribs
    · next hsimple =>
      rw [List.cons_append, List.cons.injEq, List.cons.injEq] at htext
      obtain ⟨-, rfl, rfl⟩ := htext
      rw [if_neg hsimple]
      cases children with
      | nil =>
        obtain ⟨hlen, hutf8⟩ := hdata rfl
        have hbuf : name' ++ (attrText attribs ++ chr '>' :: (escape false data ++
            (str "</" ++ d' :: name' ++ [chr '>']))) ++ rest =
            name' ++ (attrText attribs ++ chr '>' :: (escape false data ++
              chr '<' :: chr '/' :: (d' :: name' ++ chr '>' :: rest))) := by
          rw [hclose]
          simp only [List.append_assoc, List.cons_append, List.nil_append]
        have hevents : events ++ .startTag (d' :: name') attribs false ::
            (dataEvents data ++ [.endTag (d' :: name')]) =
            events ++ [.startTag (d' :: name') attribs false] ++ dataEvents data ++
              [.endTag (d' :: name')] := by
          simp only [List.append_assoc, List.cons_append, List.nil_append]
        dsimp only [List.isEmpty_nil]
        rw [if_pos rfl, if_pos rfl, hbuf, hevents]
        refine (reaches_complex hname hattribs ?_).trans ?_
        · exact List.append_ne_nil_of_right_ne_nil _ (List.cons_ne_nil _ _)
        refine (reaches_data ?_ ?_).trans ?_
        · rw [List.length_nil, Nat.zero_add]
          exact hlen
        · simp only [List.length_cons, List.length_append]
          omega
        rw [List.nil_append]
        exact reaches_endTag (List.cons_ne_nil d' name') (Text.validateUtf8_of_isUtf8 hutf8)
      | cons child children =>
        dsimp only [List.isEmpty_cons]
        rw [if_neg Bool.false_ne_true, if_neg Bool.false_ne_true]
        have hbuf : name' ++ (attrText attribs ++ chr '>' ::
            (childrenText (indent + 1) (child :: children) ++ lineEnd indent ++
              (str "</" ++ d' :: name' ++ [chr '>']))) ++ rest =
            name' ++ (attrText attribs ++ chr '>' ::
              (childrenText (indent + 1) (child :: children) ++ (lineEnd indent ++
                chr '<' :: chr '/' :: (d' :: name' ++ chr '>' :: rest)))) := by
          rw [hclose]
          simp only [List.append_assoc, List.cons_append, List.nil_append]
        have hevents : events ++ .startTag (d' :: name') attribs false ::
            (childrenEvents (indent + 1) (child :: children) ++ [.data (lineEnd indent)] ++
              [.endTag (d' :: name')]) =
            events ++ [.startTag (d' :: name') attribs false] ++
              childrenEvents (indent + 1) (child :: children) ++ [.data (lineEnd indent)] ++
              [.endTag (d' :: name')] := by
          simp only [List.append_assoc, List.cons_append, List.nil_append]
        rw [hbuf, hevents]
        refine (reaches_complex hname hattribs ?_).trans ?_
        · exact List.append_ne_nil_of_right_ne_nil _ (List.cons_ne_nil _ _)
        refine (reaches_children (indent + 1) (child :: children) hchildren ?_ ?_).trans ?_
        · rw [List.length_cons]
          omega
        · omega
        exact reaches_lineEnd_endTag (by omega) (List.cons_ne_nil d' name')

theorem reaches_children (indent : Nat) : ∀ (children : List Tag) {rest : Str}
    {elements : List Str} {events : List Event}, childrenWellFormed children →
    elements.length + childrenDepth children ≤ MAX_NESTING →
    indent + childrenDepth children ≤ MAX_NESTING →
    Reaches opts
      { buf := childrenText indent children ++ rest, state := .content, elements, events }
      { buf := rest, state := .content, elements,
        events := events ++ childrenEvents indent children }
  | [], rest, elements, events => by
    intro _ _ _
    rw [childrenText, childrenEvents, List.nil_append, List.append_nil]
    exact Reaches.refl _
  | child :: children, rest, elements, events => by
    intro hw hnest hindent
    rw [childrenWellFormed] at hw
    rw [childrenDepth] at hnest hindent
    obtain ⟨d, tail, htext, hd⟩ := text_head hw.1 indent
    have hbuf : childrenText indent (child :: children) ++ rest =
        lineEnd indent ++ chr '<' :: d :: (tail ++ (childrenText indent children ++ rest)) := by
      rw [childrenText, htext]
      simp only [List.append_assoc, List.cons_append]
    have hevents : events ++ childrenEvents indent (child :: children) =
        events ++ [.data (lineEnd indent)] ++ child.tagEvents indent ++
          childrenEvents indent children := by
      rw [childrenEvents]
      simp only [List.append_assoc, List.cons_append, List.nil_append]
    rw [hbuf, hevents]
    refine (reaches_lineEnd (by omega) hd (by omega)).trans ?_
    refine (reaches_tag indent child hw.1 (by omega) (by omega) htext).trans ?_
    exact reaches_children indent children hw.2 (by omega) (by omega)

end

/-! ## The tree that is built -/

mutual

/-- The tag that is built from the callbacks for `t`. -/
def readBack (indent : Nat) : Tag → Tag
  | ⟨name, attribs, data, children, _⟩ =>
    { name, attribs
      data := if children.isEmpty then data
        else childrenData (indent + 1) children ++ lineEnd indent
      children := childrenReadBack (indent + 1) children }

def childrenReadBack (indent : Nat) : List Tag → List Tag
  | [] => []
  | child :: children => child.readBack indent :: childrenReadBack indent children

/-- The white space between the children. -/
def childrenData (indent : Nat) : List Tag → Str
  | [] => []
  | _ :: children => lineEnd indent ++ childrenData indent children

end

mutual

/-- The same names, attributes and children, and the same data where there are no children. -/
def SameTag : Tag → Tag → Prop
  | ⟨name, attribs, data, children, _⟩, t =>
    t.name = name ∧ t.attribs = attribs ∧ (children = [] → t.data = data) ∧
      sameChildren children t.children

def sameChildren : List Tag → List Tag → Prop
  | [], [] => True
  | child :: children, child' :: children' => child.SameTag child' ∧ sameChildren children children'
  | _, _ => False

end

mutual

theorem sameTag_readBack (indent : Nat) : ∀ t : Tag, t.SameTag (t.readBack indent)
  | ⟨name, attribs, data, children, forceEndTag⟩ => by
    rw [readBack, SameTag]
    refine ⟨rfl, rfl, fun hnil => ?_, sameChildren_readBack (indent + 1) children⟩
    rw [hnil]
    rfl

theorem sameChildren_readBack (indent : Nat) : ∀ children : List Tag,
    sameChildren children (childrenReadBack indent children)
  | [] => by
    rw [childrenReadBack, sameChildren]
    trivial
  | child :: children => by
    rw [childrenReadBack, sameChildren]
    exact ⟨sameTag_readBack indent child, sameChildren_readBack indent children⟩

end

end Tag

namespace TagReader

variable {events : List Event}

theorem run_append {t t' : TagReader} {events' : List Event} (h : t.run events = .ok t') :
    t.run (events ++ events') = t'.run events' := by
  induction events generalizing t with
  | nil =>
    cases h
    rfl
  | cons event events ih =>
    rw [run] at h
    rw [List.cons_append, run]
    cases hc : t.callBack event with
    | error e =>
      rw [hc] at h
      cases h
    | ok u =>
      rw [hc] at h
      exact ih h

theorem run_dataEvents (t : TagReader) (data : Str) :
    t.run (dataEvents data) = .ok (t.data data) := by
  unfold dataEvents
  split
  · next hnil =>
    obtain ⟨parents, cur⟩ := t
    cases cur
    rw [hnil, TagReader.data, List.append_nil]
    rfl
  · rfl

mutual

/-- **The callbacks for a tag put the tag into the current one.** -/
theorem run_tag (indent : Nat) : ∀ (t : Tag) (parents : List Tag) (cur : Tag),
    run { parents, cur } (t.tagEvents indent) =
      .ok { parents, cur := cur.addChild (t.readBack indent) }
  | ⟨name, attribs, data, children, forceEndTag⟩, parents, cur => by
    rw [Tag.tagEvents, Tag.readBack]
    split
    · next hsimple =>
      simp only [Bool.and_eq_true, List.isEmpty_iff] at hsimple
      obtain ⟨⟨rfl, rfl⟩, -⟩ := hsimple
      rfl
    · have hstart : ∀ events : List Event,
          run { parents, cur } (.startTag name attribs false :: events) =
            run { parents := cur :: parents, cur := { name, attribs } } events := fun _ => rfl
      rw [hstart]
      cases children with
      | nil =>
        dsimp only [List.isEmpty_nil]
        rw [if_pos rfl, run_append (run_dataEvents _ data), if_pos rfl, Tag.childrenReadBack]
        rfl
      | cons child children =>
        dsimp only [List.isEmpty_cons]
        rw [if_neg Bool.false_ne_true, if_neg Bool.false_ne_true, List.append_assoc,
          run_append (run_children (indent + 1) (child :: children) (cur :: parents) _)]
        rfl

theorem run_children (indent : Nat) : ∀ (children : List Tag) (parents : List Tag) (cur : Tag),
    run { parents, cur } (Tag.childrenEvents indent children) =
      .ok { parents
            cur := { cur with
              data := cur.data ++ Tag.childrenData indent children
              children := cur.children ++ Tag.childrenReadBack indent children } }
  | [], parents, cur => by
    cases cur
    rw [Tag.childrenEvents, Tag.childrenData, Tag.childrenReadBack, List.append_nil,
      List.append_nil]
    rfl
  | child :: children, parents, cur => by
    have hdata : run { parents, cur } (Tag.childrenEvents indent (child :: children)) =
        run { parents, cur := { cur with data := cur.data ++ lineEnd indent } }
          (child.tagEvents indent ++ Tag.childrenEvents indent children) := by
      rw [Tag.childrenEvents]
      rfl
    rw [hdata, run_append (run_tag indent child parents _), run_children indent children]
    unfold Tag.addChild
    rw [Tag.childrenData, Tag.childrenReadBack]
    simp only [List.append_assoc, List.cons_append, List.nil_append]

end

end TagReader

/-! ## The whole document -/

/-- At the end of the document its last line end is left. -/
theorem returns_behind_root (opts : Options) (elements : List Str) (events : List Event)
    (pos : Nat) :
    ∃ r, r.events = events ∧ Loop.Returns (processBody opts)
      { buf := str "\r\n", pos, state := .content, elements, events } (.ok (true, r)) := by
  have hspace : Loop.Next (processBody opts)
      { buf := str "\r\n", pos, state := .content, elements, events }
      { buf := [], pos := pos + 2, value := str "\r\n", state := .content, elements,
        events } := by
    refine next_of_transition (by simp) ?ht ?hprogress (flush_of_state rfl)
    case ht => rfl
    case hprogress =>
      intro hstill
      have hpos : pos + 2 = pos := hstill.2
      omega
  refine ⟨{ pos := pos + 2, value := str "\r\n", state := .content, elements, events }, rfl, ?_⟩
  rw [Loop.returns_iff_of_next hspace]
  exact Loop.returns_of_return (processBody_of_wait (by simp) rfl)

/-- The root tag is read at the start of the document. -/
theorem returns_root (opts : Options) {t : Tag} (hw : t.WellFormed)
    (hdepth : t.depth < MAX_NESTING) :
    ∃ r, r.events = t.tagEvents 0 ∧
      SimpleXMLReader.parse opts {} (t.toXML 0) = some (.ok (true, r)) := by
  obtain ⟨d, tail, htext, hd⟩ := Tag.text_head hw 0
  have hxml : t.toXML 0 = chr '<' :: d :: (tail ++ str "\r\n") := by
    rw [Tag.toXML_eq, htext]
    rfl
  have hreach : Reaches opts
      { buf := chr '<' :: d :: (tail ++ str "\r\n"), state := .start }
      { buf := str "\r\n", state := .content, events := t.tagEvents 0 } := by
    refine (reaches_element_start hd (by decide)).trans ?_
    exact Tag.reaches_tag 0 t hw (by rwa [List.length_nil, Nat.zero_add])
      (by rwa [Nat.zero_add]) htext
  obtain ⟨pos, hsteps⟩ := hreach 0
  obtain ⟨r, hr, hreturns⟩ := returns_behind_root opts [] (t.tagEvents 0) pos
  refine ⟨r, hr, ?_⟩
  rw [hxml, SimpleXMLReader.parse, process_eq_some_iff]
  exact (Loop.returns_iff_of_steps hsteps).mpr hreturns

/-- **A document that is written is read again**: the tags in the same order and nesting, with the
    same attributes, and the same data where there are no other tags in them. -/
theorem fromXML_toXML (opts : Options) (t : Tag) (hw : t.WellFormed) (hdepth : t.depth ≤ 31) :
    ∃ root t', fromXML opts (toXML (bogusRoot.addChild t)) = some (.ok root) ∧
      root.children = [t'] ∧ t.SameTag t' := by
  obtain ⟨r, hr, hparse⟩ := returns_root opts hw (Nat.lt_succ_of_le hdepth)
  have hrun := TagReader.run_tag 0 t [] bogusRoot
  have hxml : toXML (bogusRoot.addChild t) = t.toXML 0 := rfl
  refine ⟨bogusRoot.addChild (t.readBack 0), t.readBack 0, ?_, rfl, Tag.sameTag_readBack 0 t⟩
  rw [hxml, fromXML, hparse, Option.map_some]
  dsimp only
  rw [hr, hrun]
  rfl

/-- A tag with an attribute that is all markup, and data that ends in white space. -/
def sampleTag : Tag :=
  { name := str "a"
    attribs := [(str "b", str "<\"&amp;'> "), (str "b", [])]
    children :=
      [{ name := str "c.1", data := "  \r\n&lt; é ".toList.flatMap String.utf8EncodeChar },
        { name := str ":d", forceEndTag := true }, { name := str "e" }] }

theorem sampleTag_wellFormed : sampleTag.WellFormed := by
  have hname : ∀ d rest, isNameStartChar d = true → (d :: rest).all isNameChar = true →
      decide ((d :: rest).length ≤ MAX_NAME_SIZE) = true → IsName (d :: rest) :=
    fun d rest hd hchars hlen =>
      ⟨⟨d, rest, rfl, hd⟩, List.all_eq_true.mp hchars, of_decide_eq_true hlen⟩
  simp only [sampleTag, Tag.WellFormed, Tag.childrenWellFormed, List.forall_mem_cons]
  refine ⟨hname _ _ rfl rfl rfl, ?attribs, ?data, ?c, ?d, ?e, trivial⟩
  case attribs =>
    refine ⟨⟨hname _ _ rfl rfl rfl, by decide, ?_⟩,
      ⟨hname _ _ rfl rfl rfl, by decide, ⟨[], rfl⟩⟩, by simp⟩
    exact ⟨"<\"&amp;'> ".toList, by decide⟩
  case data =>
    intro h
    cases h
  case c =>
    refine ⟨hname _ _ rfl rfl rfl, by simp, fun _ => ⟨by decide, ?_⟩,
      trivial⟩
    exact ⟨_, rfl⟩
  case d =>
    exact ⟨hname _ _ rfl rfl rfl, by simp,
      fun _ => ⟨by decide, ⟨[], rfl⟩⟩, trivial⟩
  case e =>
    exact ⟨hname _ _ rfl rfl rfl, by simp,
      fun _ => ⟨by decide, ⟨[], rfl⟩⟩, trivial⟩

/-- It is read again. -/
theorem fromXML_toXML_sampleTag :
    ∃ root t', fromXML asciiOptions (toXML (bogusRoot.addChild sampleTag)) = some (.ok root) ∧
      root.children = [t'] ∧ sampleTag.SameTag t' :=
  fromXML_toXML asciiOptions sampleTag sampleTag_wellFormed (by decide)

end SimpleXML
end Airdcpp
