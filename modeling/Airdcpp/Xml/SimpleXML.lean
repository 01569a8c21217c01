import Airdcpp.Xml.SimpleXMLReader

/-!
# `Xml/SimpleXML` — the tree of tags

A document as a tree, how it is written, and how the callbacks of the reader build it again. A
`Tag` has no pointer to its parent. The reader of the tree has one tag, `cur`, into which data and
children go, and its parents beside it: every one of them without the child in which `cur` is, which
is put back when the tag ends.
-/

namespace Airdcpp
namespace SimpleXML

open SimpleXMLReader (Options Result QUOT APOS AMP)

/-! ## Escaping -/

/-- The characters that are not written as they are. -/
def escapedChars (aAttrib : Bool) : Str :=
  if aAttrib then [chr '<', AMP, chr '>', APOS, QUOT] else [chr '<', AMP, chr '>']

/-- `switch(aString[i])` -/
def replacement (c : UInt8) : Str :=
  if c == chr '<' then str "&lt;"
  else if c == AMP then str "&amp;"
  else if c == chr '>' then str "&gt;"
  else if c == APOS then str "&apos;"
  else str "&quot;"

/-- `escape` of what is written: the search goes on behind every replacement. -/
def escape (aAttrib : Bool) : Str → Str
  | [] => []
  | c :: s => (if c ∈ escapedChars aAttrib then replacement c else [c]) ++ escape aAttrib s

def needsEscape (aString : Str) (aAttrib : Bool) : Bool :=
  aString.any (· ∈ escapedChars aAttrib)

/-! ## Tags -/

structure Tag where
  name : Str
  attribs : List (Str × Str) := []
  data : Str := []
  children : List Tag := []
  forceEndTag : Bool := false

namespace Tag

/-- One round of the loop of `appendAttribString`. -/
def appendAttrib (tmp : Str) (attrib : Str × Str) : Str :=
  tmp ++ attrib.1 ++ str "=\"" ++
    (if needsEscape attrib.2 true then escape true attrib.2 else attrib.2) ++ str "\" "

/-- `appendAttribString`: a space is there already in front of the first attribute, and the one
    behind the last is taken away again; without attributes, that in front. -/
def appendAttribString (attribs : List (Str × Str)) (tmp : Str) : Str :=
  (attribs.foldl appendAttrib tmp).dropLast

/-- The text in front of the end of the start tag. -/
def startText (indent : Nat) (name : Str) (attribs : List (Str × Str)) : Str :=
  appendAttribString attribs (List.replicate indent (chr '\t') ++ [chr '<'] ++ name ++ [chr ' '])

mutual

def toXML (indent : Nat) : Tag → Str
  | ⟨name, attribs, data, children, forceEndTag⟩ =>
    if children.isEmpty && data.isEmpty && !forceEndTag then
      startText indent name attribs ++ str "/>\r\n"
    else
      startText indent name attribs ++
        (if children.isEmpty then
          str ">" ++ (if needsEscape data false then escape false data else data)
        else
          str ">\r\n" ++ childrenToXML (indent + 1) children ++
            List.replicate indent (chr '\t')) ++
        str "</" ++ name ++ str ">\r\n"

def childrenToXML (indent : Nat) : List Tag → Str
  | [] => []
  | child :: children => child.toXML indent ++ childrenToXML indent children

end

end Tag

/-! ## Building the tree -/

/-- The tag that is being read and the tags it is in, the innermost first. -/
structure TagReader where
  parents : List Tag
  cur : Tag

def Tag.addChild (tag child : Tag) : Tag := { tag with children := tag.children ++ [child] }

namespace TagReader

def startTag (t : TagReader) (name : Str) (attribs : List (Str × Str)) (simple : Bool) :
    TagReader :=
  if simple then { t with cur := t.cur.addChild { name, attribs } }
  else { parents := t.cur :: t.parents, cur := { name, attribs } }

def data (t : TagReader) (data : Str) : TagReader :=
  { t with cur := { t.cur with data := t.cur.data ++ data } }

def endTag (t : TagReader) : Result TagReader :=
  match t.parents with
  | [] => .error { errorString := str "Invalid end tag" }
  | parent :: parents => .ok { parents, cur := parent.addChild t.cur }

/-- One call of the `CallBack`. -/
def callBack (t : TagReader) : Event → Result TagReader
  | .startTag name attribs simple => .ok (t.startTag name attribs simple)
  | .data data => .ok (t.data data)
  | .endTag _ => t.endTag

def run (t : TagReader) : List Event → Result TagReader
  | [] => .ok t
  | event :: events =>
    match t.callBack event with
    | .error e => .error e
    | .ok t => t.run events

/-- The tree, with every tag in its parent. -/
def root (t : TagReader) : Tag := t.parents.foldl (fun child parent => parent.addChild child) t.cur

end TagReader

/-- The bogus root tag. -/
def bogusRoot : Tag := { name := str "BOGUSROOT" }

/-- `toXML` of the whole document, whose root tag is the only child of the bogus one. -/
def toXML (root : Tag) : Str :=
  match root.children with
  | [] => []
  | child :: _ => child.toXML 0

/-- `fromXML`. The callbacks are made after the reader is through here: when both of them throw,
    the exception is the reader's. -/
def fromXML (opts : Options) (aXML : Str) : Option (Result Tag) :=
  (SimpleXMLReader.parse opts {} aXML).map fun result =>
    match result with
    | .error e => .error e
    | .ok (_, r) =>
      match TagReader.run { parents := [], cur := bogusRoot } r.events with
      | .error e => .error e
      | .ok t =>
        if t.root.children.length ≠ 1 then
          .error { errorString := str "Invalid XML file, missing or multiple root tags" }
        else .ok t.root

end SimpleXML
end Airdcpp
