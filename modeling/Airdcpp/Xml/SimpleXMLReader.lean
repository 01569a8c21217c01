import Airdcpp.Core.Text
import Airdcpp.Lib.Loop

/-!
# `Xml/SimpleXMLReader` — the incremental XML reader

The reader is fed its document in pieces. `process` runs over the bytes that are there: in every
state some functions are tried one after the other, and the first that answers `true` has dealt
with the input: it has consumed something, or it waits for more. The answer `true` without a
change of state or position is what ends the loop.

`buf` is the buffer from `bufPos` on (the bytes in front of it are not looked at again), and
behind it stands the null byte of a `std::string`. The callbacks are recorded in the order they
are made (`events`): the reader learns nothing from them. The stack `elements` and the list
`attribs` have their last entry first.
-/

namespace Airdcpp

inductive ParseState
  | start
  | declVersion
  | declVersionEq
  | declVersionNum
  | declEncoding
  | declEncodingEq
  | declEncodingName
  | declEncodingNameApos
  | declEncodingNameQuot
  | declStandalone
  | declStandaloneEq
  | declStandaloneYes
  | declEnd
  | elementName
  | elementAttr
  | elementAttrName
  | elementAttrEq
  | elementAttrValue
  | elementAttrValueQuot
  | elementAttrValueApos
  | elementEndSimple
  | elementEnd
  | elementEndEnd
  | comment
  | content
  | cdata
  | «end»
deriving DecidableEq, Repr

/-- A call of the `CallBack`. -/
inductive Event
  | startTag (name : Str) (attribs : List (Str × Str)) (simple : Bool)
  | data (data : Str)
  | endTag (name : Str)
deriving DecidableEq, Repr

structure SimpleXMLReader where
  buf : Str := []
  pos : Nat := 0
  attribs : List (Str × Str) := []
  value : Str := []
  encoding : Str := []
  state : ParseState := .start
  elements : List Str := []
  events : List Event := []
deriving DecidableEq, Repr

namespace SimpleXMLReader

def MAX_NAME_SIZE : Nat := 1024
def MAX_VALUE_SIZE : Nat := 96 * 1024
def MAX_NESTING : Nat := 32

/-- Replace invalid UTF-8 data with placeholder characters. -/
def FLAG_REPLACE_INVALID_UTF8 : MaskType := 0x01

/-- What a reader is made with. -/
structure Options where
  locale : Locale
  flags : MaskType := 0

/-! ## Characters -/

def isSpace (c : UInt8) : Bool := c == 0x20 || c == 0x09 || c == 0x0d || c == 0x0a

def inRange (c a b : UInt8) : Bool := decide (a ≤ c) && decide (c ≤ b)

def isNameStartChar (c : UInt8) : Bool :=
  c == chr ':' || inRange c (chr 'A') (chr 'Z') || c == chr '_' || inRange c (chr 'a') (chr 'z')

def isNameChar (c : UInt8) : Bool :=
  isNameStartChar c || c == chr '-' || c == chr '.' || inRange c (chr '0') (chr '9')

def isdigit (c : UInt8) : Bool := inRange c (chr '0') (chr '9')

def isxdigit (c : UInt8) : Bool :=
  isdigit c || inRange c (chr 'a') (chr 'f') || inRange c (chr 'A') (chr 'F')

def APOS : UInt8 := 39
def QUOT : UInt8 := 34
def AMP : UInt8 := 38

/-! ## The buffer -/

/-- Behind the end of the buffer there is a null byte. -/
def charAt (r : SimpleXMLReader) (n : Nat) : UInt8 := r.buf.getD n 0

def bufSize (r : SimpleXMLReader) : Nat := r.buf.length

def needChars (r : SimpleXMLReader) (n : Nat) : Bool := decide (n ≤ r.bufSize)

def advancePos (r : SimpleXMLReader) (n : Nat) : SimpleXMLReader :=
  { r with buf := r.buf.drop n, pos := r.pos + n }

abbrev Result (α : Type) := Except Exception α

/-- A function that answers whether it knew what to do with the input. -/
abbrev Action := SimpleXMLReader → Result (Bool × SimpleXMLReader)

/-- The exception `error` throws. -/
def error (r : SimpleXMLReader) (e : String) : Exception :=
  { errorString := str (toString r.pos ++ ": " ++ e) }

def append (r : SimpleXMLReader) (s : Str) (maxLen : Nat) (c : UInt8) : Result Str :=
  if maxLen < s.length then .error (r.error "Buffer overflow") else .ok (s ++ [c])

/-- `append` of a piece of the buffer. -/
def appendRange (r : SimpleXMLReader) (s : Str) (maxLen : Nat) (piece : Str) : Result Str :=
  if maxLen < s.length + piece.length then .error (r.error "Buffer overflow") else .ok (s ++ piece)

/-- What `sanitizeUtf8` makes of a string. Where it ends the program, nothing is read any more. -/
def sanitized (r : SimpleXMLReader) (s : Str) : Result Str :=
  match Text.sanitizeUtf8 s with
  | some s => .ok s
  | none => .error (r.error "basic_string::insert")

def decodeString (opts : Options) (r : SimpleXMLReader) (s : Str) : Result Str :=
  let isUtf8 := r.encoding.isEmpty || r.encoding == Text.utf8
  if !isUtf8 then .ok (Text.toUtf8 opts.locale s r.encoding)
  else if !Text.validateUtf8 s then
    if isSet opts.flags FLAG_REPLACE_INVALID_UTF8 then r.sanitized s
    else .error (r.error "Malformed UTF-8 data")
  else .ok s

/-! ## Literals and single characters -/

/-- No byte that is there differs from the literal. -/
def literalMatches : (lit buf : Str) → Bool
  | l :: lit, c :: buf => c == l && literalMatches lit buf
  | _, _ => true

def literal (lit : Str) (withSpace : Bool) (newState : ParseState) : Action := fun r =>
  if !literalMatches lit r.buf then .ok (false, r)
  else if lit.length ≤ r.bufSize then
    if withSpace then
      if r.bufSize = lit.length then .ok (true, r)
      else if !isSpace (r.charAt lit.length) then .ok (false, r)
      else .ok (true, { r.advancePos (lit.length + 1) with state := newState })
    else .ok (true, { r.advancePos lit.length with state := newState })
  else .ok (true, r)

def character (c : UInt8) (newState : ParseState) : Action := fun r =>
  if !r.needChars 1 then .ok (true, r)
  else if r.charAt 0 == c then .ok (true, { r.advancePos 1 with state := newState })
  else .ok (false, r)

/-- The loop of `skipSpace`; its first argument is the buffer. -/
def skipSpaceLoop (store : Bool) : Str → SimpleXMLReader → Result SimpleXMLReader
  | c :: buf, r =>
    if isSpace c then
      if store then
        match r.append r.value MAX_VALUE_SIZE c with
        | .error e => .error e
        | .ok value => skipSpaceLoop store buf { r.advancePos 1 with value }
      else skipSpaceLoop store buf (r.advancePos 1)
    else .ok r
  | [], r => .ok r

def skipSpace (store : Bool) : Action := fun r =>
  if !r.needChars 1 then .ok (true, r)
  else
    match skipSpaceLoop store r.buf r with
    | .error e => .error e
    | .ok r' => .ok (isSpace (r.charAt 0), r')

def spaceOrError (message : String) : Action := fun r =>
  match skipSpace false r with
  | .ok (false, r') => .error (r'.error message)
  | x => x

/-- `|| error(message)` -/
def fail (message : String) : Action := fun r => .error (r.error message)

/-! ## References -/

/-- `&#` and `n` decimal digits. -/
def isDecimalRef (buf : Str) (n : Nat) : Bool :=
  buf.getD 1 0 == chr '#' && (List.range n).all (fun i => isdigit (buf.getD (2 + i) 0)) &&
    buf.getD (2 + n) 0 == chr ';'

/-- `&#x` and `n` hexadecimal digits. -/
def isHexRef (buf : Str) (n : Nat) : Bool :=
  buf.getD 1 0 == chr '#' && (buf.getD 2 0 == chr 'x' || buf.getD 2 0 == chr 'X') &&
    (List.range n).all (fun i => isxdigit (buf.getD (3 + i) 0)) && buf.getD (3 + n) 0 == chr ';'

/-- The reference the buffer begins with: what it stands for, and its length. Numeric ones stand
    for nothing: they are ignored to avoid an error. -/
def reference (buf : Str) : Option (Str × Nat) :=
  if (str "lt;").isPrefixOf (buf.drop 1) then some (str "<", 4)
  else if (str "gt;").isPrefixOf (buf.drop 1) then some (str ">", 4)
  else if (str "amp;").isPrefixOf (buf.drop 1) then some (str "&", 5)
  else if (str "quot;").isPrefixOf (buf.drop 1) then some ([QUOT], 6)
  else if (str "apos;").isPrefixOf (buf.drop 1) then some ([APOS], 6)
  else if isDecimalRef buf 1 then some ([], 4)
  else if isDecimalRef buf 2 then some ([], 5)
  else if isDecimalRef buf 3 then some ([], 6)
  else if isDecimalRef buf 4 then some ([], 7)
  else if isDecimalRef buf 5 then some ([], 8)
  else if isHexRef buf 1 then some ([], 5)
  else if isHexRef buf 2 then some ([], 6)
  else if isHexRef buf 3 then some ([], 7)
  else if isHexRef buf 4 then some ([], 8)
  else none

/-- `entref`: the answer, the string with what the reference stands for, and the reader behind
    the reference. -/
def entref (r : SimpleXMLReader) (d : Str) : Result (Bool × Str × SimpleXMLReader) :=
  if MAX_VALUE_SIZE < d.length then .error (r.error "Buffer overflow")
  else if 6 < r.bufSize then
    match reference r.buf with
    | some (s, n) => .ok (true, d ++ s, r.advancePos n)
    | none => .ok (false, d, r)
  else .ok (true, d, r)

/-! ## The declaration -/

/-- The loop of `declVersionNum` over the characters from the fifth on, with its counter. -/
def declVersionLoop (sep : UInt8) : Str → (n : Nat) → Option (Option Nat)
  | [], _ => some none
  | c :: buf, n =>
    if c == sep then some (some (n + 1))
    else if !inRange c 0 9 then none
    else declVersionLoop sep buf (n + 1)

def declVersionNum : Action := fun r =>
  if !r.needChars 5 then .ok (true, r)
  else
    let sep := r.charAt 0
    if (sep == QUOT || sep == APOS) && r.charAt 1 == chr '1' && r.charAt 2 == chr '.' then
      if !isdigit (r.charAt 3) then .ok (false, r)
      else
        match declVersionLoop sep (r.buf.drop 4) 4 with
        | none => .ok (false, r)
        | some none => .ok (true, r)
        | some (some n) => .ok (true, { r.advancePos n with state := .declEncoding })
    else .ok (false, r)

/-- The quotation mark that ends the value being read. -/
def closing (state : ParseState) (c : UInt8) : Bool :=
  ((state == .declEncodingNameApos || state == .elementAttrValueApos) && c == APOS) ||
    ((state == .declEncodingNameQuot || state == .elementAttrValueQuot) && c == QUOT)

/-- One round of the loop of `declEncodingValue`. -/
def declEncodingBody (opts : Options) (r : SimpleXMLReader) :
    Option (Result (Bool × SimpleXMLReader) ⊕ SimpleXMLReader) :=
  match r.buf with
  | [] => some (.inl (.ok (true, r)))
  | c :: _ =>
    if closing r.state c then
      some (.inl (.ok (true, { r.advancePos 1 with
        encoding := Text.toLower opts.locale r.encoding, state := .declStandalone })))
    else if c == AMP then
      match r.entref r.encoding with
      | .error e => some (.inl (.error e))
      | .ok (false, encoding, r') => some (.inl (.ok (false, { r' with encoding })))
      | .ok (true, encoding, r') => some (.inr { r' with encoding })
    else
      match r.append r.encoding MAX_VALUE_SIZE c with
      | .error e => some (.inl (.error e))
      | .ok encoding => some (.inr { r.advancePos 1 with encoding })

/-- `while(bufSize() > 0)`. Every round consumes a byte or will never consume one, so that the
    length of the buffer bounds the rounds of a loop that ends. -/
def declEncodingValue (opts : Options) (r : SimpleXMLReader) :
    Option (Result (Bool × SimpleXMLReader)) :=
  Loop.run (declEncodingBody opts) (r.bufSize + 1) r

/-! ## Elements -/

def element : Action := fun r =>
  if !r.needChars 2 then .ok (true, r)
  else
    let c := r.charAt 1
    if r.charAt 0 == chr '<' && isNameStartChar c then
      if MAX_NESTING ≤ r.elements.length then .error (r.error "Max nesting exceeded")
      else
        match r.append [] MAX_NAME_SIZE c with
        | .error e => .error e
        | .ok name =>
          .ok (true, { r.advancePos 2 with state := .elementName, elements := name :: r.elements })
    else .ok (false, r)

/-- `append(elements.back(), …)`; there is an element in the states that do this. -/
def appendElement (r : SimpleXMLReader) (piece : Str) : Result SimpleXMLReader :=
  match r.elements with
  | [] => .ok r
  | name :: elements =>
    match r.appendRange name MAX_NAME_SIZE piece with
    | .error e => .error e
    | .ok name => .ok { r with elements := name :: elements }

/-- `cb->startTag(elements.back(), attribs, simple)`, and the attributes are done with. -/
def startTag (r : SimpleXMLReader) (simple : Bool) : SimpleXMLReader :=
  { r with
    events := r.events ++ [.startTag (r.elements.headD []) r.attribs.reverse simple]
    attribs := [] }

/-- The functions that read a name: their loop passes over its characters, and `stop` knows what
    to do behind the character that ends it, which is none of them. -/
def readName (appendName : SimpleXMLReader → Str → Result SimpleXMLReader)
    (stop : UInt8 → Option (SimpleXMLReader → SimpleXMLReader)) : Action := fun r =>
  let name := r.buf.takeWhile isNameChar
  match r.buf.drop name.length with
  | [] =>
    match appendName r name with
    | .error e => .error e
    | .ok r => .ok (true, r.advancePos name.length)
  | c :: _ =>
    match stop c with
    | none => .ok (false, r)
    | some f =>
      match appendName r name with
      | .error e => .error e
      | .ok r => .ok (true, (f r).advancePos (name.length + 1))

def elementNameStop (c : UInt8) : Option (SimpleXMLReader → SimpleXMLReader) :=
  if isSpace c then some fun r => { r with state := .elementAttr }
  else if c == chr '/' then some fun r => { r with state := .elementEndSimple }
  else if c == chr '>' then some fun r => { r.startTag false with state := .content }
  else none

def elementName : Action := readName appendElement elementNameStop

def elementAttr : Action := fun r =>
  if !r.needChars 1 then .ok (true, r)
  else
    let c := r.charAt 0
    if isNameStartChar c then
      match r.append [] MAX_NAME_SIZE c with
      | .error e => .error e
      | .ok name =>
        .ok (true, { r.advancePos 1 with
          state := .elementAttrName, attribs := (name, []) :: r.attribs })
    else .ok (false, r)

/-- `append(attribs.back().first, …)`; there is an attribute, too. -/
def appendAttrName (r : SimpleXMLReader) (piece : Str) : Result SimpleXMLReader :=
  match r.attribs with
  | [] => .ok r
  | (name, value) :: attribs =>
    match r.appendRange name MAX_NAME_SIZE piece with
    | .error e => .error e
    | .ok name => .ok { r with attribs := (name, value) :: attribs }

def elementAttrNameStop (c : UInt8) : Option (SimpleXMLReader → SimpleXMLReader) :=
  if isSpace c then some fun r => { r with state := .elementAttrEq }
  else if c == chr '=' then some fun r => { r with state := .elementAttrValue }
  else none

def elementAttrName : Action := readName appendAttrName elementAttrNameStop

/-- `attribs.back().second` -/
def attrValue (r : SimpleXMLReader) : Str :=
  match r.attribs with
  | [] => []
  | (_, value) :: _ => value

def setAttrValue (r : SimpleXMLReader) (value : Str) : SimpleXMLReader :=
  match r.attribs with
  | [] => r
  | (name, _) :: attribs => { r with attribs := (name, value) :: attribs }

/-- `append(attribs.back().second, …)` and `advancePos` over the piece. -/
def appendAttrValue (r : SimpleXMLReader) (piece : Str) : Result SimpleXMLReader :=
  match r.attribs with
  | [] => .ok (r.advancePos piece.length)
  | (name, value) :: attribs =>
    match r.appendRange value MAX_VALUE_SIZE piece with
    | .error e => .error e
    | .ok value => .ok ({ r with attribs := (name, value) :: attribs }.advancePos piece.length)

def elementAttrValue (opts : Options) : Action := fun r =>
  let piece := r.buf.takeWhile fun c => !(closing r.state c || c == AMP)
  match r.appendAttrValue piece with
  | .error e => .error e
  | .ok r' =>
    match r'.buf with
    | [] => .ok (true, r')
    | c :: _ =>
      if closing r'.state c then
        match r.decodeString opts r'.attrValue with
        | .error e => .error e
        | .ok value =>
          .ok (true, { (r'.setAttrValue value).advancePos 1 with state := .elementAttr })
      else
        match r'.entref r'.attrValue with
        | .error e => .error e
        | .ok (b, value, r'') => .ok (b, r''.setAttrValue value)

def elementEndSimple : Action := fun r =>
  if !r.needChars 1 then .ok (true, r)
  else if r.charAt 0 == chr '>' then
    let r := r.startTag true
    .ok (true, { r.advancePos 1 with state := .content, elements := r.elements.tail })
  else .ok (false, r)

def elementEndComplex : Action := fun r =>
  if !r.needChars 1 then .ok (true, r)
  else if r.charAt 0 == chr '>' then
    .ok (true, { (r.startTag false).advancePos 1 with state := .content })
  else .ok (false, r)

def elementEnd : Action := fun r =>
  match r.elements with
  | [] => .ok (false, r)
  | top :: _ =>
    if !r.needChars top.length then .ok (true, r)
    else if r.buf.take top.length == top then
      .ok (true, { r.advancePos top.length with state := .elementEndEnd })
    else .ok (false, r)

def elementEndEnd : Action := fun r =>
  if !r.needChars 1 then .ok (true, r)
  else if r.charAt 0 == chr '>' then
    .ok (true, { r.advancePos 1 with
      state := .content
      events := r.events ++ [.endTag (r.elements.headD [])]
      elements := r.elements.tail })
  else .ok (false, r)

/-! ## Content -/

/-- The loop of `comment`; its first argument is the buffer. -/
def commentLoop : Str → SimpleXMLReader → SimpleXMLReader
  | c :: buf, r =>
    if c == chr '-' then
      if !r.needChars 3 then r
      else if r.charAt 1 == chr '-' && r.charAt 2 == chr '>' then
        { r.advancePos 3 with state := .content }
      else commentLoop buf (r.advancePos 1)
    else commentLoop buf (r.advancePos 1)
  | [], r => r

def comment : Action := fun r => .ok (true, commentLoop r.buf r)

/-- The loop of `cdata`; its first argument is the buffer. -/
def cdataLoop : Str → SimpleXMLReader → Result SimpleXMLReader
  | c :: buf, r =>
    if c == chr ']' && !r.needChars 3 then .ok r
    else if c == chr ']' && r.charAt 1 == chr ']' && r.charAt 2 == chr '>' then
      .ok { r.advancePos 3 with state := .content }
    else
      match r.append r.value MAX_VALUE_SIZE c with
      | .error e => .error e
      | .ok value => cdataLoop buf { r.advancePos 1 with value }
  | [], r => .ok r

def cdata : Action := fun r =>
  match cdataLoop r.buf r with
  | .error e => .error e
  | .ok r => .ok (true, r)

def content : Action := fun r =>
  if !r.needChars 1 then .ok (true, r)
  else
    let c := r.charAt 0
    if c == AMP then
      match r.entref r.value with
      | .error e => .error e
      | .ok (b, value, r') => .ok (b, { r' with value })
    else
      match r.append r.value MAX_VALUE_SIZE c with
      | .error e => .error e
      | .ok value => .ok (true, { r.advancePos 1 with value })

/-! ## `process` -/

/-- `a || b || …`: the functions are called until one answers `true`. -/
def firstOf : List Action → SimpleXMLReader → Result SimpleXMLReader
  | [], r => .ok r
  | a :: as, r =>
    match a r with
    | .error e => .error e
    | .ok (true, r') => .ok r'
    | .ok (false, r') => firstOf as r'

/-- The functions of a state. -/
def actions (opts : Options) : ParseState → List Action
  | .start =>
    [literal [0xef, 0xbb, 0xbf] false .start,  -- Byte order mark
      literal (str "<?xml") true .declVersion, literal (str "<!--") false .comment, element,
      spaceOrError "Expecting XML declaration, element or comment"]
  | .declVersion =>
    [skipSpace false, literal (str "version") false .declVersionEq,
      spaceOrError "Expecting version"]
  | .declVersionEq => [character (chr '=') .declVersionNum, spaceOrError "Expecting ="]
  | .declVersionNum => [declVersionNum, spaceOrError "Expecting version number"]
  | .declEncoding =>
    [literal (str "encoding") false .declEncodingEq,
      literal (str "standalone") false .declStandaloneEq, literal (str "?>") false .content,
      spaceOrError "Expecting encoding | standalone | ?>"]
  | .declEncodingEq => [character (chr '=') .declEncodingName, spaceOrError "Expecting ="]
  | .declEncodingName =>
    [character APOS .declEncodingNameApos, character QUOT .declEncodingNameQuot,
      spaceOrError "Expecting encoding name start"]
  -- behind `declEncodingValue`
  | .declEncodingNameApos => [spaceOrError "Expecting encoding value"]
  | .declEncodingNameQuot => [spaceOrError "Expecting encoding value"]
  | .declStandalone =>
    [literal (str "standalone") false .declStandaloneEq, literal (str "?>") false .content,
      spaceOrError "Expecting standalone | ?>"]
  | .declStandaloneEq => [character (chr '=') .declStandaloneYes, spaceOrError "Expecting ="]
  | .declStandaloneYes =>
    [literal (str "\"yes\"") false .declEnd, literal (str "'yes'") false .declEnd,
      spaceOrError "Expecting standalone=yes"]
  | .declEnd => [literal (str "?>") false .content, spaceOrError "Expecting ?>"]
  | .elementName => [elementName, fail "Error while parsing element start"]
  | .elementEndSimple => [elementEndSimple, fail "Expecting >"]
  | .elementEnd => [elementEnd, spaceOrError "Expecting element end"]
  | .elementEndEnd => [elementEndEnd, spaceOrError "Expecting >"]
  | .elementAttr =>
    [elementAttr, elementEndComplex, character (chr '/') .elementEndSimple,
      spaceOrError "Expecting attribute | /> | >"]
  | .elementAttrName => [elementAttrName, fail "Expecting attribute name"]
  | .elementAttrEq => [character (chr '=') .elementAttrValue, spaceOrError "Expecting attribute ="]
  | .elementAttrValue =>
    [character APOS .elementAttrValueApos, character QUOT .elementAttrValueQuot,
      spaceOrError "Expecting attribute value start"]
  | .elementAttrValueApos => [elementAttrValue opts, fail "Expecting attribute value"]
  | .elementAttrValueQuot => [elementAttrValue opts, fail "Expecting attribute value"]
  | .comment => [comment, fail "Error while parsing comment"]
  | .cdata => [cdata, fail "Error while parsing CDATA"]
  | .content =>
    [skipSpace true, literal (str "<!--") false .comment, literal (str "<![CDATA[") false .cdata,
      element, literal (str "</") false .elementEnd, content,
      fail "Expecting content, element or comment"]
  | .end => []

def inEncodingValue (state : ParseState) : Bool :=
  state == .declEncodingNameApos || state == .declEncodingNameQuot

/-- The `switch`: `none` if the loop of `declEncodingValue` never ends. -/
def transition (opts : Options) (r : SimpleXMLReader) : Option (Result SimpleXMLReader) :=
  if inEncodingValue r.state then
    (declEncodingValue opts r).map fun x => firstOf ((fun _ => x) :: actions opts r.state) r
  else some (firstOf (actions opts r.state) r)

/-- What is left of the content is reported when the state changes. -/
def flush (opts : Options) (oldState : ParseState) (r : SimpleXMLReader) :
    Result SimpleXMLReader :=
  if oldState = .content ∧ r.state ≠ oldState ∧ r.value ≠ [] then
    match r.decodeString opts r.value with
    | .error e => .error e
    | .ok value => .ok { r with events := r.events ++ [.data value], value := [] }
  else .ok r

/-- One round of the loop of `process`. -/
def processBody (opts : Options) (r : SimpleXMLReader) :
    Option (Result (Bool × SimpleXMLReader) ⊕ SimpleXMLReader) :=
  if r.state = .end then some (.inl (.ok (false, { r with buf := [] })))
  else
    match transition opts r with
    | none => none
    | some (.error e) => some (.inl (.error e))
    | some (.ok r') =>
      -- Need more data...
      if r'.state = r.state ∧ r'.pos = r.pos then some (.inl (.ok (true, r')))
      else
        match flush opts r.state r' with
        | .error e => some (.inl (.error e))
        | .ok r'' => some (.inr r'')

/-- `while(true)`. A round that goes on has consumed a byte, but for the end tag of an element
    without a name. -/
def process (opts : Options) (r : SimpleXMLReader) : Option (Result (Bool × SimpleXMLReader)) :=
  Loop.run (processBody opts) (2 * r.bufSize + 2) r

/-- The reader with more data in its buffer. -/
def push (r : SimpleXMLReader) (data : Str) : SimpleXMLReader := { r with buf := r.buf ++ data }

def parse (opts : Options) (r : SimpleXMLReader) (data : Str) :
    Option (Result (Bool × SimpleXMLReader)) :=
  process opts (r.push data)

end SimpleXMLReader
end Airdcpp
