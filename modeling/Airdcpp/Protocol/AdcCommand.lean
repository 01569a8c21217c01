import Airdcpp.Core.Types

/-!
# `Protocol/AdcCommand` — reading and writing ADC commands

An ADC line is a four-byte header (the type and a three-byte name), then tokens behind single
spaces: the SIDs and the feature string its type asks for, then the parameters. A space, a
newline or a backslash of a parameter is written as a two-byte escape, and `parse` undoes the
escapes while it looks for the spaces.

`cmd` shares its memory with `cmdChar`, a C string: the fourth byte of the union ends it, and so
does a null byte of the name itself.
-/

namespace Airdcpp

/-- `dcpp::SID`: the four bytes of the id, in memory order. -/
abbrev SID := UInt32

structure AdcCommand where
  parameters : List Str := []
  features : Str := []
  /-- The first three bytes of the union `cmd` / `cmdChar` / `cmdInt`; the fourth stays zero. -/
  cmd0 : UInt8 := 0
  cmd1 : UInt8 := 0
  cmd2 : UInt8 := 0
  «from» : SID := 0
  «to» : SID := 0
  type : UInt8
deriving DecidableEq, Repr

namespace AdcCommand

def TYPE_BROADCAST : UInt8 := chr 'B'
def TYPE_CLIENT : UInt8 := chr 'C'
def TYPE_DIRECT : UInt8 := chr 'D'
def TYPE_ECHO : UInt8 := chr 'E'
def TYPE_FEATURE : UInt8 := chr 'F'
def TYPE_INFO : UInt8 := chr 'I'
def TYPE_HUB : UInt8 := chr 'H'
def TYPE_UDP : UInt8 := chr 'U'

def HUB_SID : SID := 0xffffffff

def isValidType (aType : UInt8) : Bool :=
  !(aType != TYPE_BROADCAST && aType != TYPE_CLIENT && aType != TYPE_DIRECT && aType != TYPE_ECHO &&
    aType != TYPE_FEATURE && aType != TYPE_INFO && aType != TYPE_HUB && aType != TYPE_UDP)

/-- The types whose header holds the sender's SID. -/
def hasFrom (type : UInt8) : Bool :=
  type == TYPE_BROADCAST || type == TYPE_DIRECT || type == TYPE_ECHO || type == TYPE_FEATURE

/-- The types whose header holds the target's SID. -/
def hasTo (type : UInt8) : Bool := type == TYPE_DIRECT || type == TYPE_ECHO

/-- The four bytes at the beginning of a string, read as a little-endian word. -/
def toSID (aSID : Str) : SID :=
  UInt32.ofNat ((aSID.getD 0 0).toNat + 256 * ((aSID.getD 1 0).toNat +
    256 * ((aSID.getD 2 0).toNat + 256 * (aSID.getD 3 0).toNat)))

def fromSID (aSID : SID) : Str :=
  [aSID.toUInt8, (aSID >>> 8).toUInt8, (aSID >>> 16).toUInt8, (aSID >>> 24).toUInt8]

/-- What `c_str()` leaves of the name: a null byte ends it. -/
def cmdChar (c : AdcCommand) : Str := [c.cmd0, c.cmd1, c.cmd2].takeWhile (· != 0)

/-! ## `parse` -/

def SPACE : UInt8 := chr ' '
def NEWLINE : UInt8 := chr '\n'
def BACKSLASH : UInt8 := 92

/-- `ParseException` -/
def ParseException (aError : String) : Exception := { errorString := str aError }

/-- The locals of `parse`: the command as far as it is read, and which slots of the header are
    filled. -/
structure Parser where
  command : AdcCommand
  fromSet : Bool
  toSet : Bool := false
  featureSet : Bool := false
deriving DecidableEq, Repr

/-- A finished token goes to the first empty slot of the header its type has, or behind the
    parameters. -/
def Parser.addToken (p : Parser) (cur : Str) : Except Exception Parser :=
  if hasFrom p.command.type && !p.fromSet then
    if cur.length ≠ 4 then .error (ParseException "Invalid SID length")
    else .ok { p with command := { p.command with «from» := toSID cur }, fromSet := true }
  else if hasTo p.command.type && !p.toSet then
    if cur.length ≠ 4 then .error (ParseException "Invalid SID length")
    else .ok { p with command := { p.command with «to» := toSID cur }, toSet := true }
  else if p.command.type == TYPE_FEATURE && !p.featureSet then
    if cur.length % 5 ≠ 0 then .error (ParseException "Invalid feature length")
    else .ok { p with featureSet := true }
  else .ok { p with command := { p.command with parameters := p.command.parameters ++ [cur] } }

/-- The byte an escape stands for. -/
def unescape (nmdc : Bool) (c : UInt8) : Option UInt8 :=
  if c == chr 's' then some SPACE
  else if c == chr 'n' then some NEWLINE
  else if c == BACKSLASH then some BACKSLASH
  else if c == SPACE && nmdc then some SPACE  -- `$ADCGET` escaping, leftover from old specs
  else none

/-- The loop over the line: `buf` is what is left of it and `cur` the token being read. At the
    end of the line a token is added only if it has a byte. -/
def parseLoop (nmdc : Bool) : (buf cur : Str) → Parser → Except Exception Parser
  | [], cur, p => if cur.isEmpty then .ok p else p.addToken cur
  | c :: buf, cur, p =>
    if c == BACKSLASH then
      match buf with
      | [] => .error (ParseException "Escape at eol")
      | e :: buf =>
        match unescape nmdc e with
        | some x => parseLoop nmdc buf (cur ++ [x]) p
        | none => .error (ParseException "Unknown escape")
    else if c == SPACE then
      match p.addToken cur with
      | .ok p => parseLoop nmdc buf [] p
      | .error e => .error e
    else parseLoop nmdc buf (cur ++ [c]) p

/-- The checks behind the loop: every slot of the header is filled. -/
def Parser.finish (p : Parser) : Except Exception AdcCommand :=
  if hasFrom p.command.type && !p.fromSet then .error (ParseException "Missing from_sid")
  else if p.command.type == TYPE_FEATURE && !p.featureSet then
    .error (ParseException "Missing feature")
  else if hasTo p.command.type && !p.toSet then .error (ParseException "Missing to_sid")
  else .ok p.command

/-- The command `parse` starts from: the type and the name of the line, and nothing else. -/
def header (type cmd0 cmd1 cmd2 : UInt8) : AdcCommand :=
  { type, cmd0, cmd1, cmd2, «from» := if type == TYPE_INFO then HUB_SID else 0 }

/-- `AdcCommand(aLine, nmdc)` -/
def parse (aLine : Str) (nmdc : Bool) : Except Exception AdcCommand :=
  if aLine.length < (if nmdc then 7 else 4) then .error (ParseException "Too short")
  else
    -- "$ADCxxx ..." or "yxxx ..."
    let i := if nmdc then 4 else 1
    let type := if nmdc then TYPE_CLIENT else aLine.getD 0 0
    if !isValidType type then .error (ParseException "Invalid type")
    else
      let command := header type (aLine.getD i 0) (aLine.getD (i + 1) 0) (aLine.getD (i + 2) 0)
      -- `$ADCxxx` never has a from SID
      match parseLoop nmdc (aLine.drop (i + 4)) [] { command, fromSet := nmdc } with
      | .ok p => p.finish
      | .error e => .error e

/-! ## `toString` -/

/-- `str.find_first_of(" \n\\", i)` -/
def findSpecial (str : Str) (i : Nat) : Option Nat :=
  ((str.drop i).findIdx? fun c => c == SPACE || c == NEWLINE || c == BACKSLASH).map (i + ·)

/-- What `escape` puts in the place of a byte it has found. -/
def escapeChar (old : Bool) (c : UInt8) : Str :=
  if old then [BACKSLASH, c]
  else if c == SPACE then [BACKSLASH, chr 's']
  else if c == NEWLINE then [BACKSLASH, chr 'n']
  else [BACKSLASH, BACKSLASH]

theorem findSpecial_lt {str : Str} {i j : Nat} (h : findSpecial str i = some j) :
    i ≤ j ∧ j < str.length := by
  obtain ⟨k, hk, rfl⟩ := Option.map_eq_some_iff.mp h
  have hlt := (List.findIdx?_eq_some_iff_getElem.mp hk).1
  rw [List.length_drop] at hlt
  omega

@[simp] theorem length_escapeChar (old : Bool) (c : UInt8) : (escapeChar old c).length = 2 := by
  unfold escapeChar
  repeat' split
  all_goals rfl

/-- The loop of `escape`: it edits the string in place and goes on behind the escape. -/
def escapeFrom (old : Bool) (tmp : Str) (i : Nat) : Str :=
  match h : findSpecial tmp i with
  | none => tmp
  | some j =>
    escapeFrom old (tmp.take j ++ escapeChar old (tmp.getD j 0) ++ tmp.drop (j + 1)) (j + 2)
termination_by tmp.length - i
decreasing_by
  obtain ⟨hi, hj⟩ := findSpecial_lt h
  simp only [List.length_append, List.length_take, List.length_drop, length_escapeChar]
  omega

def escape (str : Str) (old : Bool) : Str := escapeFrom old str 0

def getHeaderString (c : AdcCommand) (sid : SID) (nmdc : Bool) : Str :=
  (if nmdc then str "$ADC" else [c.type]) ++ c.cmdChar ++
    (if hasFrom c.type then SPACE :: fromSID sid else []) ++
    (if hasTo c.type then SPACE :: fromSID c.«to» else []) ++
    (if c.type == TYPE_FEATURE then SPACE :: c.features else [])

def getParamString (c : AdcCommand) (nmdc : Bool) : Str :=
  c.parameters.flatMap (fun i => SPACE :: escape i nmdc) ++ [if nmdc then chr '|' else NEWLINE]

/-- `toString(sid, nmdc)` -/
def toString (c : AdcCommand) (sid : SID) (nmdc : Bool) : Str :=
  c.getHeaderString sid nmdc ++ c.getParamString nmdc

/-! ## Named parameters -/

/-- The first parameter of a name from `start` on. -/
def getParam (c : AdcCommand) (name : Str) (start : Nat) : Option Str :=
  ((c.parameters.drop start).find? fun p => p.take 2 == name).map fun p => p.drop 2

def hasFlag (c : AdcCommand) (name : Str) (start : Nat) : Bool :=
  (c.parameters.drop start).any fun p => p == name ++ str "1"

end AdcCommand
end Airdcpp
