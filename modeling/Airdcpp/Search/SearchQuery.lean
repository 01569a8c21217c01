import Airdcpp.Util.Encoder
import Airdcpp.Util.StringSearch

/-!
# `Search/SearchQuery` — what a search asks for, and how names are matched

A query is made from the parameters of a remote search (`ofParams`) or from a search of our own
(`ofString`). Each match of a name against its include patterns leaves the positions in a list that
the next match uses again, and the positions in the names of the directories above are kept in a
`Recursion`.

What C++ gives for a read outside of a string or for the front of an empty vector is undefined;
`OutOfRange` says what the model gives, where `none` ends it. `calls` is no field of the source: it
notes what each call of `StringSearch::matchLower` returned, and the positions it left.
-/

namespace Airdcpp
namespace Matching

/-- `ResultPointsList`: a position, or `npos`, and points for each pattern. -/
abbrev ResultPointsList := List (Option Nat × Int)

structure Recursion where
  depthLen : Nat := 0
  recursionLevel : Int := 0
  positions : ResultPointsList := []
deriving DecidableEq, Repr

/-- `Search::MatchType`, a number of 8 bits -/
abbrev MatchType := Nat

def MATCH_PATH_PARTIAL : MatchType := 0
def MATCH_NAME_PARTIAL : MatchType := 1
def MATCH_NAME_EXACT : MatchType := 2

/-- `ItemType`, any `int` that was cast to it -/
abbrev ItemType := Int

def ItemType.ANY : ItemType := 0
def ItemType.FILE : ItemType := 1
def ItemType.DIRECTORY : ItemType := 2

/-- A call of `StringSearch::matchLower` that has returned. -/
structure Call where
  aText : Str
  aResumeOnNoMatch : Bool
  returned : Nat
  results_ : ResultList
deriving DecidableEq, Repr

structure SearchQuery where
  include_ : StringSearch := {}
  exclude : StringSearch := {}
  ext : List Str := []
  noExt : List Str := []
  recursion : Option Recursion := none
  gt : Int := 0
  lt : Int := 2 ^ 63 - 1
  minDate : Int := 0
  maxDate : Int := 2 ^ 63 - 1
  root : Option TTHValue := none
  matchType : MatchType := MATCH_PATH_PARTIAL
  addParents : Bool := false
  itemType : ItemType := ItemType.ANY
  lastIncludePositions : ResultList := []
  lastIncludeMatches : Nat := 0
  calls : List Call := []

/-- What undefined reads give. -/
structure OutOfRange where
  /-- `aName[i]` where the name has no such byte -/
  byte : Option UInt8
  /-- `front().str()` of an empty list of patterns -/
  front : Option Str

/-- Nothing: the model ends there. -/
def OutOfRange.undefined : OutOfRange := ⟨none, none⟩

/-- Undefined reads give something. -/
structure OutOfRange.Total (u : OutOfRange) : Prop where
  byte : u.byte.isSome
  front : u.front.isSome

/-! ## Making a query -/

/-- `AdcHub::searchExtensions` -/
def searchExtensions : List (List Str) :=
  [["ape", "flac", "m4a", "mid", "mp3", "mpc", "ogg", "ra", "wav", "wma"].map str,
    ["7z", "ace", "arj", "bz2", "gz", "lha", "lzh", "rar", "tar", "z", "zip"].map str,
    ["doc", "docx", "htm", "html", "nfo", "odf", "odp", "ods", "odt", "pdf", "ppt", "pptx", "rtf",
      "txt", "xls", "xlsx", "xml", "xps"].map str,
    ["app", "bat", "cmd", "com", "dll", "exe", "jar", "msi", "ps1", "vbs", "wsf"].map str,
    ["bmp", "cdr", "eps", "gif", "ico", "img", "jpeg", "jpg", "png", "ps", "psd", "sfw", "tga",
    "tif",
      "webp"].map str,
    ["3gp", "asf", "asx", "avi", "divx", "flv", "mkv", "mov", "mp4", "mpeg", "mpg", "ogm", "pxp",
    "qt",
      "rm", "rmvb", "swf", "vob", "webm", "wmv"].map str]

/-- `AdcHub::parseSearchExts`: the lists whose bits are set, each in front of those before. -/
def parseSearchExts (flag : Int) : List Str :=
  searchExtensions.zipIdx.foldl
    (fun ret i => if (flag % 2 ^ 32).toNat.testBit i.2 then i.1 ++ ret else ret) []

namespace SearchQuery

variable (locale : Locale) (u : OutOfRange)

/-- `prepare` -/
def prepare (q : SearchQuery) : SearchQuery :=
  { q with
    lastIncludePositions := List.replicate q.include_.count none
    itemType := if q.ext.isEmpty then q.itemType else ItemType.FILE }

/-- A parameter of more than two bytes. The first two are its name, and codes of other bytes than
    ASCII are no code of a name. -/
def addParam (q : SearchQuery) (p : Str) : SearchQuery :=
  let name := p.take 2
  let value := p.drop 2
  if name = str "AN" then { q with include_ := q.include_.addString locale value }
  else if name = str "NO" then { q with exclude := q.exclude.addString locale value }
  else if name = str "EX" then { q with ext := q.ext ++ [Text.toLower locale value] }
  else if name = str "GR" then { q with ext := parseSearchExts (Util.toInt value) ++ q.ext }
  else if name = str "RX" then { q with noExt := q.noExt ++ [Text.toLower locale value] }
  else if name = str "GE" then { q with gt := Util.toInt64 value }
  else if name = str "LE" then { q with lt := Util.toInt64 value }
  else if name = str "EQ" then { q with lt := Util.toInt64 value, gt := Util.toInt64 value }
  else if name = str "TY" then { q with itemType := Util.toInt value }
  else if name = str "MT" then { q with matchType := (Util.toInt value % 2 ^ 8).toNat }
  else if name = str "OT" then { q with maxDate := Util.toInt64 value }
  else if name = str "NT" then { q with minDate := Util.toInt64 value }
  else if name = str "PP" then { q with addParents := p.getD 2 0 == chr '1' }
  else q

/-- The loop over the parameters. A TTH ends it, and the query is not prepared then. -/
def ofParamsFrom : List Str → SearchQuery → SearchQuery
  | [], q => q.prepare
  | p :: params, q =>
    if p.length ≤ 2 then ofParamsFrom params q
    else if p.take 2 = str "TR" then { q with root := some (TTHValue.ofBase32 (p.drop 2)) }
    else ofParamsFrom params (q.addParam locale p)

/-- `SearchQuery(params, maxResults)` -/
def ofParams (params : List Str) : SearchQuery := ofParamsFrom locale params {}

/-- `SearchQuery(aString, aExcluded, aExt, aMatchType)`. `aString` has been taken apart into
    `inc`. -/
def ofString (inc aExcluded aExt : List Str) (aMatchType : MatchType) : SearchQuery :=
  prepare
    { include_ := inc.foldl (fun s i => s.addString locale i) {}
      exclude := aExcluded.foldl (fun s i => s.addString locale i) {}
      ext := aExt.map (Text.toLower locale)
      matchType := aMatchType }

/-! ## Extensions -/

end SearchQuery

/-- `std::set_difference` -/
def setDifference : List Str → List Str → List Str
  | [], _ => []
  | a :: as, [] => a :: as
  | a :: as, b :: bs =>
    if a < b then a :: setDifference as (b :: bs)
    else if b < a then setDifference (a :: as) bs
    else setDifference as bs
termination_by as bs => as.length + bs.length

/-- `name.compare(name.length() - i.length(), i.length(), i.c_str()) == 0` -/
def endsWith (name i : Str) : Bool :=
  decide (i.length ≤ name.length) && name.drop (name.length - i.length) == i.takeWhile (· != 0)

namespace SearchQuery

variable (locale : Locale) (u : OutOfRange)

/-- The difference is written over `ext`, in front of where it is read. -/
def hasExt (q : SearchQuery) (name : Str) : Bool × SearchQuery :=
  if q.ext.isEmpty then (true, q)
  else
    let q' :=
      if q.noExt.isEmpty then q else { q with ext := setDifference q.ext q.noExt, noExt := [] }
    (q'.ext.any (endsWith name), q')

/-! ## Positions and points -/

/-- `aName[i]` -/
def readName (aName : Str) (i : Nat) : Option UInt8 := aName[i]?.or u.byte

/-- `Text::isSeparator`; bytes from 128 on are negative characters. -/
def isSeparator (c : UInt8) : Bool :=
  (32 ≤ c && c ≤ 47) || (58 ≤ c && c ≤ 64) || (91 ≤ c && c ≤ 96) || (123 ≤ c && c ≤ 127)

/-- The points for a separator at the side of a match. The pattern ends with `c` there. -/
def separatorPoints (aName : Str) (c : UInt8) (i : Nat) : Option Int :=
  if isSeparator c then some 0 else (readName u aName i).map fun d =>
    if isSeparator d then 10 else 0

/-- The points for a match at `pos`. -/
def pointsAt (p : StringSearch.Pattern) (aName : Str) (pos : Nat) : Option Int :=
  (if pos = 0 then some 20 else separatorPoints u aName (p.pattern.headD 0) (pos - 1)).bind
    fun before =>
    (if pos + p.size = aName.length then some 20
      else separatorPoints u aName (p.pattern.getLastD 0) (pos + p.size)).map (before + ·)

/-- `toPointList` -/
def toPointList (q : SearchQuery) (aName : Str) : Option ResultPointsList :=
  (q.include_.patterns.zip q.lastIncludePositions).mapM fun i =>
    i.2.elim (some (none, 0)) fun pos => (pointsAt u i.1 aName pos).map fun points =>
      (some pos, points)

end SearchQuery

namespace Recursion

def increase (r : Recursion) (aLen : Nat) : Recursion :=
  { r with recursionLevel := r.recursionLevel + 1, depthLen := r.depthLen + aLen }

def decrease (r : Recursion) (aLen : Nat) : Recursion :=
  { r with recursionLevel := r.recursionLevel - 1, depthLen := subSizeT r.depthLen aLen }

/-- The first position that only the parent has. -/
def startPos (mergeTo old : ResultPointsList) : Option Nat :=
  (List.range old.length).find? fun j =>
    (mergeTo.getD j default).1.isNone && (old.getD j default).1.isSome

/-- `merge`: the merged list, and whether anything from the parent's was needed. -/
def merge (mergeTo : ResultPointsList) (parent : Recursion) : ResultPointsList × Bool :=
  (startPos mergeTo parent.positions).elim (mergeTo, false) fun start =>
    (mergeTo.mapIdx fun j m =>
      if start ≤ j ∧ j < parent.positions.length then
        if m.1.isNone then parent.positions.getD j default
        else (m.1.map (· + parent.depthLen), m.2)
      else m, true)

/-- `completes` -/
def completes (r : Recursion) (compareTo : ResultList) : Bool :=
  r.positions.zipIdx.all fun i => i.1.1.isSome || (compareTo.getD i.2 none).isSome

def isComplete (r : Recursion) : Bool := r.positions.all fun i => i.1.isSome

end Recursion

namespace SearchQuery

variable (locale : Locale) (u : OutOfRange)

/-- `Recursion(aSearch, aName)` -/
def newRecursion (q : SearchQuery) (aName : Str) : Option Recursion :=
  (q.toPointList u aName).map fun positions =>
    q.recursion.elim { positions := positions } fun parent =>
      let merged := Recursion.merge positions parent
      if merged.2 then
        { positions := merged.1, depthLen := parent.depthLen,
          recursionLevel := parent.recursionLevel }
      else { positions := merged.1 }

/-- `getResultPositions` -/
def getResultPositions (q : SearchQuery) (aName : Str) : Option ResultPointsList :=
  (q.toPointList u aName).map fun ret =>
    q.recursion.elim ret fun r =>
      if none ∈ q.lastIncludePositions then (Recursion.merge ret r).1 else ret

def positionsComplete (q : SearchQuery) : Bool :=
  q.lastIncludeMatches == q.include_.count ||
    q.recursion.any fun r => r.completes q.lastIncludePositions

/-! ## Matching -/

def resetPositions (q : SearchQuery) : SearchQuery :=
  if 0 < q.lastIncludeMatches then
    { q with
      lastIncludePositions := List.replicate q.lastIncludePositions.length none
      lastIncludeMatches := 0 }
  else q

/-- `resetPositions`, and `lastIncludeMatches = include.matchLower(.., &lastIncludePositions)` -/
def matchInclude (q : SearchQuery) (aText : Str) (aResumeOnNoMatch : Bool) : Option SearchQuery :=
  (q.include_.matchLower aText aResumeOnNoMatch q.resetPositions.lastIncludePositions).map fun r =>
    { q with
      lastIncludeMatches := r.1
      lastIncludePositions := r.2
      calls := q.calls ++ [⟨aText, aResumeOnNoMatch, r.1, r.2⟩] }

def matchesSize (q : SearchQuery) (aSize : Int) :
    Bool := decide (q.gt ≤ aSize) && decide (aSize ≤ q.lt)

def matchesDate (q : SearchQuery) (aDate : Int) : Bool :=
  aDate == 0 || decide (q.minDate ≤ aDate) && decide (aDate ≤ q.maxDate)

def isExcludedLower (q : SearchQuery) (aName : Str) : Option Bool := q.exclude.match_any_lower aName

/-- `include.getPatterns().front().str()` -/
def frontPattern (q : SearchQuery) : Option Str :=
    (q.include_.patterns.head?.map (·.pattern)).or u.front

/-- What is checked when the positions are complete. -/
def checkFile (q : SearchQuery) (aName : Str) : Option (Bool × SearchQuery) :=
  let r := q.hasExt aName
  if r.1 then (r.2.isExcludedLower aName).map fun excluded =>
    (!excluded, r.2) else some (false, r.2)

def matchesFileLower (q : SearchQuery) (aName : Str) (aSize aDate : Int) :
    Option (Bool × SearchQuery) :=
  if !q.matchesDate aDate || !q.matchesSize aSize then some (false, q)
  else
    (if q.matchType = MATCH_NAME_EXACT then (q.frontPattern u).map (· == aName) else some true).bind
      fun exact =>
        if exact then
          (q.matchInclude aName q.recursion.isSome).bind fun q =>
            if q.positionsComplete then q.checkFile aName else some (false, q)
        else some (false, q)

def matchesAnyDirectoryLower (q : SearchQuery) (aName : Str) : Option (Bool × SearchQuery) :=
  if q.matchType ≠ MATCH_PATH_PARTIAL ∧ q.itemType = ItemType.FILE then some (false, q)
  else (q.matchInclude aName true).map fun q => (decide (0 < q.lastIncludeMatches), q)

/-- The matches of the name `s` are kept, if there are any. -/
def keepMatches (q : SearchQuery) (s : Str) : Option SearchQuery :=
  if 0 < q.lastIncludeMatches then (q.newRecursion u s).map fun r => { q with recursion := some r }
  else some q

/-- The loop of `matchesAdcPath`. -/
def matchComponents : (sl : List Str) → SearchQuery → Option SearchQuery
  | [], q => some q
  | [s], q => q.matchInclude (Text.toLower locale s) true
  | s :: sl, q =>
    ((q.matchInclude (Text.toLower locale s) true).bind fun q => q.keepMatches u s).bind fun q =>
      matchComponents sl { q with recursion := q.recursion.map (·.increase s.length) }

/-- The components of a path. -/
def components (aPath : Str) : List Str := tokens aPath (str "/") false

def matchesAdcPath (q : SearchQuery) (aPath : Str) : Option (Bool × SearchQuery) :=
  if (components aPath).isEmpty then some (false, q)
  else (matchComponents locale u (components aPath) q).map fun q => (q.positionsComplete, q)

end SearchQuery
end Matching
end Airdcpp
