import Airdcpp.Util.Encoder
import Airdcpp.Util.NoCase
import Airdcpp.Util.PathUtil
import Airdcpp.Xml.SimpleXMLReader

/-!
# `FileList/DirectoryListing` — file lists of other users

A `DirectoryListing` is a tree of directories. Here it is the map from the paths of the
directories: a directory is known by the folded names on the way to it from the root, which is what
the nested maps ordered by `noCaseStringLess` compare. `ListLoader` gets the callbacks of the XML
reader and changes the listing while the document is read; `cur` is the directory that it is in,
and `none` is a null pointer.

A call that uses the null pointer has no result (`none`). An exception leaves the listing as it is
at that moment. The hooks of extensions, which may remove what has been loaded, are not here.
-/

namespace Airdcpp

open SimpleXMLReader (Result)

/-- `getAttrib`: the value of the first attribute of a name, beginning at `hint`. -/
def getAttrib (attribs : List (Str × Str)) (name : Str) (hint : Nat) : Str :=
  match (attribs.drop hint ++ attribs.take hint).find? fun a => a.1 == name with
  | some a => a.2
  | none => []

namespace DirectoryListing

def ADC_SEPARATOR : UInt8 := chr '/'
def ADC_ROOT_STR : Str := [ADC_SEPARATOR]

/-! ## Directories -/

structure File where
  name : Str
  size : Int
  tthRoot : TTHValue
  remoteDate : Int
deriving DecidableEq, Repr

/-- `TYPE_VIRTUAL` directories are made for search results, never by a loader. -/
inductive DirType
  | normal
  | incompleteChild
  | incompleteNoChild
deriving DecidableEq, Repr

structure Directory where
  name : Str
  type : DirType
  partialSize : Int
  remoteDate : Int
  files : List File
deriving DecidableEq, Repr

def Directory.isComplete (d : Directory) : Bool := d.type == .normal

def Directory.setComplete (d : Directory) : Directory := { d with type := .normal }

def Directory.setRemoteDate (d : Directory) (date : Int) :
    Directory := { d with remoteDate := date }

/-- The folded names on the way from the root. -/
abbrev Path := List (List Nat)

abbrev Directories := Path → Option Directory

/-- Change the directory at a path. -/
def modify (dirs : Directories) (path : Path) (f : Directory → Directory) : Directories :=
  fun q => if q = path then (dirs q).map f else dirs q

/-- `Directory::create` -/
def create (dirs : Directories) (path : Path) (d : Directory) : Directories :=
  fun q => if q = path then some d else dirs q

/-- A listing as it is made. -/
def empty : Directories := fun q =>
  if q = [] then some ⟨ADC_ROOT_STR, .incompleteNoChild, 0, 0, []⟩ else none

/-- `clearAll` of the directory at a path: the directories below it and its files are gone. -/
def clearAll (dirs : Directories) (path : Path) : Directories := fun q =>
  if q = path then (dirs q).map fun d => { d with files := [] }
  else if path <+: q then none else dirs q

/-- The names from a directory down to another. -/
def adcPathFrom (dirs : Directories) (cur : Path) : Path → Str
  | [] => []
  | key :: path =>
    let next := cur ++ [key]
    ((dirs next).map Directory.name).getD [] ++ ADC_SEPARATOR :: adcPathFrom dirs next path

/-- `getAdcPathUnsafe` -/
def getAdcPath (dirs : Directories) (path : Path) : Str := ADC_SEPARATOR :: adcPathFrom dirs [] path

/-! ## Paths -/

variable (locale : Locale)

/-- `StringTokenizer(aBasePath, ADC_SEPARATOR).getTokens()` -/
def getTokens (path : Str) : List Str := (path.splitOn ADC_SEPARATOR).filter fun t => t ≠ []

/-- The recursion of `findDirectoryUnsafe` over the names between the separators. -/
def findFrom (dirs : Directories) (cur : Path) : List Str → Option Path
  | [] => some cur
  | name :: names =>
    let next := cur ++ [Util.foldCase locale name]
    if (dirs next).isSome then findFrom dirs next names else none

/-- `findDirectoryUnsafe` of a path that begins and ends with a separator. -/
def findDirectoryUnsafe (dirs : Directories) (aName : Str) : Option Path :=
  if aName = ADC_ROOT_STR then some []
  else findFrom locale dirs [] (aName.splitOn ADC_SEPARATOR).tail.dropLast

/-- The loop of `createBaseDirectory`. -/
def createBase (cur : Path) : List Str → Directories → Path × Directories
  | [], dirs => (cur, dirs)
  | name :: names, dirs =>
    let next := cur ++ [Util.foldCase locale name]
    if (dirs next).isSome then createBase next names dirs
    else createBase next names (create dirs next ⟨name, .incompleteChild, 0, 0, []⟩)

def createBaseDirectory (dirs : Directories) (aBasePath : Str) : Path × Directories :=
  createBase locale [] (getTokens aBasePath) dirs

end DirectoryListing

/-! ## `ListLoader` -/

open DirectoryListing

/-- `Util::parseRemoteFileItemDate` -/
def parseRemoteFileItemDate (aString : Str) : Int :=
  let date := Util.toInt64 aString
  if date ≤ 946684800 then 0 else date

structure ListLoader where
  list : Directories
  cur : Option Path
  base : Str
  inListing : Bool := false
  updating : Bool

namespace ListLoader

variable (locale : Locale)

/-- `none` where a null pointer is used. -/
abbrev Outcome := Option (Result ListLoader)

def exception (text : String) : Exception := { errorString := str text }

/-- `validateName` -/
def validateName (aName : Str) : Result Unit :=
  if aName = [] then .error (exception "Name attribute missing")
  else if aName = str "." ∨ aName = str ".." then .error (exception "Forbidden filename")
  else if ADC_SEPARATOR ∈ aName then
    .error (exception "Filenames can't contain path separators")
  else .ok ()

def loadFile (l : ListLoader) (attribs : List (Str × Str)) : Outcome :=
  let n := getAttrib attribs (str "Name") 0
  match validateName n with
  | .error e => some (.error e)
  | .ok () =>
    let s := getAttrib attribs (str "Size") 1
    if s = [] then some (.ok l)
    else
      let h := getAttrib attribs (str "TTH") 2
      if h = [] then some (.ok l)
      else do
        let cur ← l.cur
        let f : File := ⟨n, Util.toInt64 s, TTHValue.ofBase32 h,
          parseRemoteFileItemDate (getAttrib attribs (str "Date") 3)⟩
        return .ok { l with
          list := modify l.list cur fun d => { d with files := d.files ++ [f] } }

/-- `parseDirectoryType`, with the number of directories. -/
def parseDirectoryType (aIncomplete : Bool) (directories : Int) : DirType :=
  if !aIncomplete then .normal
  else if 0 < directories then .incompleteChild
  else .incompleteNoChild

def duplicateName (path name other : Str) : Exception :=
  { errorString := str "The directory " ++ path ++ str " contains items with duplicate names (" ++
      name ++ str ", " ++ other ++ str ")" }

def loadDirectory (l : ListLoader) (attribs : List (Str × Str)) : Outcome :=
  let name := getAttrib attribs (str "Name") 0
  match validateName name with
  | .error e => some (.error e)
  | .ok () => do
    let incomplete := getAttrib attribs (str "Incomplete") 1 == str "1"
    let directories := Util.toInt (getAttrib attribs (str "Directories") 2)
    let size := getAttrib attribs (str "Size") 2
    let date := parseRemoteFileItemDate (getAttrib attribs (str "Date") 3)
    let cur ← l.cur
    let next := cur ++ [Util.foldCase locale name]
    match l.list next with
    | none =>
      let partialSize := if size = [] then 0 else Util.toInt64 size
      let d : Directory := ⟨name, parseDirectoryType incomplete directories, partialSize, date, []⟩
      return .ok { l with list := create l.list next d, cur := some next }
    | some d =>
      if l.updating then
        let f (d : Directory) := (if incomplete then d else d.setComplete).setRemoteDate date
        return .ok { l with list := modify l.list next f, cur := some next }
      else
        let path := getAdcPath l.list cur ++ name ++ ADC_ROOT_STR
        return .error (duplicateName path name d.name)

def baseMismatch (b base : Str) : Exception :=
  { errorString := str "The base directory specified in the file list (" ++ b ++
      str ") doesn't match with the expected base (" ++ base ++ str ")" }

def loadListing (l : ListLoader) (attribs : List (Str × Str)) : Result ListLoader :=
  if l.updating then
    let b := getAttrib attribs (str "Base") 2
    if Util.sameNoCase locale b l.base then
      let found := createBaseDirectory locale l.list l.base
      let date := parseRemoteFileItemDate (getAttrib attribs (str "BaseDate") 3)
      .ok { l with
        list := modify found.2 found.1 fun d => d.setRemoteDate date
        cur := some found.1
        inListing := true }
    else .error (baseMismatch b l.base)
  else .ok { l with inListing := true }

def endTag (l : ListLoader) (aName : Str) : Outcome :=
  if l.inListing then
    if aName = str "Directory" then do
      let cur ← l.cur
      return .ok { l with cur := if cur = [] then none else some cur.dropLast }
    else if aName = str "FileListing" then do
      let cur ← l.cur
      return .ok { l with list := modify l.list cur Directory.setComplete, inListing := false }
    else some (.ok l)
  else some (.ok l)

/-- `<Directory Name="..." />` and `<FileListing Base="..." />` end at once. -/
def endSimple (aName : Str) (aSimple : Bool) : Outcome → Outcome
  | some (.ok l) => if aSimple then l.endTag aName else some (.ok l)
  | x => x

def startTag (l : ListLoader) (aName : Str) (attribs : List (Str × Str)) (aSimple : Bool) :
    Outcome :=
  if l.inListing then
    if aName = str "File" then l.loadFile attribs
    else if aName = str "Directory" then endSimple aName aSimple (l.loadDirectory locale attribs)
    else some (.ok l)
  else if aName = str "FileListing" then
    endSimple aName aSimple (some (l.loadListing locale attribs))
  else some (.ok l)

def callBack (l : ListLoader) : Event → Outcome
  | .startTag name attribs simple => l.startTag locale name attribs simple
  | .data _ => some (.ok l)
  | .endTag name => l.endTag name

/-- What the reader finds in a document: its callbacks, up to the end or the place where it cannot
    be read any further (or where the listing was closed meanwhile). -/
structure Document where
  events : List Event
  readable : Bool

/-- The listing when the document has been read or an exception has been thrown, and whether none
    was. -/
def run (l : ListLoader) : List Event → (readable : Bool) → Option (Directories × Bool)
  | [], readable => some (l.list, readable)
  | e :: events, readable =>
    match l.callBack locale e with
    | none => none
    | some (.error _) => some (l.list, false)
    | some (.ok l') => run l' events readable

end ListLoader

namespace DirectoryListing

variable (locale : Locale)

/-- `loadXML(mis, true, aBase, …)` -/
def loadPartialXml (dirs : Directories) (doc : ListLoader.Document) (aBase : Str) :
    Option (Directories × Bool) :=
  ListLoader.run locale { list := dirs, cur := some [], base := aBase, updating := true }
    doc.events doc.readable

/-- Has this directory been loaded before? Existing content must be cleared in that case. -/
def prepare (dirs : Directories) (aBasePath : Str) : Directories :=
  match findDirectoryUnsafe locale dirs aBasePath with
  | none => dirs
  | some path =>
    match dirs path with
    | none => dirs
    | some d => if d.isComplete then clearAll dirs path else dirs

def loadPartialImpl (dirs : Directories) (doc : ListLoader.Document) (aBasePath : Str) :
    Option (Directories × Bool) :=
  loadPartialXml locale (prepare locale dirs aBasePath) doc aBasePath

end DirectoryListing
end Airdcpp
