import Airdcpp.FileList.DirectoryPaths
import Airdcpp.Lib.RoseTree
import Airdcpp.Util.NumberText
import Airdcpp.Util.StringMatch

/-!
# `FileList/ADLSearch` — automatic directory listing search

`matchListing` goes through the tree of a file list once. Each search puts what it matches into a
destination directory: files are copied there, and a directory is copied with everything in it.
While the traversal is inside of a matched directory, `subdir` of the destination points to the copy
of the current directory: `MatchesDirectory` makes the next copy and moves the pointer down, and
`stepUpDirectory` moves it up again.

A directory is a tree (`DirTree`), in which a pointer is the list of the folded names on the way.
The subdirectories are in the order in which the map has them; new ones stand at the end. What is
not used by a search (dates, sizes of incomplete directories, owners, queueing) is left out, and
`AbortException` when the list is closed meanwhile.

`none` stands for a null pointer, an index that is out of range, or a loop that does not end.
-/

namespace Airdcpp

open DirectoryListing Lib

/-- `PathUtil::toNmdcFile` -/
def Util.toNmdcFile (file : Str) : Str :=
  if file.isEmpty then []
  else (file.drop 1).map fun c => if c = ADC_SEPARATOR then chr '\\' else c

/-! ## Directories -/

/-- A `Directory`, without its subdirectories. `fullAdcPath` belongs to virtual directories. -/
structure DirData where
  name : Str
  type : NodeType
  fullAdcPath : Str := []
  files : List File := []
deriving DecidableEq, Repr

abbrev DirTree := RoseTree DirData

namespace DirTree

abbrev getName (d : DirTree) : Str := d.value.name

/-- `files.push_back` -/
def addFiles (fs : List File) (d : DirData) : DirData := { d with files := d.files ++ fs }

variable (locale : Locale)

/-- What the map of a directory compares. -/
def nameKey (d : DirData) : List Nat := Util.foldCase locale d.name

/-- `directories.contains(&name)` -/
def contains (aParent : DirTree) (name : Str) : Bool :=
  aParent.children.any fun d => nameKey locale d.value = Util.foldCase locale name

/-- `directories.try_emplace(&dir->getName(), dir)` -/
def tryEmplace (aParent dir : DirTree) : DirTree :=
  if aParent.contains locale dir.getName then aParent else aParent.extend id [dir]

end DirTree

namespace VirtualDirectory

variable (locale : Locale)

/-- `aName + " (" + Util::toString(num) + ")"` -/
def numbered (aName : Str) (num : Nat) : Str :=
  aName ++ str " (" ++ Util.toString num ++ str ")"

/-- The loop for a name that is not in the directory, from a number on. As many numbers as there are
    directories, and one more, are enough if different numbers are different names. -/
def freeName (aParent : DirTree) (aName : Str) : (fuel num : Nat) → Option Str
  | 0, _ => none
  | fuel + 1, num =>
    if aParent.contains locale (numbered aName num) then freeName aParent aName fuel (num + 1)
    else some (numbered aName num)

/-- No duplicate file names. -/
def uniqueName (aParent : DirTree) (aName : Str) : Option Str :=
  if aParent.contains locale aName then
    freeName locale aParent aName (aParent.children.length + 1) 1
  else some aName

/-- `VirtualDirectory::create`: the new directory, and its parent. -/
def create (aFullPath : Str) (aParent : DirTree) (aName : Str) (aAddToParent : Bool) :
    Option (DirTree × DirTree) := do
  let name ← uniqueName locale aParent aName
  let dir : DirTree := .node { name := name, type := .virtual, fullAdcPath := aFullPath } []
  return (dir, if aAddToParent then aParent.tryEmplace locale dir else aParent)

end VirtualDirectory

/-! ## Searches -/

namespace ADLSearch

inductive SourceType
  | onlyFile
  | onlyDirectory
  | fullPath
deriving DecidableEq, Repr

inductive SizeType
  | sizeBytes
  | sizeKiloBytes
  | sizeMegaBytes
  | sizeGigaBytes
deriving DecidableEq, Repr

end ADLSearch

structure ADLSearch (ρ : Type) where
  isActive : Bool := true
  sourceType : ADLSearch.SourceType := .onlyFile
  minFileSize : Int := -1
  maxFileSize : Int := -1
  typeFileSize : ADLSearch.SizeType := .sizeBytes
  /-- Index of the destination directory. -/
  ddIndex : Nat := 0
  /-- Name of the destination directory. -/
  name : Str := str "ADLSearch"
  stringMatch : StringMatch ρ

namespace ADLSearch

variable {ρ : Type} (locale : Locale) (rx : Regex ρ)

def getDestDir (s : ADLSearch ρ) : Str := s.name

def getPattern (s : ADLSearch ρ) : Str := s.stringMatch.pattern

def setPattern (s : ADLSearch ρ) (aPattern : Str) : ADLSearch ρ :=
  { s with stringMatch := { s.stringMatch with pattern := aPattern } }

def GetSizeBase (s : ADLSearch ρ) : Int :=
  match s.typeFileSize with
  | .sizeBytes => 1
  | .sizeKiloBytes => 1024
  | .sizeMegaBytes => 1024 * 1024
  | .sizeGigaBytes => 1024 * 1024 * 1024

def prepare (s : ADLSearch ρ) : ADLSearch ρ :=
  { s with stringMatch := (s.stringMatch.prepare locale rx).2 }

def searchAll (s : ADLSearch ρ) (str : Str) : Option Bool := s.stringMatch.matchStr locale rx str

/-- The check of the size of a file. -/
def hasSize (s : ADLSearch ρ) (size : Int) : Bool :=
  if 0 ≤ size ∧ (s.sourceType = .onlyFile ∨ s.sourceType = .fullPath) then
    if 0 ≤ s.minFileSize ∧ size < s.minFileSize * s.GetSizeBase then false  -- too small
    else if 0 ≤ s.maxFileSize ∧ s.maxFileSize * s.GetSizeBase < size then false  -- too large
    else true
  else true

def matchesFile (s : ADLSearch ρ) (f fp : Str) (size : Int) : Option Bool :=
  if !s.isActive then some false
  else if !s.hasSize size then some false
  else
    match s.sourceType with
    | .onlyDirectory => some false
    | .onlyFile => s.searchAll locale rx f
    | .fullPath => s.searchAll locale rx fp

def matchesDirectory (s : ADLSearch ρ) (d : Str) : Option Bool :=
  if !s.isActive then some false
  else if s.sourceType ≠ .onlyDirectory then some false
  else s.searchAll locale rx d

end ADLSearch

/-! ## The manager -/

/-- A destination directory; `subdir` is a null pointer or points to a directory in `dir`. -/
structure DestDir where
  name : Str
  dir : DirTree
  subdir : Option Path := none
  fileAdded : Bool := false

structure ADLSearchManager (ρ : Type) where
  collection : List (ADLSearch ρ) := []
  breakOnFirst : Bool := false
  dirty : Bool := false
  running : Int := 0

namespace DestDir

variable (locale : Locale)

/-- `VirtualDirectory::create` in the directory at a place, where `subdir` goes then. -/
def createIn (aAdcPath aName : Str) (place : Path) (id : DestDir) : Option DestDir := do
  let aParent ← RoseTree.at? (DirTree.nameKey locale) place id.dir
  let (newDir, aParent) ← VirtualDirectory.create locale aAdcPath aParent aName true
  return { id with
    dir := RoseTree.modifyAt (DirTree.nameKey locale) place (fun _ => aParent) id.dir
    subdir := some (place ++ [DirTree.nameKey locale newDir.value]) }

/-- Add a directory to the substructure that is being stored. -/
def createInSubdir (aAdcPath aName : Str) (id : DestDir) : Option DestDir :=
  match id.subdir with
  | some p => id.createIn locale aAdcPath aName p
  | none => some id

/-- Add a file to the substructure that is being stored. -/
def addToSubdir (currentFile : File) (id : DestDir) : DestDir :=
  match id.subdir with
  | some p => { id with
      dir := RoseTree.modifyAt (DirTree.nameKey locale) p
        (RoseTree.extend (DirTree.addFiles [currentFile]) []) id.dir
      fileAdded := false }
  | none => { id with fileAdded := false }

/-- Add a file to the destination directory itself. -/
def addFile (currentFile : File) (id : DestDir) : DestDir :=
  { id with dir := id.dir.mapValue (DirTree.addFiles [currentFile]), fileAdded := true }

/-- One destination of `stepUpDirectory`. -/
def stepUp (id : DestDir) : DestDir :=
  match id.subdir with
  | some p => { id with subdir := if p.dropLast = [] then none else some p.dropLast }
  | none => id

end DestDir

namespace ADLSearchManager

variable {ρ : Type} (locale : Locale) (rx : Regex ρ)

/-- The loop over the searches of `MatchesFile`. -/
def matchFileSearches (breakOnFirst : Bool) (currentFile : File) (nmdcPath : Str) :
    List (ADLSearch ρ) → List DestDir → Option (List DestDir)
  | [], destDirVector => some destDirVector
  | is :: collection, destDirVector => do
    let id ← destDirVector[is.ddIndex]?
    if id.fileAdded then
      matchFileSearches breakOnFirst currentFile nmdcPath collection destDirVector
    else
      let found ← is.matchesFile locale rx currentFile.name nmdcPath currentFile.size
      if found then
        let destDirVector := destDirVector.set is.ddIndex (id.addFile currentFile)
        if breakOnFirst then some destDirVector
        else matchFileSearches breakOnFirst currentFile nmdcPath collection destDirVector
      else matchFileSearches breakOnFirst currentFile nmdcPath collection destDirVector

def MatchesFile (m : ADLSearchManager ρ) (destDirVector : List DestDir) (currentFile : File)
    (aAdcPath : Str) : Option (List DestDir) :=
  let destDirVector := destDirVector.map (DestDir.addToSubdir locale currentFile)
  if currentFile.name.isEmpty then some destDirVector
  else
    -- NMDC paths are used for matching
    let nmdcPath := Util.toNmdcFile (aAdcPath ++ currentFile.name)
    matchFileSearches locale rx m.breakOnFirst currentFile nmdcPath m.collection destDirVector

/-- The loop over the searches of `MatchesDirectory`. -/
def matchDirectorySearches (breakOnFirst : Bool) (aAdcPath name : Str) :
    List (ADLSearch ρ) → List DestDir → Option (List DestDir)
  | [], destDirVector => some destDirVector
  | is :: collection, destDirVector => do
    let id ← destDirVector[is.ddIndex]?
    if id.subdir.isSome then
      matchDirectorySearches breakOnFirst aAdcPath name collection destDirVector
    else
      let found ← is.matchesDirectory locale rx name
      if found then
        let id ← id.createIn locale aAdcPath name []
        let destDirVector := destDirVector.set is.ddIndex id
        if breakOnFirst then some destDirVector
        else matchDirectorySearches breakOnFirst aAdcPath name collection destDirVector
      else matchDirectorySearches breakOnFirst aAdcPath name collection destDirVector

def MatchesDirectory (m : ADLSearchManager ρ) (destDirVector : List DestDir) (name aAdcPath : Str) :
    Option (List DestDir) := do
  let destDirVector ← destDirVector.mapM (DestDir.createInSubdir locale aAdcPath name)
  if name.isEmpty then some destDirVector
  else matchDirectorySearches locale rx m.breakOnFirst aAdcPath name m.collection destDirVector

def stepUpDirectory (destDirVector : List DestDir) :
    List DestDir := destDirVector.map DestDir.stepUp

mutual

def matchRecurse (m : ADLSearchManager ρ) (aAdcPath : Str) :
    DirTree → List DestDir → Option (List DestDir)
  | .node d directories, aDestList => do
    let aDestList ← matchSubdirectories m aAdcPath directories aDestList
    let aDestList ← d.files.foldlM (fun l file => m.MatchesFile locale rx l file aAdcPath) aDestList
    return stepUpDirectory aDestList

/-- The loop over the subdirectories. -/
def matchSubdirectories (m : ADLSearchManager ρ) (aAdcPath : Str) :
    List DirTree → List DestDir → Option (List DestDir)
  | [], aDestList => some aDestList
  | dir :: directories, aDestList => do
    let subAdcPath := joinAdcDirectory aAdcPath dir.getName
    let aDestList ← m.MatchesDirectory locale rx aDestList dir.getName subAdcPath
    let aDestList ← matchRecurse m subAdcPath dir aDestList
    matchSubdirectories m aAdcPath directories aDestList

end

def addRootDirectory (aName : Str) (destDirs_ : List DestDir) (root : DirTree) :
    Option (List DestDir) := do
  let created ← VirtualDirectory.create locale ADC_ROOT_STR root
    (str "<<<" ++ aName ++ str ">>>") false
  return destDirs_ ++ [{ name := aName, dir := created.1 }]

/-- The index of the destination of a search, and the destinations. -/
def findDestination (is : ADLSearch ρ) (destDirs : List DestDir) (root : DirTree) :
    Option (Nat × List DestDir) :=
  if is.getDestDir.isEmpty then some (0, destDirs)  -- the default
  else
    match destDirs.findIdx? fun id => Util.sameNoCase locale is.getDestDir id.name with
    | some ddIndex => some (ddIndex, destDirs)
    | none => (addRootDirectory locale is.getDestDir destDirs root).map fun l =>
      (destDirs.length, l)

/-- The loop of `PrepareDestinationDirectories`: the searches with their indices, and the
    destinations. -/
def prepareSearches (root : DirTree) :
    List (ADLSearch ρ) → List DestDir → Option (List (ADLSearch ρ) × List DestDir)
  | [], destDirs => some ([], destDirs)
  | is :: collection, destDirs => do
    let (ddIndex, destDirs) ← findDestination locale is destDirs root
    let (collection, destDirs) ← prepareSearches root collection destDirs
    return ({ is with ddIndex := ddIndex } :: collection, destDirs)

def PrepareDestinationDirectories (m : ADLSearchManager ρ) (root : DirTree) :
    Option (ADLSearchManager ρ × List DestDir) := do
  let destDirs ← addRootDirectory locale (str "ADLSearch") [] root
  let (collection, destDirs) ← prepareSearches locale root m.collection destDirs
  return ({ m with collection := collection }, destDirs)

def szDiscard : Str := str "<<<" ++ str "Discard" ++ str ">>>"

/-- Whether a destination is added to the list. -/
def isAdded (i : DestDir) : Bool :=
  if i.dir.value.files.isEmpty && i.dir.children.isEmpty then false
  else !Util.sameNoCase locale i.dir.getName szDiscard

def FinalizeDestinationDirectories (destDirs : List DestDir) (root : DirTree) : DirTree :=
  destDirs.foldl (fun root i => if isAdded locale i then root.tryEmplace locale i.dir else root)
    root

/-- `matchListing`, with the setting `ADLS_BREAK_ON_FIRST`: the destinations and the list. -/
def matchListing (m : ADLSearchManager ρ) (adlsBreakOnFirst : Bool) (root : DirTree) :
    Option (ADLSearchManager ρ × List DestDir × DirTree) := do
  let (m, destDirs) ← m.PrepareDestinationDirectories locale root
  let m := { m with breakOnFirst := adlsBreakOnFirst }
  let destDirs ← m.matchRecurse locale rx root.getName root destDirs
  return (m, destDirs, FinalizeDestinationDirectories locale destDirs root)

/-! ## Changing the searches -/

/-- `addCollection`, and the search that was given. -/
def addCollection (m : ADLSearchManager ρ) (search : ADLSearch ρ) (index : Nat) :
    Bool × ADLSearchManager ρ × ADLSearch ρ :=
  if 0 < m.running then (false, m, search)
  else if search.getPattern.isEmpty then (false, m, search)
  else
    let search := search.prepare locale rx
    (true, { m with collection := m.collection.insertIdx index search, dirty := true }, search)

/-- `updateCollection`, and the search that was given. -/
def updateCollection (m : ADLSearchManager ρ) (search : ADLSearch ρ) (index : Nat) :
    Option (Bool × ADLSearchManager ρ × ADLSearch ρ) :=
  if 0 < m.running then some (false, m, search)
  else if index < m.collection.length then
    let m := { m with collection := m.collection.set index search }
    let search := search.prepare locale rx
    some (true, { m with dirty := true }, search)
  else none

end ADLSearchManager
end Airdcpp
