import Airdcpp.Lib.Keyed
import Airdcpp.Lib.Runs
import Airdcpp.Share.ShareIndexes
import Airdcpp.Util.NoCase
import Airdcpp.Util.PathUtil
import Airdcpp.Util.Positions

/-!
# `Share/ShareTree` — the shared directories and what changes them

Each root path leads to a tree of directories. Roots are added, removed and given other names, files
are added when they have been hashed, and a directory that is refreshed is built anew beside the tree
and then put in place of the old one, with the indexes that it brought along. Several refreshes may
be under way, and the tree changes meanwhile.

The code keeps a pointer to the directory that is refreshed. Directories do not move in the tree, so
a pointer is the place where the directory was found, and its address. `deref` is the directory, as
long as it is still there: afterwards the code would take entries out of the indexes that are not
those of the old directory, and this is not modelled (`none`).

The paths are valid UTF-8 without null bytes, so that the keys of `rootPaths` are the folded paths.
-/

namespace Airdcpp

open Lib

namespace PathUtil

/-- The shorter path ends with a separator, or the longer one goes on with one. -/
def isParentOrExactLower (aParentLower aSubLower : Str) (aSeparator : UInt8) : Bool :=
  aParentLower.isPrefixOf aSubLower &&
    (aParentLower.isEmpty || aParentLower.length == aSubLower.length ||
      aParentLower.getLast? == some aSeparator ||
        aSubLower[aParentLower.length]? == some aSeparator)

end PathUtil

abbrev DirectoryTree := RoseTree ShareNode

/-- Where a directory is: the path of its root, and the lower case names below it. -/
structure DirectoryPlace where
  rootPath : Str
  names : List Str
deriving DecidableEq, Repr

/-- A pointer to a directory. -/
structure DirectoryRef extends DirectoryPlace where
  address : Nat
deriving DecidableEq, Repr

/-- A root has no parent. -/
def DirectoryRef.isRoot (p : DirectoryRef) : Bool := p.names.isEmpty

/-- `ShareRefreshInfo`. The roots of its maps are `newDirectory`, all of them; the total of its
    indexes is `stats.addedSize`. -/
structure ShareRefreshInfo where
  path : Str
  optionalOldDirectory : Option DirectoryRef
  newDirectory : DirectoryTree
  rootPaths : List Str := []
  indexes : ShareIndexes

/-- `refreshes` are those that have been started, by their tokens. -/
structure ShareTree where
  rootPaths : List (Str × DirectoryTree) := []
  indexes : ShareIndexes
  refreshes : List (Nat × ShareRefreshInfo) := []

/-- What a refresh finds on the disk. An item that is not `valid` is not shared, and a file has no
    `info` as long as it has not been hashed. -/
inductive DiskItem
  | directory (name : Str) (lastWriteTime : Int) (valid : Bool) (items : List DiskItem)
  | file (name : Str) (valid : Bool) (info : Option HashedFile)

open ShareIndexes RoseTree

namespace ShareNode

abbrev nameLower (d : ShareNode) : Str := d.realName.lower

end ShareNode

/-! ## Directories -/

namespace DirectoryTree

/-- `directories.insert_sorted`, `none` if there is a directory with the name. -/
def insertDirectory (aDirectory aParent : DirectoryTree) : Option DirectoryTree :=
  if aParent.children.any fun c => c.value.nameLower == aDirectory.value.nameLower then none
  else some (node aParent.value
    (aParent.children.orderedInsert (fun c d => c.value.nameLower ≤ d.value.nameLower) aDirectory))

/-- A directory that has just been created. -/
def new (aRealName : CasedName) (aLastWrite : Int) (address : Nat) : DirectoryTree :=
  node { address, realName := aRealName, lastWrite := aLastWrite } []

/-- `createNormal` in a parent. -/
def createNormal (aRealName : CasedName) (aParent : DirectoryTree) (aLastWrite : Int)
    (maps_ : ShareIndexes) : Option (DirectoryTree × ShareIndexes) :=
  let dir := new aRealName aLastWrite maps_.allocated
  (insertDirectory dir aParent).map fun aParent => (aParent, addDirName dir.value maps_.allocate)

def findDirectoryLower (d : DirectoryTree) (aNameLower : Str) : Option DirectoryTree :=
  d.children.find? fun c => c.keyOf ShareNode.nameLower = aNameLower

/-- `setParent`, of a directory that has no entry in the parent yet. -/
def setParent (aDirectory aParent : DirectoryTree) (aLastWrite : Int) : Option DirectoryTree :=
  (insertDirectory aDirectory aParent).map
    (mapValue fun parent => { parent with lastWrite := aLastWrite })

end DirectoryTree

open DirectoryTree

variable (locale : Locale)

/-! ## Building a tree -/

namespace DiskItem

def name : DiskItem → Str
  | directory name _ _ _ => name
  | file name _ _ => name

mutual

/-- One item of `buildTree`. A directory in which nothing is left is not added (`checkContent`). -/
def build (skipEmptyDirs : Bool) :
    DiskItem → DirectoryTree × ShareIndexes → DirectoryTree × ShareIndexes
  | directory name lastWriteTime valid items, (aParent, m) =>
    let dualName := CasedName.of locale name
    if !valid || aParent.children.any fun c => c.value.nameLower == dualName.lower then (aParent, m)
    else
      let dir := DirectoryTree.new dualName lastWriteTime m.allocated
      let built := buildTree skipEmptyDirs items (dir, addDirName dir.value m.allocate)
      if skipEmptyDirs && built.1.children.isEmpty && built.1.value.files.isEmpty then
        (aParent, cleanIndices built.1 built.2)
      else ((insertDirectory built.1 aParent).getD aParent, built.2)
  | file name valid info, (aParent, m) =>
    match info with
    | none => (aParent, m)
    | some fi =>
      let added := aParent.value.addFile (CasedName.of locale name) fi m
      if valid then (node added.1 aParent.children, added.2) else (aParent, m)

/-- `buildTree`: the items in the order of the disk, up to one without a name. -/
def buildTree (skipEmptyDirs : Bool) :
    List DiskItem → DirectoryTree × ShareIndexes → DirectoryTree × ShareIndexes
  | [], s => s
  | item :: items, s =>
    if item.name.isEmpty then s
    else buildTree skipEmptyDirs items (item.build skipEmptyDirs s)

end

end DiskItem

namespace ShareTree

/-! ## Places -/

/-- The key of a root path. -/
def rootKey (e : Str × DirectoryTree) : List Nat := Util.foldCase locale e.1

def findRoot (t : ShareTree) (aRootPath : Str) : Option DirectoryTree :=
  (t.rootPaths.find? fun e => rootKey locale e = Util.foldCase locale aRootPath).map Prod.snd

/-- Change the directories of a root. -/
def modifyRoot (t : ShareTree) (aRootPath : Str) (f : DirectoryTree → DirectoryTree) : ShareTree :=
  { t with
    rootPaths := Keyed.modify (rootKey locale) (Util.foldCase locale aRootPath)
      (fun e => (e.1, f e.2)) t.rootPaths }

def at_ (t : ShareTree) (p : DirectoryPlace) : Option DirectoryTree :=
  (t.findRoot locale p.rootPath).bind (at? ShareNode.nameLower p.names)

def modify (t : ShareTree) (p : DirectoryPlace) (f : DirectoryTree → DirectoryTree) : ShareTree :=
  t.modifyRoot locale p.rootPath (modifyAt ShareNode.nameLower p.names f)

/-- The directory that a pointer points at, if it is still in the tree. -/
def deref (t : ShareTree) (p : DirectoryRef) : Option DirectoryTree :=
  (t.at_ locale p.toDirectoryPlace).filter fun d => d.value.address == p.address

def parseRoot (t : ShareTree) (aRealPath : Str) : Option (Str × DirectoryTree) :=
  t.rootPaths.find? fun e => PathUtil.isParentOrExactLower (Text.toLower locale e.1)
    (Text.toLower locale aRealPath) PathUtil.PATH_SEPARATOR

/-- The loop of `findDirectoryUnsafe`: the names that lead to directories, and the remaining
    tokens. -/
def findTokens : List Str → DirectoryTree → List Str × List Str
  | [], _ => ([], [])
  | currentName :: rest, d =>
    match d.findDirectoryLower (Text.toLower locale currentName) with
    | some c =>
      let found := findTokens rest c
      (c.value.nameLower :: found.1, found.2)
    | none => ([], currentName :: rest)

/-- `findDirectoryUnsafe` with the tokens that remain. -/
def findTokensOf (t : ShareTree) (aRealPath : Str) : Option (DirectoryPlace × List Str) :=
  (t.parseRoot locale aRealPath).map fun e =>
    let found := findTokens locale
      (tokens (aRealPath.drop e.1.length) [PathUtil.PATH_SEPARATOR] false) e.2
    (⟨e.1, found.1⟩, found.2)

/-- `findDirectoryUnsafe` -/
def findDirectory (t : ShareTree) (aRealPath : Str) : Option DirectoryRef :=
  (t.findTokensOf locale aRealPath).bind fun found =>
    if found.2.isEmpty then
      (t.at_ locale found.1).map fun d => ⟨found.1, d.value.address⟩
    else none

/-- The names of the directories on the way to a place. -/
def realNames : List Str → DirectoryTree → List Str
  | [], _ => []
  | name :: names, d =>
    match d.findDirectoryLower name with
    | some c => c.value.realName.normal :: realNames names c
    | none => []

/-- `getRealPathUnsafe` -/
def realPath (t : ShareTree) (p : DirectoryPlace) : Str :=
  match t.findRoot locale p.rootPath with
  | none => []
  | some d => (realNames p.names d).foldl PathUtil.joinDirectory
      ((d.value.root.map DirectoryRoot.path).getD [])

/-- The loop of `ensureDirectoryUnsafe`. -/
def createDirectories (getLastModified : Str → Int) :
    List Str → DirectoryPlace → ShareTree → ShareTree × Option DirectoryPlace
  | [], curDir, t => (t, some curDir)
  | curName :: rest, curDir, t =>
    let name := CasedName.of locale curName
    let time := getLastModified (t.realPath locale curDir)
    let t := t.modify locale curDir (mapValue fun d => { d with lastWrite := time })
    match (t.at_ locale curDir).bind fun d => createNormal name d time t.indexes with
    | none => (t, none)
    | some (d, indexes) =>
      createDirectories getLastModified rest ⟨curDir.rootPath, curDir.names ++ [name.lower]⟩
        { t.modify locale curDir (fun _ => d) with indexes := indexes }

/-- `ensureDirectoryUnsafe` -/
def ensureDirectory (t : ShareTree) (getLastModified : Str → Int) (aRealPath : Str) :
    ShareTree × Option DirectoryPlace :=
  match t.findTokensOf locale aRealPath with
  | none => (t, none)
  | some (curDir, rest) => createDirectories locale getLastModified rest curDir t

/-- `copyRootProfiles(profiles_, true)` of a directory of the root. -/
def copyRootProfiles (t : ShareTree) (aRootPath : Str) : ShareTree × ProfileTokenSet :=
  (t.modifyRoot locale aRootPath
      (mapValue fun d => { d with root := d.root.map fun root => { root with cacheDirty := true } }),
    (((t.findRoot locale aRootPath).bind fun d => d.value.root).map
      fun root => root.rootProfiles).getD ∅)

/-! ## Roots -/

/-- `ShareRoot::create` and `createRoot` -/
def newRoot (aRootPath aVname : Str) (aProfiles : ProfileTokenSet) (aIncoming : Bool)
    (aLastWrite : Int) (address : Nat) : DirectoryTree :=
  node
    { address
      realName := CasedName.of locale (PathUtil.getLastDir aRootPath)
      root := some
        { path := aRootPath
          virtualName := CasedName.of locale aVname
          rootProfiles := aProfiles
          incoming := aIncoming }
      lastWrite := aLastWrite } []

/-- `false` if the root is there already. -/
def addShareRoot (t : ShareTree) (aPath aVirtualName : Str) (aProfiles : ProfileTokenSet)
    (aIncoming : Bool) (aLastModified : Int) : ShareTree × Bool :=
  if (t.findRoot locale aPath).isSome then (t, false)
  else
    let root := newRoot locale aPath aVirtualName aProfiles aIncoming aLastModified
      t.indexes.allocated
    ({ t with
        rootPaths := t.rootPaths ++ [(aPath, root)]
        indexes := addDirName root.value t.indexes.allocate }, true)

def removeShareRoot (t : ShareTree) (aPath : Str) : ShareTree × Bool :=
  match t.findRoot locale aPath with
  | none => (t, false)
  | some directory =>
    ({ t with
        rootPaths := Keyed.remove (rootKey locale) (Util.foldCase locale aPath) t.rootPaths
        indexes := cleanIndices directory t.indexes }, true)

/-- The profile is taken from all roots; the paths are those of the roots without profiles. -/
def removeProfile (t : ShareTree) (aProfile : Int) : ShareTree × List Str :=
  let erase (root : DirectoryRoot) : DirectoryRoot :=
    { root with rootProfiles := root.rootProfiles.erase aProfile }
  ({ t with
      rootPaths := t.rootPaths.map fun e =>
        (e.1, mapValue (fun d => { d with root := d.root.map erase }) e.2) },
    (t.rootPaths.filter fun e => e.2.value.root.any fun root => decide ((erase root).rootProfiles =
      ∅)).map Prod.fst)

def validateVirtualName (aVirt : Str) : Str :=
  aVirt.map fun c => if c = chr '\\' ∨ c = chr '/' then chr '_' else c

/-- The name, the flag and the profiles of a root are set. -/
def updateShareRoot (t : ShareTree) (aPath aVirtualName : Str) (aProfiles : ProfileTokenSet)
    (aIncoming : Bool) : ShareTree × Bool :=
  match t.findRoot locale aPath with
  | none => (t, false)
  | some directory =>
    let vName := CasedName.of locale (validateVirtualName aVirtualName)
    let update (d : ShareNode) : ShareNode :=
      { d with root := d.root.map fun root =>
          { root with virtualName := vName, rootProfiles := aProfiles, incoming := aIncoming } }
    ({ t.modifyRoot locale aPath (mapValue update) with
        indexes := addDirName (update directory.value) (removeDirName directory.value t.indexes) },
      true)

/-! ## Files -/

/-- `addHashedFile`, with the profiles that are dirty then. -/
def addHashedFile (t : ShareTree) (getLastModified : Str → Int) (aRealPath : Str)
    (aFileInfo : HashedFile) : ShareTree × ProfileTokenSet :=
  match t.ensureDirectory locale getLastModified (PathUtil.getFilePath aRealPath) with
  | (t, none) => (t, ∅)
  | (t, some place) =>
    match t.at_ locale place with
    | none => (t, ∅)
    | some d =>
      let added := d.value.addFile (CasedName.of locale (PathUtil.getFileName aRealPath)) aFileInfo
        t.indexes
      { t.modify locale place (fun d => node added.1 d.children) with
        indexes := added.2 }.copyRootProfiles locale place.rootPath

/-! ## Refreshes -/

/-- A clone of the root (`cloneRoot`), or a directory of its own. -/
def refreshDirectory (root : Option DirectoryRoot) (aPath : Str) (aLastWrite : Int)
    (address : Nat) : DirectoryTree :=
  match root with
  | some root => newRoot locale root.path root.virtualName.normal root.rootProfiles root.incoming
      aLastWrite address
  | none => DirectoryTree.new (CasedName.of locale (PathUtil.getLastDir aPath)) aLastWrite address

/-- The root that is refreshed, if it is one. -/
def refreshRoot (t : ShareTree) (aPath : Str) : Option DirectoryRoot :=
  ((t.findDirectory locale aPath).filter DirectoryRef.isRoot).bind fun p =>
    (t.at_ locale p.toDirectoryPlace).bind fun d => d.value.root

/-- The constructor of `ShareRefreshInfo`, with indexes of its own. -/
def newRefresh (t : ShareTree) (aPath : Str) (aLastWrite : Int) : ShareRefreshInfo :=
  let root := t.refreshRoot locale aPath
  let dir := refreshDirectory locale root aPath aLastWrite t.indexes.allocated
  { path := aPath
    optionalOldDirectory := t.findDirectory locale aPath
    newDirectory := dir
    rootPaths := (root.map DirectoryRoot.path).toList
    indexes := addDirName dir.value (ShareIndexes.allocate { t.indexes with
      lowerDirNameMap := []
      tthIndex := []
      sharedSize := 0 }) }

def startRefresh (t : ShareTree) (token : Nat) (aPath : Str) (aLastWrite : Int) : ShareTree :=
  let ri := t.newRefresh locale aPath aLastWrite
  { t with indexes := t.indexes.within ri.indexes, refreshes := (token, ri) :: t.refreshes }

/-- The new directory is filled. -/
def buildRefresh (t : ShareTree) (token : Nat) (skipEmptyDirs : Bool) (items : List DiskItem) :
    ShareTree :=
  match t.refreshes.find? (·.1 == token) with
  | none => t
  | some (_, ri) =>
    let built := DiskItem.buildTree locale skipEmptyDirs items
      (ri.newDirectory, ri.indexes.within t.indexes)
    { t with
      indexes := t.indexes.within built.2
      refreshes := (token, { ri with newDirectory := built.1, indexes := built.2 }) ::
        t.refreshes.filter (·.1 != token) }

/-- `cleanIndices` of the old directory, which a parent loses. A root stays until the new one takes
    its place. -/
def removeOld (t : ShareTree) (p : DirectoryRef) : Option ShareTree :=
  (t.deref locale p).map fun old =>
    let t := { t with indexes := cleanIndices old t.indexes }
    match p.names.getLast? with
    | none => t
    | some name => t.modify locale ⟨p.rootPath, p.names.dropLast⟩
        fun d => node d.value (eraseFirst ShareNode.nameLower name d.children)

/-- `rootPaths_[p] = rootDir` -/
def setRoot (d : DirectoryTree) (t : ShareTree) (p : Str) : ShareTree :=
  if (t.findRoot locale p).isSome then t.modifyRoot locale p fun _ => d
  else { t with rootPaths := t.rootPaths ++ [(p, d)] }

/-- `ShareRefreshInfo::applyRefreshChanges` -/
def mergeRefresh (t : ShareTree) (ri : ShareRefreshInfo) (aRootPath : Str) :
    ShareTree × Bool × ProfileTokenSet :=
  let t := { t with indexes := t.indexes.merge ri.indexes }
  let t := (ri.rootPaths.foldl (setRoot locale ri.newDirectory) t).copyRootProfiles locale aRootPath
  (t.1, true, t.2)

/-- `checkContent` of the new directory. -/
def checkContent (skipEmptyDirs : Bool) (d : DirectoryTree) : Bool :=
  !(skipEmptyDirs && d.children.isEmpty && d.value.files.isEmpty)

/-- The new directory is put into its parent, which is created if it is not known. -/
def attachRefresh (t : ShareTree) (ri : ShareRefreshInfo) (getLastModified : Str → Int)
    (skipEmptyDirs : Bool) (parent : Option DirectoryPlace) : ShareTree × Bool × ProfileTokenSet :=
  if !checkContent skipEmptyDirs ri.newDirectory then (t, false, ∅)
  else
    let found := parent.elim (t.ensureDirectory locale getLastModified
      (PathUtil.getParentDir ri.path)) fun p => (t, some p)
    match found.2 with
    | none => (found.1, false, ∅)
    | some place =>
      match (found.1.at_ locale place).bind fun d =>
          setParent ri.newDirectory d (getLastModified (found.1.realPath locale place)) with
      | none => (found.1, false, ∅)
      | some d => (found.1.modify locale place fun _ => d).mergeRefresh locale ri place.rootPath

/-- `applyRefreshChanges`, `none` if the old directory is not in the tree any more. -/
def applyRefreshChanges (t : ShareTree) (ri : ShareRefreshInfo) (getLastModified : Str → Int)
    (skipEmptyDirs : Bool) : Option (ShareTree × Bool × ProfileTokenSet) :=
  match ri.optionalOldDirectory with
  | none => some (t.attachRefresh locale ri getLastModified skipEmptyDirs none)
  | some p =>
    -- the root was removed during the refresh
    if p.isRoot && (t.findRoot locale ri.path).isNone then some (t, false, ∅)
    else
      (t.removeOld locale p).map fun t =>
        if p.isRoot then t.mergeRefresh locale ri p.rootPath
        else t.attachRefresh locale ri getLastModified skipEmptyDirs
          (some ⟨p.rootPath, p.names.dropLast⟩)

/-- A refresh ends, and its changes are applied. -/
def endRefresh (t : ShareTree) (token : Nat) (getLastModified : Str → Int) (skipEmptyDirs : Bool) :
    Option ShareTree :=
  match t.refreshes.find? (·.1 == token) with
  | none => some t
  | some (_, ri) =>
    (t.applyRefreshChanges locale ri getLastModified skipEmptyDirs).map fun applied =>
      { applied.1 with refreshes := applied.1.refreshes.filter (·.1 != token) }

/-- A refresh is stopped, or fails. -/
def cancelRefresh (t : ShareTree) (token : Nat) : ShareTree :=
  { t with refreshes := t.refreshes.filter (·.1 != token) }

end ShareTree

end Airdcpp
