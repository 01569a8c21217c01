import Airdcpp.Lib.TreeBag
import Airdcpp.Share.RootRefresh
import Airdcpp.Share.ShareSearch

/-!
# `Share/ShareIndexes` — the indexes of the share

The names of all shared directories and the hashes of all shared files are in maps beside the tree,
with their total size and a bloom filter of the names. `Describes` says that the indexes are those of
a list of directories. Each function that changes the indexes changes the list in one place:
a directory or a file is added (`addDirName`, `addFile`), a directory gets another name (`rename`),
or a whole subtree is taken out (`cleanIndices`).

The maps point at directories and files, which are known by their addresses here. They have the
entries of a key in no order.
-/

namespace Airdcpp

open Lib

/-- A name, and the name in lower case. -/
structure CasedName where
  normal : Str
  lower : Str
deriving DecidableEq, Repr

def CasedName.of (locale : Locale) (aStr : Str) : CasedName := ⟨aStr, Text.toLower locale aStr⟩

/-- `ShareDirectory::File` -/
structure SharedFile where
  address : Nat
  name : CasedName
  size : Int
  lastWrite : Int
  tth : TTHValue

/-- `ShareRoot` -/
structure DirectoryRoot where
  path : Str
  virtualName : CasedName
  rootProfiles : ProfileTokenSet
  incoming : Bool
  cacheDirty : Bool := false

/-- `ShareDirectory`, without its subdirectories. -/
structure ShareNode where
  address : Nat
  realName : CasedName
  root : Option DirectoryRoot := none
  lastWrite : Int
  size : Int := 0
  files : List SharedFile := []

/-- The maps, and the size that is counted with them. `allocated` is the next free address. -/
structure ShareIndexes where
  lowerDirNameMap : List (Str × Nat) := []
  tthIndex : List (TTHValue × Nat) := []
  sharedSize : Int := 0
  bloom : ShareBloom
  allocated : Nat := 0

namespace ShareNode

def getVirtualNameLower (d : ShareNode) : Str :=
  match d.root with
  | some root => root.virtualName.lower
  | none => d.realName.lower

def isRoot (d : ShareNode) : Bool := d.root.isSome

end ShareNode

namespace ShareIndexes

/-- `aBloom.add` -/
def addBloom (m : ShareIndexes) (s : Str) : ShareIndexes :=
  { m with bloom := (m.bloom.add s).getD m.bloom }

def addDirName (aDir : ShareNode) (m : ShareIndexes) : ShareIndexes :=
  { m with lowerDirNameMap := (aDir.getVirtualNameLower, aDir.address) :: m.lowerDirNameMap
    }.addBloom aDir.getVirtualNameLower

/-- `removeDirName` of a directory that has an entry. -/
def removeDirName (aDir : ShareNode) (m : ShareIndexes) : ShareIndexes :=
  { m with
    lowerDirNameMap := m.lowerDirNameMap.erase (aDir.getVirtualNameLower, aDir.address) }

/-- `File::updateIndices`, without the size of the parent. -/
def updateIndices (f : SharedFile) (m : ShareIndexes) : ShareIndexes :=
  { m with
    sharedSize := m.sharedSize + f.size
    tthIndex := (f.tth, f.address) :: m.tthIndex }.addBloom f.name.lower

/-- `File::cleanIndices`, without the size of the parent. -/
def cleanFile (m : ShareIndexes) (f : SharedFile) : ShareIndexes :=
  { m with sharedSize := m.sharedSize - f.size, tthIndex := m.tthIndex.erase (f.tth, f.address) }

/-- What `cleanIndices` does for the directory itself. -/
def cleanNode (d : ShareNode) (m : ShareIndexes) : ShareIndexes :=
  d.files.foldl cleanFile (m.removeDirName d)

mutual

/-- `cleanIndices`: the subdirectories first. -/
def cleanIndices : RoseTree ShareNode → ShareIndexes → ShareIndexes
  | .node d directories, m => (cleanDirectories directories m).cleanNode d

def cleanDirectories : List (RoseTree ShareNode) → ShareIndexes → ShareIndexes
  | [], m => m
  | c :: directories, m => cleanDirectories directories (cleanIndices c m)

end

/-- Memory is taken for a directory or file, which gets the address `allocated`. -/
def allocate (m : ShareIndexes) : ShareIndexes := { m with allocated := m.allocated + 1 }

end ShareIndexes

open ShareIndexes

namespace ShareNode

/-- `files.insert_sorted` and `increaseSize` -/
def insertFile (f : SharedFile) (d : ShareNode) : ShareNode :=
  { d with
    size := d.size + f.size
    files := d.files.orderedInsert (fun f g => f.name.lower ≤ g.name.lower) f }

/-- `files.erase` and `decreaseSize` -/
def eraseFile (old : SharedFile) (d : ShareNode) : ShareNode :=
  { d with size := d.size - old.size, files := d.files.eraseP (·.name.lower == old.name.lower) }

def newFile (aName : CasedName) (aFileInfo : HashedFile) (address : Nat) : SharedFile :=
  { address, name := aName, size := aFileInfo.size, lastWrite := aFileInfo.timeStamp,
    tth := aFileInfo.root }

def addNewFile (aName : CasedName) (aFileInfo : HashedFile) (d : ShareNode) (m : ShareIndexes) :
    ShareNode × ShareIndexes :=
  let file := newFile aName aFileInfo m.allocated
  (d.insertFile file, m.allocate.updateIndices file)

/-- `addFile`: a file with the name is replaced. -/
def addFile (aName : CasedName) (aFileInfo : HashedFile) (d : ShareNode) (m : ShareIndexes) :
    ShareNode × ShareIndexes :=
  match d.files.find? (·.name.lower == aName.lower) with
  | none => d.addNewFile aName aFileInfo m
  | some old => (d.eraseFile old).addNewFile aName aFileInfo (m.cleanFile old)

end ShareNode

/-! ## What the filter matches -/

/-- A filter that matches as much, and maybe more. -/
structure Grows (b b' : ShareBloom) : Prop where
  length : b'.table.length = b.table.length
  matches_ : ∀ w, b.match_ w = some true → b'.match_ w = some true

theorem Grows.refl (b : ShareBloom) : Grows b b := ⟨rfl, fun _ => id⟩

theorem Grows.trans {b b' b'' : ShareBloom} (h : Grows b b') (h' : Grows b' b'') : Grows b b'' :=
  ⟨h'.length.trans h.length, fun w hw => h'.matches_ w (h.matches_ w hw)⟩

theorem match_iff {b : ShareBloom} (hb : 0 < b.table.length) (s : Str) :
    b.match_ s = some true ↔ ∀ w ∈ BloomFilter.windows 5 s, b.HasWindow w := by
  obtain ⟨r, hr, hiff⟩ := BloomFilter.match_spec hb s
  rw [hr, Option.some.injEq]
  exact hiff

namespace ShareIndexes

variable {m m' : ShareIndexes} {L L' : List ShareNode} {d d' : ShareNode} {locale : Locale}

theorem grows_addBloom (hb : 0 < m.bloom.table.length) (s : Str) :
    Grows m.bloom (m.addBloom s).bloom ∧ (m.addBloom s).bloom.match_ s = some true := by
  obtain ⟨b, hadd, hlength, hhas⟩ := BloomFilter.add_spec hb s
  have hbloom : (m.addBloom s).bloom = b := by rw [addBloom, hadd, Option.getD_some]
  have hwindow : ∀ w, m.bloom.HasWindow w ∨ w ∈ BloomFilter.windows 5 s → b.HasWindow w := by
    intro w hw
    rw [BloomFilter.HasWindow, hhas, hlength]
    rcases hw with hw | hw
    · exact .inl hw
    · exact .inr ⟨w, hw, rfl⟩
  have hb' : 0 < b.table.length := by rwa [hlength]
  rw [hbloom]
  refine ⟨⟨hlength, fun w hw => ?_⟩, ?_⟩
  · rw [match_iff hb] at hw
    rw [match_iff hb']
    exact fun x hx => hwindow x (.inl (hw x hx))
  · rw [match_iff hb']
    exact fun x hx => hwindow x (.inr hx)

end ShareIndexes

/-! ## The indexes of a list of directories -/

namespace ShareNode

/-- The entries of the files. -/
def entries (d : ShareNode) : List (TTHValue × Nat) := d.files.map fun f => (f.tth, f.address)

/-- The filter matches the names. -/
structure Covered (d : ShareNode) (b : ShareBloom) : Prop where
  name : b.match_ d.getVirtualNameLower = some true
  files : ∀ f ∈ d.files, b.match_ f.name.lower = some true

theorem Covered.grows {b b' : ShareBloom} {d : ShareNode} (h : d.Covered b) (hb : Grows b b') :
    d.Covered b' := ⟨hb.matches_ _ h.name, fun f hf => hb.matches_ _ (h.files f hf)⟩

/-- A directory with the same entries. -/
structure SameEntries (d d' : ShareNode) : Prop where
  address : d'.address = d.address
  name : d'.getVirtualNameLower = d.getVirtualNameLower
  size : d'.size = d.size
  files : d'.files = d.files

theorem SameEntries.refl (d : ShareNode) : SameEntries d d := ⟨rfl, rfl, rfl, rfl⟩

end ShareNode

namespace ShareIndexes

open ShareNode

/-- **The indexes describe the directories**: an entry for each of them and each of their files, the
    sizes, and a filter that matches all names. -/
structure Describes (m : ShareIndexes) (L : List ShareNode) : Prop where
  dirNames : m.lowerDirNameMap.Perm (L.map fun d => (d.getVirtualNameLower, d.address))
  files : m.tthIndex.Perm (L.flatMap entries)
  size : m.sharedSize = (L.map (·.size)).sum
  levels : ∀ d ∈ L, d.size = (d.files.map (·.size)).sum
  table : 0 < m.bloom.table.length
  covered : ∀ d ∈ L, d.Covered m.bloom

variable {m m' : ShareIndexes} {L L' : List ShareNode} {d d' : ShareNode}

theorem describes_nil {b : ShareBloom} (hb : 0 < b.table.length) :
    Describes { bloom := b } [] :=
  ⟨List.Perm.refl _, List.Perm.refl _, rfl, nofun, hb, nofun⟩

theorem Describes.perm (h : Describes m L) (hp : L.Perm L') : Describes m L' where
  dirNames := h.dirNames.trans (hp.map _)
  files := h.files.trans (hp.flatMap_right _)
  size := h.size.trans (hp.map _).sum_eq
  levels d hd := h.levels d (hp.mem_iff.mpr hd)
  table := h.table
  covered d hd := h.covered d (hp.mem_iff.mpr hd)

/-- The filter may grow, and memory be taken. -/
theorem Describes.grows (h : Describes m L) (hnames : m'.lowerDirNameMap = m.lowerDirNameMap)
    (hfiles : m'.tthIndex = m.tthIndex) (hsize : m'.sharedSize = m.sharedSize)
    (hb : Grows m.bloom m'.bloom) : Describes m' L where
  dirNames := hnames ▸ h.dirNames
  files := hfiles ▸ h.files
  size := hsize ▸ h.size
  levels := h.levels
  table := hb.length ▸ h.table
  covered d hd := (h.covered d hd).grows hb

/-- A directory is replaced by one with the same entries. -/
theorem Describes.replace (h : Describes m (d :: L)) (hd : SameEntries d d') :
    Describes m (d' :: L) where
  dirNames := by
    rw [List.map_cons, hd.name, hd.address]
    exact h.dirNames
  files := by
    rw [List.flatMap_cons, entries, hd.files]
    exact h.files
  size := by
    rw [List.map_cons, hd.size]
    exact h.size
  levels := by
    rw [List.forall_mem_cons, hd.size, hd.files]
    exact List.forall_mem_cons.mp h.levels
  table := h.table
  covered := by
    obtain ⟨hone, hall⟩ := List.forall_mem_cons.mp h.covered
    exact List.forall_mem_cons.mpr ⟨⟨hd.name ▸ hone.name, hd.files ▸ hone.files⟩, hall⟩

/-- All of them are replaced. -/
theorem Describes.replaceAll (hL : List.Forall₂ SameEntries L L') {K : List ShareNode}
    (h : Describes m (L ++ K)) : Describes m (L' ++ K) := by
  induction hL generalizing K with
  | nil => exact h
  | @cons d d' L L' hd hL ih =>
    have hone : Describes m (d' :: (L ++ K)) := h.replace hd
    exact (ih (hone.perm List.perm_middle.symm)).perm List.perm_middle

/-! ## Directories -/

theorem grows_addDirName (hb : 0 < m.bloom.table.length) (d : ShareNode) :
    Grows m.bloom (addDirName d m).bloom ∧
      (addDirName d m).bloom.match_ d.getVirtualNameLower = some true :=
  grows_addBloom (m := { m with
    lowerDirNameMap := (d.getVirtualNameLower, d.address) :: m.lowerDirNameMap }) hb _

/-- A directory without files is added. -/
theorem Describes.addDirName (h : Describes m L) (hfiles : d.files = []) (hsize : d.size = 0) :
    Describes (addDirName d m) (d :: L) := by
  obtain ⟨hgrows, hmatch⟩ := grows_addDirName h.table d
  have hentries : d.entries = [] := by rw [entries, hfiles, List.map_nil]
  exact
    { dirNames := h.dirNames.cons _
      files := by
        rw [List.flatMap_cons, hentries, List.nil_append]
        exact h.files
      size := by
        rw [List.map_cons, List.sum_cons, hsize, zero_add]
        exact h.size
      levels := List.forall_mem_cons.mpr ⟨by rw [hsize, hfiles]; rfl, h.levels⟩
      table := hgrows.length ▸ h.table
      covered := List.forall_mem_cons.mpr ⟨⟨hmatch, by rw [hfiles]; nofun⟩,
        fun c hc => (h.covered c hc).grows hgrows⟩ }

theorem removeDirName_perm {l : List (Str × Nat)}
    (h : m.lowerDirNameMap.Perm ((d.getVirtualNameLower, d.address) :: l)) :
    (removeDirName d m).lowerDirNameMap.Perm l := by
  have herase := h.erase (d.getVirtualNameLower, d.address)
  rwa [List.erase_cons_head] at herase

/-- A directory gets another name. -/
theorem Describes.rename (h : Describes m (d :: L)) (hsize : d'.size = d.size)
    (hfiles : d'.files = d.files) :
    Describes (ShareIndexes.addDirName d' (removeDirName d m)) (d' :: L) := by
  obtain ⟨hgrows, hmatch⟩ := grows_addDirName (m := removeDirName d m) h.table d'
  obtain ⟨hone, hall⟩ := List.forall_mem_cons.mp h.covered
  exact
    { dirNames := (removeDirName_perm h.dirNames).cons _
      files := by
        rw [List.flatMap_cons, entries, hfiles]
        exact h.files
      size := by
        rw [List.map_cons, hsize]
        exact h.size
      levels := by
        rw [List.forall_mem_cons, hsize, hfiles]
        exact List.forall_mem_cons.mp h.levels
      table := hgrows.length ▸ h.table
      covered := List.forall_mem_cons.mpr
        ⟨⟨hmatch, by rw [hfiles]; exact fun f hf => hgrows.matches_ _ (hone.files f hf)⟩,
          fun c hc => (hall c hc).grows hgrows⟩ }

/-! ## Subtrees that are taken out -/

/-- The files of a directory are taken out, and nothing else. -/
theorem cleanFiles_spec (files : List SharedFile) {l : List (TTHValue × Nat)}
    (h : m.tthIndex.Perm (files.map (fun f => (f.tth, f.address)) ++ l)) :
    (files.foldl cleanFile m).tthIndex.Perm l ∧
      (files.foldl cleanFile m).sharedSize = m.sharedSize - (files.map (·.size)).sum ∧
      (files.foldl cleanFile m).lowerDirNameMap = m.lowerDirNameMap ∧
      (files.foldl cleanFile m).bloom = m.bloom := by
  induction files generalizing m with
  | nil => exact ⟨h, by rw [List.map_nil, List.sum_nil, Int.sub_zero]; rfl, rfl, rfl⟩
  | cons f files ih =>
    have herase : (m.cleanFile f).tthIndex.Perm
        (files.map (fun f => (f.tth, f.address)) ++ l) := by
      have hp := h.erase (f.tth, f.address)
      rwa [List.map_cons, List.cons_append, List.erase_cons_head] at hp
    obtain ⟨htth, hsize, hnames, hbloom⟩ := ih herase
    refine ⟨htth, ?_, hnames, hbloom⟩
    rw [List.foldl_cons, hsize, List.map_cons, List.sum_cons]
    show m.sharedSize - f.size - _ = _
    omega

theorem Describes.cleanNode (h : Describes m (d :: L)) : Describes (cleanNode d m) L := by
  obtain ⟨htth, hsize, hnames, hbloom⟩ :=
    cleanFiles_spec (m := removeDirName d m) d.files h.files
  have hlevels := List.forall_mem_cons.mp h.levels
  exact
    { dirNames := by
        rw [ShareIndexes.cleanNode, hnames]
        exact removeDirName_perm h.dirNames
      files := htth
      size := by
        have htotal := h.size
        rw [List.map_cons, List.sum_cons, hlevels.1] at htotal
        rw [ShareIndexes.cleanNode, hsize]
        show m.sharedSize - _ = _
        omega
      levels := hlevels.2
      table := by
        rw [ShareIndexes.cleanNode, hbloom]
        exact h.table
      covered := by
        rw [ShareIndexes.cleanNode, hbloom]
        exact (List.forall_mem_cons.mp h.covered).2 }

mutual

/-- **A subtree is taken out**, and the indexes describe the rest. -/
theorem Describes.cleanIndices : ∀ {t : RoseTree ShareNode} {m : ShareIndexes}
    {L : List ShareNode}, Describes m (t.values ++ L) → Describes (cleanIndices t m) L
  | .node d directories, m, L, h => by
    rw [RoseTree.values_node, List.cons_append] at h
    rw [ShareIndexes.cleanIndices]
    exact (h.perm List.perm_middle.symm).cleanDirectories.cleanNode

theorem Describes.cleanDirectories : ∀ {directories : List (RoseTree ShareNode)}
    {m : ShareIndexes} {L : List ShareNode}, Describes m (RoseTree.allValues directories ++ L) →
      Describes (cleanDirectories directories m) L
  | [], m, L, h => by
    rw [ShareIndexes.cleanDirectories]
    exact h
  | c :: directories, m, L, h => by
    rw [RoseTree.allValues_cons, List.append_assoc] at h
    rw [ShareIndexes.cleanDirectories]
    exact h.cleanIndices.cleanDirectories

end

/-! ## Files -/

theorem grows_updateIndices (hb : 0 < m.bloom.table.length) (f : SharedFile) :
    Grows m.bloom (updateIndices f m).bloom ∧
      (updateIndices f m).bloom.match_ f.name.lower = some true :=
  grows_addBloom (m := { m with
    sharedSize := m.sharedSize + f.size
    tthIndex := (f.tth, f.address) :: m.tthIndex }) hb _

/-- A file is taken out of its directory. -/
theorem Describes.eraseFile (h : Describes m (d :: L)) {old : SharedFile} {name : Str}
    (hold : d.files.find? (·.name.lower == name) = some old) :
    Describes (m.cleanFile old) (d.eraseFile old :: L) := by
  have hname : old.name.lower = name := by simpa using List.find?_some hold
  have hperm : d.files.Perm (old :: (d.eraseFile old).files) := by
    rw [ShareNode.eraseFile, hname]
    exact perm_cons_eraseP hold
  obtain ⟨hone, hall⟩ := List.forall_mem_cons.mp h.covered
  obtain ⟨hlevel, hlevels⟩ := List.forall_mem_cons.mp h.levels
  have hsum := (hperm.map (·.size)).sum_eq
  rw [List.map_cons, List.sum_cons] at hsum
  have hsize := h.size
  rw [List.map_cons, List.sum_cons] at hsize
  have hleft : (d.eraseFile old).size = d.size - old.size := rfl
  exact
    { dirNames := h.dirNames
      files := by
        have hentries : m.tthIndex.Perm ((old.tth, old.address) ::
            ((d.eraseFile old).entries ++ L.flatMap entries)) := by
          refine h.files.trans ?_
          rw [List.flatMap_cons]
          exact (hperm.map _).append_right _
        have herase := hentries.erase (old.tth, old.address)
        rwa [List.erase_cons_head] at herase
      size := by
        rw [List.map_cons, List.sum_cons, hleft]
        show m.sharedSize - old.size = _
        omega
      levels := List.forall_mem_cons.mpr ⟨by rw [hleft]; omega, hlevels⟩
      table := h.table
      covered := List.forall_mem_cons.mpr
        ⟨⟨hone.name, fun f hf => hone.files f (List.mem_of_mem_eraseP hf)⟩, hall⟩ }

/-- A file is added to its directory. -/
theorem Describes.insertFile (h : Describes m (d :: L)) (f : SharedFile) :
    Describes (updateIndices f m) (d.insertFile f :: L) := by
  have hperm : (d.insertFile f).files.Perm (f :: d.files) :=
    List.perm_orderedInsert (fun f g : SharedFile => f.name.lower ≤ g.name.lower) f d.files
  obtain ⟨hgrows, hmatch⟩ := grows_updateIndices h.table f
  obtain ⟨hone, hall⟩ := List.forall_mem_cons.mp h.covered
  obtain ⟨hlevel, hlevels⟩ := List.forall_mem_cons.mp h.levels
  have hsum := (hperm.map (·.size)).sum_eq
  rw [List.map_cons, List.sum_cons] at hsum
  have hsize := h.size
  rw [List.map_cons, List.sum_cons] at hsize
  have hmore : (d.insertFile f).size = d.size + f.size := rfl
  exact
    { dirNames := h.dirNames
      files := by
        refine (h.files.cons (f.tth, f.address)).trans ?_
        rw [List.flatMap_cons, List.flatMap_cons, ← List.cons_append]
        exact ((hperm.map fun f => (f.tth, f.address)).append_right _).symm
      size := by
        rw [List.map_cons, List.sum_cons, hmore]
        show m.sharedSize + f.size = _
        omega
      levels := List.forall_mem_cons.mpr ⟨by rw [hmore]; omega, hlevels⟩
      table := hgrows.length ▸ h.table
      covered := List.forall_mem_cons.mpr
        ⟨⟨hgrows.matches_ _ hone.name, fun g hg => by
            rcases List.mem_cons.mp (hperm.mem_iff.mp hg) with rfl | hg
            · exact hmatch
            · exact hgrows.matches_ _ (hone.files g hg)⟩,
          fun c hc => (hall c hc).grows hgrows⟩ }

variable {aName : CasedName} {aFileInfo : HashedFile}

theorem Describes.allocate (h : Describes m L) : Describes m.allocate L :=
  h.grows rfl rfl rfl (Grows.refl _)

/-- **A file is added or replaced.** -/
theorem Describes.addFile (h : Describes m (d :: L)) :
    Describes (d.addFile aName aFileInfo m).2 ((d.addFile aName aFileInfo m).1 :: L) := by
  unfold ShareNode.addFile
  cases hold : d.files.find? (·.name.lower == aName.lower) with
  | none => exact h.allocate.insertFile _
  | some old => exact (h.eraseFile hold).allocate.insertFile _

theorem grows_addFile (hb : 0 < m.bloom.table.length) :
    Grows m.bloom (d.addFile aName aFileInfo m).2.bloom := by
  unfold ShareNode.addFile
  cases d.files.find? (·.name.lower == aName.lower) with
  | none => exact (grows_updateIndices (m := m.allocate) hb _).1
  | some old => exact (grows_updateIndices (m := (m.cleanFile old).allocate) hb _).1

mutual

theorem bloom_cleanIndices : ∀ (t : RoseTree ShareNode) (m : ShareIndexes),
    (cleanIndices t m).bloom = m.bloom
  | .node d directories, m => by
    rw [cleanIndices, cleanNode]
    have hfold : ∀ (files : List SharedFile) (m : ShareIndexes),
        (files.foldl cleanFile m).bloom = m.bloom := by
      intro files
      induction files with
      | nil => exact fun _ => rfl
      | cons f files ih => exact fun m => ih (m.cleanFile f)
    rw [hfold]
    exact bloom_cleanDirectories directories m

theorem bloom_cleanDirectories : ∀ (directories : List (RoseTree ShareNode)) (m : ShareIndexes),
    (cleanDirectories directories m).bloom = m.bloom
  | [], m => by rw [cleanDirectories]
  | c :: directories, m => by
    rw [cleanDirectories, bloom_cleanDirectories directories, bloom_cleanIndices c]

end

/-! ## Two sets of indexes -/

/-- The filter and the memory are shared. -/
def within (m shared : ShareIndexes) : ShareIndexes :=
  { m with bloom := shared.bloom, allocated := shared.allocated }

/-- What a refresh has found is added to the maps. -/
def merge (m m' : ShareIndexes) : ShareIndexes :=
  { m with
    lowerDirNameMap := m.lowerDirNameMap ++ m'.lowerDirNameMap
    tthIndex := m.tthIndex ++ m'.tthIndex
    sharedSize := m.sharedSize + m'.sharedSize }

theorem Describes.merge (h : Describes m L) (h' : Describes m' L')
    (hb : Grows m'.bloom m.bloom) : Describes (m.merge m') (L ++ L') where
  dirNames := by
    rw [List.map_append]
    exact h.dirNames.append h'.dirNames
  files := by
    rw [List.flatMap_append]
    exact h.files.append h'.files
  size := by
    rw [List.map_append, List.sum_append, ← h.size, ← h'.size]
    rfl
  levels d hd := (List.mem_append.mp hd).elim (h.levels d) (h'.levels d)
  table := h.table
  covered d hd := (List.mem_append.mp hd).elim (h.covered d) fun hd => (h'.covered d hd).grows hb

end ShareIndexes

end Airdcpp
