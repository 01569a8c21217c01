import Airdcpp.Share.ShareTree

/-!
# `Share/TreeIndexes` — the indexes always describe the shared directories

`nodes` are all directories that the root paths lead to. Every operation of `Share/ShareTree` changes
the directories at one place, and the indexes with them (`Inv.modify`): a directory gets a
subdirectory or a file, loses a subtree, or is replaced. So the indexes are those of the directories
after every run (`indexes_describe`), with refreshes under way that have indexes of their own.

The one thing that is asked of a run is that a directory that was refreshed is still where it was
when its refresh began, or that its root is gone (`InPlace`). If its root has been removed and added
again meanwhile, or a refresh of a directory above it has ended first, `applyRefreshChanges` takes
the entries of the old directory out for a second time.
-/

namespace Airdcpp

open Lib RoseTree ShareIndexes DirectoryTree

variable {locale : Locale}

/-! ## What is built -/

/-- A directory that keeps its name and its root. -/
structure SameHead (d d' : DirectoryTree) : Prop where
  realName : d'.value.realName = d.value.realName
  root : d'.value.root = d.value.root

theorem SameHead.refl (d : DirectoryTree) : SameHead d d := ⟨rfl, rfl⟩

theorem SameHead.trans {d d' d'' : DirectoryTree} (h : SameHead d d') (h' : SameHead d' d'') :
    SameHead d d'' := ⟨h'.realName.trans h.realName, h'.root.trans h.root⟩

namespace DirectoryTree

variable {d p p' c : DirectoryTree} {m m' : ShareIndexes} {L : List ShareNode}

theorem insertDirectory_of_missing
    (h : (p.children.any fun c => c.value.nameLower == d.value.nameLower) = false) :
    ∃ p', insertDirectory d p = some p' ∧ SameHead p p' ∧
      p'.values.Perm (d.values ++ p.values) := by
  refine ⟨node p.value (p.children.orderedInsert
    (fun c d => c.value.nameLower ≤ d.value.nameLower) d), ?_, ⟨rfl, rfl⟩, ?_⟩
  · rw [insertDirectory, h, if_neg Bool.false_ne_true]
  rw [values_node, values_eq p]
  refine ((allValues_perm (List.perm_orderedInsert _ d p.children)).cons _).trans ?_
  rw [allValues_cons]
  exact List.perm_middle.symm

theorem insertDirectory_some (h : insertDirectory d p = some p') :
    SameHead p p' ∧ p'.values.Perm (d.values ++ p.values) := by
  cases hany : p.children.any fun c => c.value.nameLower == d.value.nameLower with
  | true =>
    rw [insertDirectory, hany] at h
    cases h
  | false =>
    obtain ⟨q, hq, hrest⟩ := insertDirectory_of_missing hany
    obtain rfl := Option.some.inj (hq.symm.trans h)
    exact hrest

theorem new_values (aRealName : CasedName) (aLastWrite : Int) (address : Nat) :
    (DirectoryTree.new aRealName aLastWrite address).values =
      [{ address, realName := aRealName, lastWrite := aLastWrite }] := by
  rw [DirectoryTree.new, values_node, allValues_nil]

/-- A new directory and its entry. -/
theorem describes_new (h : Describes m L) (aRealName : CasedName) (aLastWrite : Int) :
    Describes (addDirName (DirectoryTree.new aRealName aLastWrite m.allocated).value m.allocate)
      ((DirectoryTree.new aRealName aLastWrite m.allocated).values ++ L) := by
  rw [new_values]
  exact h.allocate.addDirName rfl rfl

/-- The value of the root changes. -/
theorem describes_node (h : Describes m (d.values ++ L)) {v : ShareNode}
    (hv : ∀ K, Describes m (d.value :: K) → Describes m' (v :: K)) :
    Describes m' ((node v d.children).values ++ L) := by
  rw [values_eq d, List.cons_append] at h
  rw [values_node, List.cons_append]
  exact hv _ h

end DirectoryTree

namespace DiskItem

/-- What building keeps: the indexes are those of what is built, beside other directories. -/
structure Built (s s' : DirectoryTree × ShareIndexes) : Prop where
  head : SameHead s.1 s'.1
  describes : ∀ L, Describes s.2 (s.1.values ++ L) → Describes s'.2 (s'.1.values ++ L)
  grows : 0 < s.2.bloom.table.length → Grows s.2.bloom s'.2.bloom

variable {s s' s'' : DirectoryTree × ShareIndexes}

theorem Built.refl (s : DirectoryTree × ShareIndexes) : Built s s :=
  ⟨SameHead.refl _, fun _ => id, fun _ => Grows.refl _⟩

theorem Built.trans (h : Built s s') (h' : Built s' s'') : Built s s'' where
  head := h.head.trans h'.head
  describes L hd := h'.describes L (h.describes L hd)
  grows hb := (h.grows hb).trans (h'.grows ((h.grows hb).length ▸ hb))

theorem built_file (d : DirectoryTree) (m : ShareIndexes) (aName : CasedName) (fi : HashedFile) :
    Built (d, m) (node (d.value.addFile aName fi m).1 d.children,
      (d.value.addFile aName fi m).2) where
  head := by
    unfold ShareNode.addFile
    cases d.value.files.find? (·.name.lower == aName.lower) with
    | none => exact ⟨rfl, rfl⟩
    | some old => exact ⟨rfl, rfl⟩
  describes L h := describes_node h fun _ h => h.addFile
  grows := grows_addFile

mutual

/-- **One item of the disk.** -/
theorem build_built (skipEmptyDirs : Bool) : ∀ (item : DiskItem) (s : DirectoryTree × ShareIndexes),
    Built s (item.build locale skipEmptyDirs s)
  | directory name lastWriteTime valid items, (aParent, m) => by
    rw [DiskItem.build]
    dsimp only
    split
    · exact Built.refl _
    · rename_i hvalid
      rw [Bool.or_eq_true, not_or, Bool.not_eq_true, Bool.not_eq_true] at hvalid
      have hbuilt := buildTree_built skipEmptyDirs items
        (DirectoryTree.new (CasedName.of locale name) lastWriteTime m.allocated,
          addDirName (DirectoryTree.new (CasedName.of locale name) lastWriteTime m.allocated).value
            m.allocate)
      generalize DiskItem.buildTree locale skipEmptyDirs items _ = built at hbuilt ⊢
      have hdescribes : ∀ L, Describes m (aParent.values ++ L) →
          Describes built.2 (built.1.values ++ (aParent.values ++ L)) :=
        fun L hd => hbuilt.describes _ (describes_new hd _ _)
      have hgrows : 0 < m.bloom.table.length → Grows m.bloom built.2.bloom := by
        intro hb
        have hnew := (grows_addDirName (m := m.allocate) hb
          (DirectoryTree.new (CasedName.of locale name) lastWriteTime m.allocated).value).1
        exact hnew.trans (hbuilt.grows (hnew.length ▸ hb))
      split
      · exact
          { head := SameHead.refl _
            describes := fun L hd => (hdescribes L hd).cleanIndices
            grows := fun hb => by
              rw [bloom_cleanIndices]
              exact hgrows hb }
      · have hmissing : (aParent.children.any
            fun c => c.value.nameLower == built.1.value.nameLower) = false := by
          rw [ShareNode.nameLower, hbuilt.head.realName]
          exact hvalid.2
        obtain ⟨p', hp', hhead, hperm⟩ := insertDirectory_of_missing hmissing
        rw [hp', Option.getD_some]
        refine ⟨hhead, fun L hd => (hdescribes L hd).perm ?_, hgrows⟩
        rw [← List.append_assoc]
        exact (hperm.append_right L).symm
  | file name valid info, (aParent, m) => by
    cases info with
    | none =>
      rw [DiskItem.build]
      exact Built.refl _
    | some fi =>
      rw [DiskItem.build]
      split
      · exact built_file aParent m _ fi
      · exact Built.refl _

theorem buildTree_built (skipEmptyDirs : Bool) : ∀ (items : List DiskItem)
    (s : DirectoryTree × ShareIndexes), Built s (DiskItem.buildTree locale skipEmptyDirs items s)
  | [], s => by
    rw [DiskItem.buildTree]
    exact Built.refl s
  | item :: items, s => by
    rw [DiskItem.buildTree]
    split
    · exact Built.refl s
    · exact (build_built skipEmptyDirs item s).trans (buildTree_built skipEmptyDirs items _)

end

end DiskItem

namespace ShareTree

variable {t t' : ShareTree} {p : DirectoryPlace} {d : DirectoryTree} {m m' : ShareIndexes}
  {f : DirectoryTree → DirectoryTree} {path : Str}

/-! ## Places -/

/-- All directories that the root paths lead to. -/
def nodes (t : ShareTree) : List ShareNode := t.rootPaths.flatMap fun e => e.2.values

/-- The key of the path of a root. -/
def pathKey (locale : Locale) (d : DirectoryTree) : Option (List Nat) :=
  d.value.root.map fun root => Util.foldCase locale root.path

/-- No two roots have the same key, and a root knows the path that leads to it. -/
structure Rooted (locale : Locale) (l : List (Str × DirectoryTree)) : Prop where
  keys : (l.map (rootKey locale)).Nodup
  paths : ∀ e ∈ l, pathKey locale e.2 = some (rootKey locale e)

theorem findRoot_eq_some (h : t.findRoot locale path = some d) :
    ∃ e ∈ t.rootPaths, rootKey locale e = Util.foldCase locale path ∧ e.2 = d := by
  obtain ⟨e, he, hd⟩ := Option.map_eq_some_iff.mp h
  exact ⟨e, List.mem_of_find?_eq_some he, by simpa using List.find?_some he, hd⟩

theorem findRoot_eq_none (h : t.findRoot locale path = none) :
    ∀ e ∈ t.rootPaths, rootKey locale e ≠ Util.foldCase locale path := by
  have hnone := Option.map_eq_none_iff.mp h
  intro e he
  simpa using List.find?_eq_none.mp hnone e he

theorem modifyRoot_of_none (h : t.findRoot locale path = none) :
    t.modifyRoot locale path f = t := by
  rw [modifyRoot, Keyed.modify_of_notMem (findRoot_eq_none h)]

theorem modifyAt_of_none {names : List Str} (h : at? ShareNode.nameLower names d = none) :
    modifyAt ShareNode.nameLower names f d = d := by
  refine Eq.trans (modifyAt_congr fun v hv => ?_) (modifyAt_id names d)
  rw [h] at hv
  cases hv

theorem entry_unique (h : Rooted locale t.rootPaths) {e x : Str × DirectoryTree}
    (he : e ∈ t.rootPaths) (hx : x ∈ t.rootPaths) (hkey : rootKey locale x = rootKey locale e) :
    x = e := List.inj_on_of_nodup_map h.keys hx he hkey

/-- A change at a place that is not there changes nothing. -/
theorem modify_of_none (h : Rooted locale t.rootPaths) (hp : t.at_ locale p = none) :
    t.modify locale p f = t := by
  cases hroot : t.findRoot locale p.rootPath with
  | none => exact modifyRoot_of_none hroot
  | some d =>
    have hnone : at? ShareNode.nameLower p.names d = none := by
      rwa [at_, hroot, Option.bind_some] at hp
    obtain ⟨e, he, hkey, rfl⟩ := findRoot_eq_some hroot
    have hsame : ∀ x ∈ t.rootPaths, (if rootKey locale x = Util.foldCase locale p.rootPath then
        (x.1, modifyAt ShareNode.nameLower p.names f x.2) else x) = x := by
      intro x hx
      split
      · rename_i hxkey
        rw [entry_unique h he hx (hxkey.trans hkey.symm), modifyAt_of_none hnone]
      · rfl
    rw [modify, modifyRoot, Keyed.modify, List.map_congr_left hsame, List.map_id']

/-- The root of a place, and the directory below it. -/
theorem at_eq_some (hp : t.at_ locale p = some d) :
    ∃ e ∈ t.rootPaths, rootKey locale e = Util.foldCase locale p.rootPath ∧
      at? ShareNode.nameLower p.names e.2 = some d := by
  obtain ⟨root, hroot, hd⟩ := Option.bind_eq_some_iff.mp hp
  obtain ⟨e, he, hkey, rfl⟩ := findRoot_eq_some hroot
  exact ⟨e, he, hkey, hd⟩

/-- **The directories beside those at a place** stay when the place changes. -/
theorem exists_rest_of_at (h : Rooted locale t.rootPaths) (hp : t.at_ locale p = some d) :
    ∃ rest, t.nodes.Perm (d.values ++ rest) ∧
      ∀ f, (t.modify locale p f).nodes.Perm ((f d).values ++ rest) := by
  obtain ⟨e, he, hkey, hd⟩ := at_eq_some hp
  obtain ⟨rest, hrest, hmodify⟩ := exists_rest hd
  have hothers := Keyed.remove_perm h.keys he
  refine ⟨rest ++ (Keyed.remove (rootKey locale) (rootKey locale e) t.rootPaths).flatMap
    fun e => e.2.values, ?_, fun f => ?_⟩
  · refine (hothers.flatMap_right _).trans ?_
    rw [List.flatMap_cons, ← List.append_assoc]
    exact hrest.append_right _
  · have hperm := Keyed.modify_perm (f := fun e : Str × DirectoryTree =>
      (e.1, modifyAt ShareNode.nameLower p.names f e.2)) h.keys he
    rw [hkey] at hperm
    refine (hperm.flatMap_right _).trans ?_
    rw [List.flatMap_cons, ← List.append_assoc, hkey]
    exact (hmodify f).append_right _

theorem Rooted.modify (h : Rooted locale t.rootPaths) (hp : t.at_ locale p = some d)
    (hf : pathKey locale (f d) = pathKey locale d) :
    Rooted locale (t.modify locale p f).rootPaths where
  keys := by
    have hkeys : (Keyed.modify (rootKey locale) (Util.foldCase locale p.rootPath)
        (fun e => (e.1, modifyAt ShareNode.nameLower p.names f e.2)) t.rootPaths).map
          (rootKey locale) = t.rootPaths.map (rootKey locale) := by
      apply Keyed.map_key_modify
      intro x _
      rfl
    show (List.map (rootKey locale) (Keyed.modify _ _ _ t.rootPaths)).Nodup
    rw [hkeys]
    exact h.keys
  paths := by
    obtain ⟨e, he, hkey, hd⟩ := at_eq_some hp
    intro x hx
    obtain ⟨y, hy, rfl⟩ := List.mem_map.mp hx
    dsimp only
    split
    · rename_i hykey
      obtain rfl := entry_unique h he hy (hykey.trans hkey.symm)
      refine Eq.trans ?_ (h.paths y hy)
      cases hnames : p.names with
      | nil =>
        rw [hnames] at hd
        obtain rfl := Option.some.inj hd
        exact hf
      | cons name names => rfl
    · exact h.paths y hy

/-! ## The invariant -/

/-- A refresh of a root has a clone of it, and any other refresh a directory of its own. -/
structure Refreshing (locale : Locale) (shared : ShareIndexes) (ri : ShareRefreshInfo) : Prop where
  describes : Describes (ri.indexes.within shared) ri.newDirectory.values
  root : ∀ p, ri.optionalOldDirectory = some p → p.isRoot = true →
    ∃ path, ri.rootPaths = [path] ∧ Util.foldCase locale path = Util.foldCase locale p.rootPath ∧
      pathKey locale ri.newDirectory = some (Util.foldCase locale p.rootPath)
  other : (∀ p, ri.optionalOldDirectory = some p → p.isRoot = false) → ri.rootPaths = []

structure Inv (locale : Locale) (t : ShareTree) : Prop where
  rooted : Rooted locale t.rootPaths
  describes : Describes t.indexes t.nodes
  refreshing : ∀ r ∈ t.refreshes, Refreshing locale t.indexes r.2

theorem Refreshing.grows {ri : ShareRefreshInfo} (h : Refreshing locale m ri)
    (hb : Grows m.bloom m'.bloom) : Refreshing locale m' ri :=
  { h with describes := h.describes.grows rfl rfl rfl hb }

/-- **A change at one place**, and of the indexes. -/
theorem Inv.modify (h : Inv locale t) (hp : t.at_ locale p = some d)
    (hf : pathKey locale (f d) = pathKey locale d) (hgrows : Grows t.indexes.bloom m'.bloom)
    (hdescribes : ∀ rest, Describes t.indexes (d.values ++ rest) →
      Describes m' ((f d).values ++ rest)) :
    Inv locale { t.modify locale p f with indexes := m' } where
  rooted := h.rooted.modify hp hf
  describes := by
    obtain ⟨rest, hrest, hmodify⟩ := exists_rest_of_at h.rooted hp
    exact (hdescribes rest (h.describes.perm hrest)).perm (hmodify f).symm
  refreshing r hr := (h.refreshing r hr).grows hgrows

/-- A directory changes in what the indexes do not look at. -/
theorem Inv.modifyValue (h : Inv locale t) (p : DirectoryPlace) {g : ShareNode → ShareNode}
    (hg : ∀ d, ShareNode.SameEntries d (g d))
    (hpath : ∀ d : DirectoryTree, pathKey locale (mapValue g d) = pathKey locale d) :
    Inv locale (t.modify locale p (RoseTree.mapValue g)) := by
  cases hp : t.at_ locale p with
  | none =>
    rw [modify_of_none h.rooted hp]
    exact h
  | some d =>
    have hmodified : Inv locale { t.modify locale p (RoseTree.mapValue g) with
        indexes := t.indexes } := by
      refine h.modify hp (hpath d) (Grows.refl _) fun rest hd => ?_
      exact describes_node hd fun _ h => h.replace (hg _)
    exact hmodified

/-- The root of a directory changes, and not its path. -/
theorem pathKey_mapRoot {g : DirectoryRoot → DirectoryRoot} (hg : ∀ root, (g root).path = root.path)
    (d : DirectoryTree) : pathKey locale (mapValue (fun d => { d with root := d.root.map g }) d) =
      pathKey locale d := by
  unfold pathKey
  rw [value_mapValue, Option.map_map]
  cases d.value.root with
  | none => rfl
  | some root => exact congrArg (fun path => some (Util.foldCase locale path)) (hg root)

/-- The root of a directory changes, and not its name. -/
theorem sameEntries_mapRoot {g : DirectoryRoot → DirectoryRoot}
    (hg : ∀ root, (g root).virtualName = root.virtualName) (d : ShareNode) :
    ShareNode.SameEntries d { d with root := d.root.map g } := by
  refine ⟨rfl, ?_, rfl, rfl⟩
  unfold ShareNode.getVirtualNameLower
  cases d.root with
  | none => rfl
  | some root => exact congrArg CasedName.lower (hg root)

/-! ## Directories and files -/

variable {getLastModified : Str → Int}

theorem Inv.createDirectories (h : Inv locale t) (names : List Str) (curDir : DirectoryPlace) :
    Inv locale (createDirectories locale getLastModified names curDir t).1 := by
  induction names generalizing t curDir with
  | nil => exact h
  | cons curName rest ih =>
    rw [ShareTree.createDirectories]
    have htime := h.modifyValue (g := fun d => { d with
      lastWrite := getLastModified (t.realPath locale curDir) }) curDir
      (fun d => ⟨rfl, rfl, rfl, rfl⟩) fun d => rfl
    generalize t.modify locale curDir _ = t' at htime ⊢
    cases hcreated : (t'.at_ locale curDir).bind fun d => createNormal (CasedName.of locale curName)
        d (getLastModified (t.realPath locale curDir)) t'.indexes with
    | none => exact htime
    | some created =>
      obtain ⟨d, hd, hcreate⟩ := Option.bind_eq_some_iff.mp hcreated
      obtain ⟨d', hinsert, hd'⟩ := Option.map_eq_some_iff.mp hcreate
      obtain ⟨hhead, hperm⟩ := insertDirectory_some hinsert
      rw [← hd']
      refine ih (htime.modify hd ?_ ?_ fun L hL => ?_) _
      · rw [pathKey, hhead.root, pathKey]
      · exact (grows_addDirName (m := t'.indexes.allocate) htime.describes.table _).1
      · refine (describes_new hL _ _).perm ?_
        rw [← List.append_assoc]
        exact (hperm.append_right L).symm

theorem Inv.ensureDirectory (h : Inv locale t) (aRealPath : Str) :
    Inv locale (t.ensureDirectory locale getLastModified aRealPath).1 := by
  unfold ShareTree.ensureDirectory
  split
  · exact h
  · exact h.createDirectories _ _

theorem Inv.copyRootProfiles (h : Inv locale t) (aRootPath : Str) :
    Inv locale (t.copyRootProfiles locale aRootPath).1 :=
  h.modifyValue ⟨aRootPath, []⟩ (sameEntries_mapRoot fun _ => rfl) (pathKey_mapRoot fun _ => rfl)

theorem Inv.addHashedFile (h : Inv locale t) (aRealPath : Str) (aFileInfo : HashedFile) :
    Inv locale (t.addHashedFile locale getLastModified aRealPath aFileInfo).1 := by
  unfold ShareTree.addHashedFile
  have hensured : Inv locale
      (t.ensureDirectory locale getLastModified (PathUtil.getFilePath aRealPath)).1 :=
    h.ensureDirectory _
  generalize t.ensureDirectory locale getLastModified (PathUtil.getFilePath aRealPath) = found
    at hensured ⊢
  obtain ⟨t', _ | place⟩ := found
  · exact hensured
  · dsimp only at hensured ⊢
    cases hd : t'.at_ locale place with
    | none => exact hensured
    | some d =>
      have hbuilt := DiskItem.built_file d t'.indexes
        (CasedName.of locale (PathUtil.getFileName aRealPath)) aFileInfo
      refine (hensured.modify hd ?_ (hbuilt.grows hensured.describes.table)
        hbuilt.describes).copyRootProfiles _
      rw [pathKey, hbuilt.head.root, pathKey]

/-! ## Roots -/

theorem addRoot_rooted (h : Rooted locale t.rootPaths) (hnone : t.findRoot locale path = none)
    (hd : pathKey locale d = some (Util.foldCase locale path)) :
    Rooted locale (t.rootPaths ++ [(path, d)]) where
  keys := by
    rw [List.map_append, List.map_singleton, List.nodup_append']
    refine ⟨h.keys, List.nodup_singleton _, ?_⟩
    rw [List.disjoint_singleton, List.mem_map]
    rintro ⟨e, he, hkey⟩
    exact findRoot_eq_none hnone e he hkey
  paths := by
    intro e he
    rcases List.mem_append.mp he with he | he
    · exact h.paths e he
    · rw [List.mem_singleton.mp he]
      exact hd

theorem Inv.addShareRoot (h : Inv locale t) (aPath aVirtualName : Str)
    (aProfiles : ProfileTokenSet) (aIncoming : Bool) (aLastModified : Int) :
    Inv locale (t.addShareRoot locale aPath aVirtualName aProfiles aIncoming aLastModified).1 := by
  unfold ShareTree.addShareRoot
  cases hroot : t.findRoot locale aPath with
  | some d => exact h
  | none =>
    have hgrows := (grows_addDirName (m := t.indexes.allocate) h.describes.table
      (newRoot locale aPath aVirtualName aProfiles aIncoming aLastModified
        t.indexes.allocated).value).1
    refine ⟨addRoot_rooted h.rooted hroot rfl, ?_, fun r hr => (h.refreshing r hr).grows hgrows⟩
    refine (h.describes.allocate.addDirName (d := (newRoot locale aPath aVirtualName aProfiles
      aIncoming aLastModified t.indexes.allocated).value) rfl rfl).perm ?_
    show List.Perm _ (List.flatMap _ (_ ++ _))
    rw [List.flatMap_append, List.flatMap_singleton, newRoot, values_node, allValues_nil]
    exact (List.perm_append_singleton _ _).symm

theorem Inv.removeShareRoot (h : Inv locale t) (aPath : Str) :
    Inv locale (t.removeShareRoot locale aPath).1 := by
  unfold ShareTree.removeShareRoot
  cases hroot : t.findRoot locale aPath with
  | none => exact h
  | some d =>
    obtain ⟨e, he, hkey, rfl⟩ := findRoot_eq_some hroot
    have hperm := (Keyed.remove_perm h.rooted.keys he).flatMap_right fun e => e.2.values
    rw [hkey, List.flatMap_cons] at hperm
    refine ⟨⟨Keyed.nodup_remove h.rooted.keys, fun x hx => ?_⟩,
      (h.describes.perm hperm).cleanIndices, fun r hr => ?_⟩
    · exact h.rooted.paths x (Keyed.mem_remove.mp hx).1
    · refine (h.refreshing r hr).grows ?_
      show Grows _ (cleanIndices e.2 t.indexes).bloom
      rw [bloom_cleanIndices]
      exact Grows.refl _

theorem Inv.updateShareRoot (h : Inv locale t) (aPath aVirtualName : Str)
    (aProfiles : ProfileTokenSet) (aIncoming : Bool) :
    Inv locale (t.updateShareRoot locale aPath aVirtualName aProfiles aIncoming).1 := by
  unfold ShareTree.updateShareRoot
  cases hroot : t.findRoot locale aPath with
  | none => exact h
  | some d =>
    have hat : t.at_ locale ⟨aPath, []⟩ = some d := by
      rw [at_, hroot]
      rfl
    refine h.modify hat ?_ ?_ fun rest hd => ?_
    · refine pathKey_mapRoot ?_ d
      exact fun _ => rfl
    · exact (grows_addDirName (m := removeDirName d.value t.indexes) h.describes.table _).1
    · exact describes_node hd fun _ h => h.rename rfl rfl

theorem Inv.removeProfile (h : Inv locale t) (aProfile : Int) :
    Inv locale (t.removeProfile aProfile).1 := by
  refine ⟨⟨?_, ?_⟩, ?_, h.refreshing⟩
  · show (List.map _ (List.map _ t.rootPaths)).Nodup
    rw [List.map_map]
    exact h.rooted.keys
  · intro x hx
    obtain ⟨e, he, rfl⟩ := List.mem_map.mp hx
    exact (pathKey_mapRoot (g := fun root => { root with
      rootProfiles := root.rootProfiles.erase aProfile }) (fun _ => rfl) e.2).trans
        (h.rooted.paths e he)
  · have hsame : ∀ (g : DirectoryRoot → DirectoryRoot) (l : List (Str × DirectoryTree)),
        (∀ root, (g root).virtualName = root.virtualName) →
          List.Forall₂ ShareNode.SameEntries (l.flatMap fun e => e.2.values)
            ((l.map fun e => (e.1, mapValue (fun d => { d with root := d.root.map g }) e.2)).flatMap
              fun e => e.2.values) := by
      intro g l hg
      induction l with
      | nil => exact List.Forall₂.nil
      | cons e l ih =>
        rw [List.map_cons, List.flatMap_cons, List.flatMap_cons, values_mapValue, values_eq e.2]
        have hbelow : List.Forall₂ ShareNode.SameEntries (allValues e.2.children)
            (allValues e.2.children) :=
          List.forall₂_same.mpr fun d _ => ShareNode.SameEntries.refl d
        exact List.rel_append (.cons (sameEntries_mapRoot hg _) hbelow) ih
    have hall := Describes.replaceAll (K := []) (hsame (fun root =>
      { root with rootProfiles := root.rootProfiles.erase aProfile }) t.rootPaths fun _ => rfl)
      (by rw [List.append_nil]; exact h.describes)
    rw [List.append_nil] at hall
    exact hall

/-! ## Refreshes -/

/-- A directory that is found is in the tree. -/
theorem findDirectory_spec {r : DirectoryRef} (h : t.findDirectory locale path = some r) :
    ∃ d, t.at_ locale r.toDirectoryPlace = some d := by
  obtain ⟨found, -, hr⟩ := Option.bind_eq_some_iff.mp h
  split at hr
  · obtain ⟨d, hd, rfl⟩ := Option.map_eq_some_iff.mp hr
    exact ⟨d, hd⟩
  · cases hr

/-- What a pointer to a root leads to knows its path. -/
theorem pathKey_root (h : Rooted locale t.rootPaths) {r : DirectoryRef} (hroot : r.isRoot = true)
    (hd : t.at_ locale r.toDirectoryPlace = some d) :
    pathKey locale d = some (Util.foldCase locale r.rootPath) := by
  obtain ⟨e, he, hkey, hat⟩ := at_eq_some hd
  have hnames : r.names = [] := List.isEmpty_iff.mp hroot
  rw [hnames] at hat
  obtain rfl := Option.some.inj hat
  rw [← hkey]
  exact h.paths e he

theorem describes_refreshDirectory (h : Describes m []) (root : Option DirectoryRoot)
    (aPath : Str) (aLastWrite : Int) :
    Describes (addDirName (refreshDirectory locale root aPath aLastWrite m.allocated).value
      m.allocate) (refreshDirectory locale root aPath aLastWrite m.allocated).values := by
  cases root with
  | none =>
    have hnew := describes_new h (CasedName.of locale (PathUtil.getLastDir aPath)) aLastWrite
    rwa [List.append_nil] at hnew
  | some root =>
    rw [values_eq, refreshDirectory, newRoot, children_node, allValues_nil]
    exact h.allocate.addDirName rfl rfl

/-- A refresh that is started has a clone of the root, if its directory is one. -/
theorem refreshRoot_spec (h : Rooted locale t.rootPaths) {r : DirectoryRef}
    (hr : t.findDirectory locale path = some r) :
    ((t.refreshRoot locale path).map fun root => Util.foldCase locale root.path) =
      if r.isRoot then some (Util.foldCase locale r.rootPath) else none := by
  rw [refreshRoot, hr, Option.filter_some]
  split
  · rename_i hroot
    obtain ⟨d, hd⟩ := findDirectory_spec hr
    rw [Option.bind_some, hd]
    exact pathKey_root h hroot hd
  · rfl

theorem Inv.startRefresh (h : Inv locale t) (token : Nat) (aPath : Str) (aLastWrite : Int) :
    Inv locale (t.startRefresh locale token aPath aLastWrite) := by
  have hempty : Describes { t.indexes with
      lowerDirNameMap := [], tthIndex := [], sharedSize := 0 } [] :=
    (describes_nil h.describes.table).grows rfl rfl rfl (Grows.refl _)
  have hgrows : Grows t.indexes.bloom (t.newRefresh locale aPath aLastWrite).indexes.bloom :=
    (grows_addDirName hempty.allocate.table _).1
  have hnew : Refreshing locale (t.newRefresh locale aPath aLastWrite).indexes
      (t.newRefresh locale aPath aLastWrite) := by
    refine ⟨describes_refreshDirectory hempty _ _ _, fun p hp hpr => ?_, fun hno => ?_⟩
    · have hroot := refreshRoot_spec h.rooted hp
      rw [if_pos hpr] at hroot
      obtain ⟨root, hroot, hpath⟩ := Option.map_eq_some_iff.mp hroot
      unfold newRefresh
      rw [hroot, ← hpath]
      exact ⟨root.path, rfl, rfl, rfl⟩
    · unfold newRefresh
      cases hfound : t.findDirectory locale aPath with
      | none =>
        rw [refreshRoot, hfound]
        rfl
      | some p =>
        have hroot := refreshRoot_spec h.rooted hfound
        rw [hno p hfound] at hroot
        rw [Option.map_eq_none_iff.mp hroot]
        rfl
  refine ⟨h.rooted, h.describes.grows rfl rfl rfl hgrows, fun r hr => ?_⟩
  rcases List.mem_cons.mp hr with rfl | hr
  · exact hnew.grows (Grows.refl _)
  · exact (h.refreshing r hr).grows hgrows

theorem Inv.buildRefresh (h : Inv locale t) (token : Nat) (skipEmptyDirs : Bool)
    (items : List DiskItem) : Inv locale (t.buildRefresh locale token skipEmptyDirs items) := by
  unfold ShareTree.buildRefresh
  cases hr : t.refreshes.find? (·.1 == token) with
  | none => exact h
  | some r =>
    obtain ⟨n, ri⟩ := r
    have hri := h.refreshing _ (List.mem_of_find?_eq_some hr)
    have hbuilt : DiskItem.Built (ri.newDirectory, ri.indexes.within t.indexes)
        (DiskItem.buildTree locale skipEmptyDirs items
          (ri.newDirectory, ri.indexes.within t.indexes)) :=
      DiskItem.buildTree_built skipEmptyDirs items _
    dsimp only
    generalize DiskItem.buildTree locale skipEmptyDirs items _ = built at hbuilt ⊢
    have hgrows : Grows t.indexes.bloom built.2.bloom := hbuilt.grows h.describes.table
    refine ⟨h.rooted, h.describes.grows rfl rfl rfl hgrows, fun x hx => ?_⟩
    rcases List.mem_cons.mp hx with rfl | hx
    · refine ⟨?_, fun p hp hpr => ?_, hri.other⟩
      · have hdescribes := hbuilt.describes [] (by
          rw [List.append_nil]
          exact hri.describes)
        rw [List.append_nil] at hdescribes
        exact hdescribes
      · obtain ⟨path, hroots, hkey, hpath⟩ := hri.root p hp hpr
        refine ⟨path, hroots, hkey, ?_⟩
        rw [← hpath, pathKey, hbuilt.head.root, pathKey]
    · exact (h.refreshing x (List.mem_filter.mp hx).1).grows hgrows

/-! ## The end of a refresh -/

variable {ri : ShareRefreshInfo} {r : DirectoryRef} {skipEmptyDirs : Bool}

theorem refreshes_createDirectories (names : List Str) (curDir : DirectoryPlace) :
    (createDirectories locale getLastModified names curDir t).1.refreshes = t.refreshes := by
  induction names generalizing t curDir with
  | nil => rfl
  | cons curName rest ih =>
    rw [ShareTree.createDirectories]
    dsimp only
    split
    · rfl
    · exact (ih _).trans rfl

theorem refreshes_ensureDirectory (aRealPath : Str) :
    (t.ensureDirectory locale getLastModified aRealPath).1.refreshes = t.refreshes := by
  unfold ShareTree.ensureDirectory
  split
  · rfl
  · exact refreshes_createDirectories _ _

/-- What the refresh brings along is merged with the indexes of the tree. -/
theorem Refreshing.merge (hri : Refreshing locale t.indexes ri) {L : List ShareNode}
    (hm : m.bloom = t.indexes.bloom) (h : Describes m L) :
    Describes (m.merge ri.indexes) (L ++ ri.newDirectory.values) := by
  have hboth := h.merge hri.describes (by
    rw [hm]
    exact Grows.refl _)
  exact hboth

/-- The new directory is put into a directory of the tree. -/
theorem Inv.mergeRefresh (h : Inv locale t) (hri : Refreshing locale t.indexes ri)
    (hroots : ri.rootPaths = []) (hp : t.at_ locale p = some d) {d' : DirectoryTree} {time : Int}
    (hset : setParent ri.newDirectory d time = some d') :
    Inv locale ((t.modify locale p fun _ => d').mergeRefresh locale ri p.rootPath).1 := by
  obtain ⟨q, hinsert, rfl⟩ := Option.map_eq_some_iff.mp hset
  obtain ⟨hhead, hperm⟩ := insertDirectory_some hinsert
  have hmodified : Inv locale { t.modify locale p (fun _ =>
      mapValue (fun parent => { parent with lastWrite := time }) q) with
        indexes := t.indexes.merge ri.indexes } := by
    refine h.modify hp ?_ (Grows.refl _) fun rest hd => ?_
    · rw [pathKey, value_mapValue, pathKey, hhead.root]
    · have hq : Describes (t.indexes.merge ri.indexes) (q.values ++ rest) := by
        refine (hri.merge rfl hd).perm ?_
        refine List.Perm.trans ?_ (hperm.append_right rest).symm
        rw [List.append_assoc (values ri.newDirectory)]
        exact List.perm_append_comm
      exact describes_node hq fun _ h => h.replace ⟨rfl, rfl, rfl, rfl⟩
  unfold ShareTree.mergeRefresh
  rw [hroots]
  exact hmodified.copyRootProfiles _

theorem Inv.attachRefresh (h : Inv locale t) {token : Nat} (hr : (token, ri) ∈ t.refreshes)
    (hroots : ri.rootPaths = []) (parent : Option DirectoryPlace) :
    Inv locale (t.attachRefresh locale ri getLastModified skipEmptyDirs parent).1 := by
  unfold ShareTree.attachRefresh
  split
  · exact h
  · have hfound : Inv locale (parent.elim (t.ensureDirectory locale getLastModified
        (PathUtil.getParentDir ri.path)) fun p => (t, some p)).1 ∧
          (parent.elim (t.ensureDirectory locale getLastModified
            (PathUtil.getParentDir ri.path)) fun p => (t, some p)).1.refreshes = t.refreshes := by
      cases parent with
      | none => exact ⟨h.ensureDirectory _, refreshes_ensureDirectory _⟩
      | some p => exact ⟨h, rfl⟩
    generalize Option.elim parent _ _ = found at hfound ⊢
    obtain ⟨t', _ | place⟩ := found
    · exact hfound.1
    · obtain ⟨hinv, hrefreshes⟩ := hfound
      dsimp only at hinv hrefreshes ⊢
      cases hset : (t'.at_ locale place).bind fun d =>
          setParent ri.newDirectory d (getLastModified (t'.realPath locale place)) with
      | none => exact hinv
      | some d' =>
        obtain ⟨d, hd, hset⟩ := Option.bind_eq_some_iff.mp hset
        exact hinv.mergeRefresh (hinv.refreshing _ (hrefreshes ▸ hr)) hroots hd hset

/-- A pointer that is not one to a root leads from a parent to one of its directories. -/
theorem exists_parent (hroot : r.isRoot = false) (hd : t.at_ locale r.toDirectoryPlace = some d) :
    ∃ name parent, r.names.getLast? = some name ∧
      t.at_ locale ⟨r.rootPath, r.names.dropLast⟩ = some parent ∧
        parent.children.find? (fun c => c.keyOf ShareNode.nameLower = name) = some d := by
  have hne : r.names ≠ [] := by
    intro hnames
    rw [DirectoryRef.isRoot, hnames] at hroot
    cases hroot
  obtain ⟨root, hfound, hat⟩ := Option.bind_eq_some_iff.mp hd
  rw [← List.dropLast_append_getLast hne, at?_append] at hat
  obtain ⟨parent, hparent, hchild⟩ := Option.bind_eq_some_iff.mp hat
  refine ⟨r.names.getLast hne, parent, List.getLast?_eq_getLast_of_ne_nil hne, ?_, ?_⟩
  · rw [at_, hfound]
    exact hparent
  · obtain ⟨c, hc, hcd⟩ := Option.bind_eq_some_iff.mp hchild
    rw [hc]
    exact hcd

/-- A directory that is still in the tree is taken out of it. -/
theorem Inv.removeOld (h : Inv locale t) (hroot : r.isRoot = false)
    (hold : t.removeOld locale r = some t') : Inv locale t' ∧ t'.refreshes = t.refreshes := by
  obtain ⟨old, hderef, rfl⟩ := Option.map_eq_some_iff.mp hold
  obtain ⟨name, parent, hname, hparent, hchild⟩ :=
    exists_parent hroot (Option.filter_eq_some_iff.mp hderef).1
  dsimp only
  rw [hname]
  have hmodified : Inv locale { t.modify locale ⟨r.rootPath, r.names.dropLast⟩
      (fun d => node d.value (eraseFirst ShareNode.nameLower name d.children)) with
        indexes := cleanIndices old t.indexes } := by
    refine h.modify hparent rfl ?_ fun rest hd => ?_
    · rw [bloom_cleanIndices]
      exact Grows.refl _
    · refine (hd.perm ?_).cleanIndices
      rw [values_eq parent, values_node, ← List.append_assoc]
      refine List.Perm.append_right rest ?_
      exact ((values_eraseFirst hchild).cons _).trans List.perm_middle.symm
  exact ⟨hmodified, rfl⟩

/-- A root is replaced by the new one, together with its entries. -/
theorem Inv.replaceRoot (h : Inv locale t) (hri : Refreshing locale t.indexes ri)
    (hold : ri.optionalOldDirectory = some r) (hroot : r.isRoot = true)
    (hd : t.at_ locale r.toDirectoryPlace = some d) :
    Inv locale (({ t with indexes := cleanIndices d t.indexes } : ShareTree).mergeRefresh locale ri
      r.rootPath).1 := by
  obtain ⟨path, hroots, hkey, hpath⟩ := hri.root r hold hroot
  have hnames : r.names = [] := List.isEmpty_iff.mp hroot
  have hfound : t.findRoot locale r.rootPath = some d := by
    obtain ⟨root, hfound, hat⟩ := Option.bind_eq_some_iff.mp hd
    rw [hnames] at hat
    rw [hfound]
    exact hat
  have hat : t.at_ locale ⟨r.rootPath, []⟩ = some d := by
    rw [at_, hfound]
    rfl
  have hmodified : Inv locale { t.modify locale ⟨r.rootPath, []⟩ (fun _ => ri.newDirectory) with
      indexes := (cleanIndices d t.indexes).merge ri.indexes } := by
    refine h.modify hat ?_ ?_ fun rest hrest => ?_
    · exact hpath.trans (pathKey_root h.rooted hroot hd).symm
    · show Grows _ (cleanIndices d t.indexes).bloom
      rw [bloom_cleanIndices]
      exact Grows.refl _
    · exact (hri.merge (bloom_cleanIndices d t.indexes) hrest.cleanIndices).perm
        List.perm_append_comm
  have hset : setRoot locale ri.newDirectory { t with
      indexes := (cleanIndices d t.indexes).merge ri.indexes } path =
        { t.modify locale ⟨r.rootPath, []⟩ (fun _ => ri.newDirectory) with
          indexes := (cleanIndices d t.indexes).merge ri.indexes } := by
    have hpathFound : t.findRoot locale path = some d := by
      rw [← hfound, findRoot, findRoot, hkey]
    refine (if_pos ?_).trans ?_
    · show (t.findRoot locale path).isSome = true
      rw [hpathFound]
      rfl
    · rw [modifyRoot, hkey]
      rfl
  unfold ShareTree.mergeRefresh
  rw [hroots]
  dsimp only
  rw [List.foldl_cons, List.foldl_nil, hset]
  exact hmodified.copyRootProfiles _

/-- **The changes of a refresh are applied**, or nothing is left of them. -/
theorem Inv.applyRefreshChanges (h : Inv locale t) {token : Nat} (hr : (token, ri) ∈ t.refreshes)
    {applied : ShareTree × Bool × ProfileTokenSet}
    (happly : t.applyRefreshChanges locale ri getLastModified skipEmptyDirs = some applied) :
    Inv locale applied.1 := by
  have hri := h.refreshing _ hr
  unfold ShareTree.applyRefreshChanges at happly
  cases hold : ri.optionalOldDirectory with
  | none =>
    rw [hold] at happly
    obtain rfl := Option.some.inj happly
    exact h.attachRefresh hr (hri.other fun p hp => by rw [hold] at hp; cases hp) none
  | some p =>
    rw [hold] at happly
    dsimp only at happly
    split at happly
    · obtain rfl := Option.some.inj happly
      exact h
    · obtain ⟨t', hremoved, rfl⟩ := Option.map_eq_some_iff.mp happly
      cases hroot : p.isRoot with
      | true =>
        rw [if_pos rfl]
        obtain ⟨old, hderef, rfl⟩ := Option.map_eq_some_iff.mp hremoved
        rw [List.isEmpty_iff.mp hroot]
        exact h.replaceRoot hri hold hroot (Option.filter_eq_some_iff.mp hderef).1
      | false =>
        rw [if_neg Bool.false_ne_true]
        obtain ⟨hinv, hrefreshes⟩ := h.removeOld hroot hremoved
        refine hinv.attachRefresh (hrefreshes ▸ hr) (hri.other fun q hq => ?_) _
        rw [hold] at hq
        obtain rfl := Option.some.inj hq
        exact hroot

/-- The refreshes that are under way become fewer. -/
theorem Inv.dropRefreshes (h : Inv locale t) {l : List (Nat × ShareRefreshInfo)}
    (hl : ∀ r ∈ l, r ∈ t.refreshes) : Inv locale { t with refreshes := l } :=
  ⟨h.rooted, h.describes, fun r hr => h.refreshing r (hl r hr)⟩

/-! ## Runs -/

/-- What changes the share. The last modification times are those on the disk at the moment. -/
inductive Op
  | addShareRoot (aPath aVirtualName : Str) (aProfiles : ProfileTokenSet) (aIncoming : Bool)
    (aLastModified : Int)
  | removeShareRoot (aPath : Str)
  | updateShareRoot (aPath aVirtualName : Str) (aProfiles : ProfileTokenSet) (aIncoming : Bool)
  | removeProfile (aProfile : Int)
  | addHashedFile (getLastModified : Str → Int) (aRealPath : Str) (aFileInfo : HashedFile)
  | startRefresh (token : Nat) (aPath : Str) (aLastWrite : Int)
  | buildRefresh (token : Nat) (skipEmptyDirs : Bool) (items : List DiskItem)
  | endRefresh (token : Nat) (getLastModified : Str → Int) (skipEmptyDirs : Bool)
  | cancelRefresh (token : Nat)

variable (locale) in
def next (t : ShareTree) : Op → ShareTree
  | .addShareRoot aPath aVirtualName aProfiles aIncoming aLastModified =>
    (t.addShareRoot locale aPath aVirtualName aProfiles aIncoming aLastModified).1
  | .removeShareRoot aPath => (t.removeShareRoot locale aPath).1
  | .updateShareRoot aPath aVirtualName aProfiles aIncoming =>
    (t.updateShareRoot locale aPath aVirtualName aProfiles aIncoming).1
  | .removeProfile aProfile => (t.removeProfile aProfile).1
  | .addHashedFile getLastModified aRealPath aFileInfo =>
    (t.addHashedFile locale getLastModified aRealPath aFileInfo).1
  | .startRefresh token aPath aLastWrite => t.startRefresh locale token aPath aLastWrite
  | .buildRefresh token skipEmptyDirs items => t.buildRefresh locale token skipEmptyDirs items
  | .endRefresh token getLastModified skipEmptyDirs =>
    (t.endRefresh locale token getLastModified skipEmptyDirs).getD t
  | .cancelRefresh token => t.cancelRefresh token

variable (locale) in
/-- The directory that was refreshed is still where it was, or its root is gone. -/
def InPlace (t : ShareTree) (token : Nat) : Prop :=
  ∀ r ∈ t.refreshes.find? (·.1 == token), ∀ p ∈ r.2.optionalOldDirectory,
    p.isRoot = true ∧ t.findRoot locale r.2.path = none ∨ (t.deref locale p).isSome = true

instance (t : ShareTree) (token : Nat) : Decidable (InPlace locale t token) :=
  inferInstanceAs (Decidable (∀ r ∈ t.refreshes.find? (·.1 == token),
    ∀ p ∈ r.2.optionalOldDirectory,
      p.isRoot = true ∧ t.findRoot locale r.2.path = none ∨ (t.deref locale p).isSome = true))

variable (locale) in
def operations : System ShareTree Op where
  next := next locale
  allowed t o :=
    match o with
    | .endRefresh token _ _ => InPlace locale t token
    | _ => True

/-- Nothing is shared, and the filter has room. -/
structure Empty (t : ShareTree) : Prop where
  rootPaths : t.rootPaths = []
  refreshes : t.refreshes = []
  indexes : t.indexes.lowerDirNameMap = [] ∧ t.indexes.tthIndex = [] ∧ t.indexes.sharedSize = 0
  table : 0 < t.indexes.bloom.table.length

theorem Empty.inv (h : Empty t) : Inv locale t := by
  obtain ⟨hnames, hfiles, hsize⟩ := h.indexes
  refine ⟨⟨?_, ?_⟩, ?_, ?_⟩
  · rw [h.rootPaths]
    exact List.nodup_nil
  · rw [h.rootPaths]
    nofun
  · rw [nodes, h.rootPaths]
    exact (describes_nil h.table).grows hnames hfiles hsize (Grows.refl _)
  · rw [h.refreshes]
    nofun

/-- A refresh that is in place ends. -/
theorem endRefresh_isSome {token : Nat} (h : InPlace locale t token) :
    ∃ t', t.endRefresh locale token getLastModified skipEmptyDirs = some t' := by
  unfold endRefresh
  cases hr : t.refreshes.find? (·.1 == token) with
  | none => exact ⟨t, rfl⟩
  | some r =>
    dsimp only
    rw [← Option.isSome_iff_exists, Option.isSome_map, applyRefreshChanges]
    cases hold : r.2.optionalOldDirectory with
    | none => rfl
    | some p =>
      dsimp only
      split
      · rfl
      · rename_i hroot
        rcases h r hr p hold with ⟨hp, hnone⟩ | hsome
        · rw [hp, hnone] at hroot
          exact absurd rfl hroot
        · rw [Option.isSome_map, removeOld, Option.isSome_map]
          exact hsome

theorem Inv.next (h : Inv locale t) {o : Op} (ho : (operations locale).allowed t o) :
    Inv locale (next locale t o) := by
  cases o with
  | addShareRoot => exact h.addShareRoot _ _ _ _ _
  | removeShareRoot => exact h.removeShareRoot _
  | updateShareRoot => exact h.updateShareRoot _ _ _ _
  | removeProfile => exact h.removeProfile _
  | addHashedFile => exact h.addHashedFile _ _
  | startRefresh => exact h.startRefresh _ _ _
  | buildRefresh => exact h.buildRefresh _ _ _
  | endRefresh token getLastModified skipEmptyDirs =>
    obtain ⟨t', ht'⟩ : ∃ t', t.endRefresh locale token getLastModified skipEmptyDirs = some t' :=
      endRefresh_isSome ho
    rw [ShareTree.next, ht', Option.getD_some]
    unfold endRefresh at ht'
    cases hr : t.refreshes.find? (·.1 == token) with
    | none =>
      rw [hr] at ht'
      obtain rfl := Option.some.inj ht'
      exact h
    | some r =>
      rw [hr] at ht'
      obtain ⟨applied, happlied, rfl⟩ := Option.map_eq_some_iff.mp ht'
      exact (h.applyRefreshChanges (List.mem_of_find?_eq_some hr) happlied).dropRefreshes
        fun x hx => (List.mem_filter.mp hx).1
  | cancelRefresh => exact h.dropRefreshes fun x hx => (List.mem_filter.mp hx).1

/-- A root is added and refreshed. -/
def sampleOps : List Op :=
  [.addShareRoot (str "/s/") (str "v") {0} false 1, .startRefresh 7 (str "/s/") 2,
    .buildRefresh 7 true [.directory (str "A") 3 true
      [.file (str "f") true (some ⟨Vector.replicate 24 0, 4, 5⟩)], .directory (str "e") 3 true []],
    .endRefresh 7 (fun _ => 0) true]

def sampleShare : ShareTree :=
  (operations ⟨id, fun s _ => s⟩).run { indexes := { bloom := BloomFilter.new 5 8 } } sampleOps

end ShareTree

end Airdcpp
