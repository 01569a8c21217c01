import Airdcpp.FileList.ADLSearch
import Airdcpp.Lib.ListOps

/-!
# `FileList/ADLMatching` — what a directory listing search collects

The destinations do not know of each other as long as the search goes on behind a match: each one
sees the searches that are assigned to it (`MatchesFile_spec`, `MatchesDirectory_spec`). What a part
of the tree adds to a destination is one change of the directory that `subdir` points to, and some
files for the destination itself (`Gains`); a copy that is made, filled and left is a child that is
added (`Gains.leave`). By induction on the tree this is what `matchedFiles` and `topmost` say
(`matchRecurse_spec`).
-/

namespace Airdcpp

open DirectoryListing Lib

variable {ρ : Type}

/-- The names of the subdirectories are different keys, all the way down. -/
inductive DirTree.Distinct (locale : Locale) : DirTree → Prop
  | intro {t : DirTree} (names : (t.children.map (RoseTree.keyOf (DirTree.nameKey locale))).Nodup)
      (sub : ∀ d ∈ t.children, DirTree.Distinct locale d) : DirTree.Distinct locale t

namespace ADLSearchManager

section Specification

variable (locale : Locale) (rx : Regex ρ) (c : List (ADLSearch ρ)) (i : Nat)

/-- A file search that is assigned to the destination matches the file. -/
def fileMatched (aAdcPath : Str) (f : File) : Bool :=
  !f.name.isEmpty && c.any fun is => is.ddIndex == i &&
    is.matchesFile locale rx f.name (Util.toNmdcFile (aAdcPath ++ f.name)) f.size == some true

/-- A directory search that is assigned to the destination matches the name. -/
def directoryMatched (name : Str) : Bool :=
  !name.isEmpty && c.any fun is =>
    is.ddIndex == i && is.matchesDirectory locale rx name == some true

mutual

/-- The files that are matched, below a directory and in it. -/
def matchedFiles (aAdcPath : Str) : DirTree → List File
  | .node d directories =>
    matchedFilesIn aAdcPath directories ++ d.files.filter (fileMatched locale rx c i aAdcPath)

def matchedFilesIn (aAdcPath : Str) : List DirTree → List File
  | [] => []
  | dir :: directories =>
    matchedFiles (joinAdcDirectory aAdcPath dir.getName) dir ++ matchedFilesIn aAdcPath directories

end

mutual

/-- The matched directories below a directory that are not in a matched one, with their paths. -/
def topmost (aAdcPath : Str) : DirTree → List (Str × DirTree)
  | .node _ directories => topmostIn aAdcPath directories

def topmostIn (aAdcPath : Str) : List DirTree → List (Str × DirTree)
  | [] => []
  | dir :: directories =>
    let subAdcPath := joinAdcDirectory aAdcPath dir.getName
    (if directoryMatched locale rx c i dir.getName then [(subAdcPath, dir)]
      else topmost subAdcPath dir) ++ topmostIn aAdcPath directories

end

end Specification

mutual

/-- A virtual directory with the names and the files of a directory, all the way down. -/
def copyOf (aAdcPath : Str) : DirTree → DirTree
  | .node d directories =>
    .node { name := d.name, type := .virtual, fullAdcPath := aAdcPath, files := d.files }
      (copiesOf aAdcPath directories)

def copiesOf (aAdcPath : Str) : List DirTree → List DirTree
  | [] => []
  | dir :: directories =>
    copyOf (joinAdcDirectory aAdcPath dir.getName) dir :: copiesOf aAdcPath directories

end

/-- The name of a new directory: the one that was asked for, or that with a number. -/
def NamedAfter (aName name : Str) : Prop :=
  name = aName ∨ ∃ num, name = VirtualDirectory.numbered aName num

/-- A copy of a directory, which may have got a number. -/
def CopiedAs (x : Str × DirTree) (v : DirTree) : Prop :=
  ∃ name, NamedAfter x.2.getName name ∧ v = (copyOf x.1 x.2).mapValue fun d =>
    { d with name := name }

variable {locale : Locale} {rx : Regex ρ}

/-- The keys of some directories. -/
abbrev keysOf (locale : Locale) (ds : List DirTree) : List (List Nat) :=
  ds.map (RoseTree.keyOf (DirTree.nameKey locale))

/-! ## One destination -/

@[simp] theorem addFiles_nil : DirTree.addFiles [] = id := by
  funext d
  simp [DirTree.addFiles]

theorem addFiles_comp (fs gs : List File) :
    DirTree.addFiles gs ∘ DirTree.addFiles fs = DirTree.addFiles (fs ++ gs) := by
  funext d
  simp [DirTree.addFiles]

theorem nameKey_addFiles (fs : List File) (d : DirData) :
    DirTree.nameKey locale (DirTree.addFiles fs d) = DirTree.nameKey locale d := rfl

end ADLSearchManager

namespace DestDir

variable {locale : Locale} {dd dd₁ dd₂ : DestDir} {fs gs ms ns : List File} {vs ws : List DirTree}
  {aAdcPath aName : Str} {p : Path}

open ADLSearchManager VirtualDirectory

/-- Where the copies go: the open copy, or the destination itself. -/
def place (dd : DestDir) : Path := dd.subdir.getD []

/-- The pointer is null or points into the destination. -/
def Inside (dd : DestDir) : Prop := dd.subdir ≠ some []

/-- The keys of what is where the copies go. -/
def keys (locale : Locale) (dd : DestDir) : Option (List (List Nat)) :=
  (RoseTree.at? (DirTree.nameKey locale) dd.place dd.dir).map fun v => keysOf locale v.children

/-- **What a destination gains**: files and directories where the copies go, and files of its
    own. -/
structure Gains (locale : Locale) (fs : List File) (vs : List DirTree) (ms : List File)
    (dd dd' : DestDir) : Prop where
  name : dd'.name = dd.name
  subdir : dd'.subdir = dd.subdir
  closed : dd.subdir = none → fs = []
  dir : dd'.dir = (RoseTree.modifyAt (DirTree.nameKey locale) dd.place
    (RoseTree.extend (DirTree.addFiles fs) vs) dd.dir).mapValue (DirTree.addFiles ms)

theorem place_eq_nil (hin : dd.Inside) : dd.place = [] ↔ dd.subdir = none := by
  cases hs : dd.subdir with
  | none => simp [place, hs]
  | some p =>
    have hp : p ≠ [] := by
      rintro rfl
      exact hin hs
    simp [place, hs, hp]

theorem Gains.place (h : Gains locale fs vs ms dd dd₁) : dd₁.place = dd.place := by
  rw [DestDir.place, h.subdir, DestDir.place]

theorem Gains.inside (h : Gains locale fs vs ms dd dd₁) (hin : dd.Inside) : dd₁.Inside := by
  rwa [Inside, h.subdir]

theorem Gains.refl (locale : Locale) (dd : DestDir) : Gains locale [] [] [] dd dd := by
  refine ⟨rfl, rfl, fun _ => rfl, ?_⟩
  cases hdir : dd.dir
  simp [RoseTree.mapValue]

/-- One gain after the other. -/
theorem Gains.trans (hin : dd.Inside) (h₁ : Gains locale fs vs ms dd dd₁)
    (h₂ : Gains locale gs ws ns dd₁ dd₂) :
    Gains locale (fs ++ gs) (vs ++ ws) (ms ++ ns) dd dd₂ := by
  refine ⟨h₂.name.trans h₁.name, h₂.subdir.trans h₁.subdir, fun hnone => ?_, ?_⟩
  · rw [h₁.closed hnone, h₂.closed (h₁.subdir.trans hnone), List.append_nil]
  · rw [h₂.dir, h₁.dir, h₁.place]
    by_cases hplace : dd.place = []
    · -- what is gained at the root are directories only
      have hnone := (place_eq_nil hin).mp hplace
      rw [hplace, h₁.closed hnone, h₂.closed (h₁.subdir.trans hnone)]
      simp [RoseTree.modifyAt, RoseTree.extend, RoseTree.mapValue, DirTree.addFiles]
    · rw [RoseTree.modifyAt_mapValue hplace,
        RoseTree.modifyAt_modifyAt (RoseTree.keepsKey_extend (nameKey_addFiles fs) vs)]
      have hcomp : RoseTree.extend (DirTree.addFiles gs) ws ∘
          RoseTree.extend (DirTree.addFiles fs) vs =
            RoseTree.extend (DirTree.addFiles (fs ++ gs)) (vs ++ ws) := by
        funext t
        rw [Function.comp, RoseTree.extend_extend, addFiles_comp]
      rw [hcomp]
      simp [RoseTree.mapValue, DirTree.addFiles]

/-- The names of the directories that are gained come behind the others. -/
theorem Gains.keys (h : Gains locale fs vs ms dd dd₁) :
    dd₁.keys locale = (dd.keys locale).map (· ++ keysOf locale vs) := by
  rw [DestDir.keys, DestDir.keys, h.place, h.dir, Option.map_map]
  by_cases hplace : dd.place = []
  · simp [hplace, RoseTree.at?, RoseTree.modifyAt]
  · rw [RoseTree.at?_mapValue hplace,
      RoseTree.at?_modifyAt (RoseTree.keepsKey_extend (nameKey_addFiles fs) vs), Option.map_map]
    congr 1
    funext v
    simp

/-! ## New directories -/

theorem contains_eq_true_iff {aParent : DirTree} {name : Str} :
    aParent.contains locale name = true ↔
      Util.foldCase locale name ∈ keysOf locale aParent.children := by
  rw [DirTree.contains, List.any_eq_true, List.mem_map]
  simp only [decide_eq_true_eq]

theorem tryEmplace_of_new {aParent dir : DirTree}
    (h : Util.foldCase locale dir.getName ∉ keysOf locale aParent.children) :
    aParent.tryEmplace locale dir = aParent.extend id [dir] := by
  rw [DirTree.tryEmplace, if_neg fun hin => h (contains_eq_true_iff.mp hin)]

theorem freeName_spec {aParent : DirTree} {fuel num : Nat} {name : Str}
    (h : freeName locale aParent aName fuel num = some name) :
    Util.foldCase locale name ∉ keysOf locale aParent.children ∧ ∃ num,
      name = numbered aName num := by
  induction fuel generalizing num with
  | zero => cases h
  | succ fuel ih =>
    rw [freeName] at h
    split at h
    · exact ih h
    · next hfree =>
      obtain rfl := Option.some.inj h
      exact ⟨fun hmem => hfree (contains_eq_true_iff.mpr hmem), num, rfl⟩

/-- A virtual directory with nothing in it. -/
def newDir (aAdcPath name : Str) : DirTree :=
  .node { name := name, type := .virtual, fullAdcPath := aAdcPath } []

/-- **What `create` makes** has a name that is new in the directory. -/
theorem create_spec {aParent aParent' v : DirTree} {aAddToParent : Bool}
    (h : VirtualDirectory.create locale aAdcPath aParent aName aAddToParent = some (v, aParent')) :
    ∃ name, NamedAfter aName name ∧ v = newDir aAdcPath name ∧
      Util.foldCase locale name ∉ keysOf locale aParent.children ∧
      (Util.foldCase locale aName ∉ keysOf locale aParent.children → name = aName) ∧
      aParent' = if aAddToParent then aParent.extend id [v] else aParent := by
  rw [VirtualDirectory.create] at h
  obtain ⟨name, hname, h⟩ := Option.bind_eq_some_iff.mp h
  obtain ⟨rfl, rfl⟩ := Prod.mk.inj (Option.some.inj h)
  have hnew : Util.foldCase locale name ∉ keysOf locale aParent.children ∧ NamedAfter aName name ∧
      (Util.foldCase locale aName ∉ keysOf locale aParent.children → name = aName) := by
    rw [uniqueName] at hname
    split at hname
    · next hin =>
      obtain ⟨hfree, hnum⟩ := freeName_spec hname
      exact ⟨hfree, .inr hnum, fun hout => absurd (contains_eq_true_iff.mp hin) hout⟩
    · next hout =>
      obtain rfl := Option.some.inj hname
      exact ⟨fun hmem => hout (contains_eq_true_iff.mpr hmem), .inl rfl, fun _ => rfl⟩
  obtain ⟨hfree, hafter, hsame⟩ := hnew
  refine ⟨name, hafter, rfl, hfree, hsame, ?_⟩
  cases aAddToParent with
  | false => rfl
  | true => exact tryEmplace_of_new hfree

/-- **What `createIn` does.** -/
theorem createIn_spec (h : dd.createIn locale aAdcPath aName p = some dd₁) :
    ∃ v name, RoseTree.at? (DirTree.nameKey locale) p dd.dir = some v ∧ NamedAfter aName name ∧
      Util.foldCase locale name ∉ keysOf locale v.children ∧
      (Util.foldCase locale aName ∉ keysOf locale v.children → name = aName) ∧
      dd₁ = { dd with
        dir := RoseTree.modifyAt (DirTree.nameKey locale) p
          (RoseTree.extend id [newDir aAdcPath name]) dd.dir
        subdir := some (p ++ [Util.foldCase locale name]) } := by
  obtain ⟨v, hv, h⟩ := Option.bind_eq_some_iff.mp h
  obtain ⟨⟨w, v'⟩, hcreate, h⟩ := Option.bind_eq_some_iff.mp h
  obtain ⟨name, hafter, rfl, hfree, hsame, rfl⟩ := create_spec hcreate
  obtain rfl := Option.some.inj h
  refine ⟨v, name, hv, hafter, hfree, hsame, ?_⟩
  have hmod : RoseTree.modifyAt (DirTree.nameKey locale) p
      (fun _ => v.extend id [newDir aAdcPath name]) dd.dir =
      RoseTree.modifyAt (DirTree.nameKey locale) p
        (RoseTree.extend id [newDir aAdcPath name]) dd.dir := by
    refine RoseTree.modifyAt_congr fun w hw => ?_
    obtain rfl := Option.some.inj (hv.symm.trans hw)
    rfl
  simp only [if_true, hmod]
  rfl

theorem isNone_of_createIn (h : dd.createIn locale aAdcPath aName p = some dd₁) :
    dd₁.subdir.isNone = false := by
  obtain ⟨v, name, -, -, -, -, rfl⟩ := createIn_spec h
  rfl

/-- **A copy that is made, filled and left** is a directory that is gained. -/
theorem Gains.leave (hin : dd.Inside) (h : dd.createIn locale aAdcPath aName dd.place = some dd₁)
    (hg : Gains locale fs vs ms dd₁ dd₂) :
    ∃ name ks, NamedAfter aName name ∧ dd.keys locale = some ks ∧
      Util.foldCase locale name ∉ ks ∧ (Util.foldCase locale aName ∉ ks → name = aName) ∧
      Gains locale []
        [.node { name := name, type := .virtual, fullAdcPath := aAdcPath, files := fs } vs]
        ms dd dd₂.stepUp := by
  obtain ⟨v, name, hv, hafter, hfree, hsame, rfl⟩ := createIn_spec h
  refine ⟨name, keysOf locale v.children, hafter, ?_, hfree, hsame, ?_⟩
  · rw [DestDir.keys, hv]
    rfl
  · have hstep : dd₂.stepUp = { dd₂ with subdir := dd.subdir } := by
      have hsub := hg.subdir
      rw [stepUp, hsub]
      simp only [List.dropLast_concat]
      congr 1
      cases hs : dd.subdir with
      | none => simp [DestDir.place, hs]
      | some q =>
        have hq : q ≠ [] := by
          rintro rfl
          exact hin hs
        simp [DestDir.place, hs, hq]
    rw [hstep]
    refine ⟨hg.name, rfl, fun _ => rfl, ?_⟩
    have hchild : RoseTree.modifyAt (DirTree.nameKey locale)
        (dd.place ++ [Util.foldCase locale name]) (RoseTree.extend (DirTree.addFiles fs) vs)
        (RoseTree.modifyAt (DirTree.nameKey locale) dd.place
          (RoseTree.extend id [newDir aAdcPath name]) dd.dir) =
        RoseTree.modifyAt (DirTree.nameKey locale) dd.place (RoseTree.extend id
          [RoseTree.extend (DirTree.addFiles fs) vs (newDir aAdcPath name)]) dd.dir :=
      RoseTree.modifyAt_append_extend (c := newDir aAdcPath name) (fun _ => rfl) hv
        fun d hd heq => hfree (List.mem_map.mpr ⟨d, hd, heq⟩)
    rw [addFiles_nil]
    refine hg.dir.trans (congrArg (RoseTree.mapValue (DirTree.addFiles ms)) ?_)
    exact hchild

end DestDir

namespace ADLSearchManager

variable {locale : Locale} {rx : Regex ρ} {c : List (ADLSearch ρ)} {m : ADLSearchManager ρ}
  {l l' : List DestDir} {dd dd' dd₁ dd₂ : DestDir} {i : Nat} {f : File} {fs ms : List File}
  {aAdcPath name nmdcPath : Str} {d : DirTree} {ds vs : List DirTree} {ks : List (List Nat)}

open DestDir

/-! ## Files -/

/-- Each destination gets a file at most once. -/
theorem matchFileSearches_spec
    (h : matchFileSearches locale rx false f nmdcPath c l = some l') (hdd : l[i]? = some dd) :
    l'[i]? = some (if !dd.fileAdded && c.any (fun is => is.ddIndex == i &&
      is.matchesFile locale rx f.name nmdcPath f.size == some true) then dd.addFile f else dd) := by
  induction c generalizing l dd with
  | nil =>
    obtain rfl := Option.some.inj h
    simpa using hdd
  | cons is c ih =>
    rw [matchFileSearches] at h
    obtain ⟨id, hid, h⟩ := Option.bind_eq_some_iff.mp h
    rw [List.any_cons]
    split at h
    · next hadded =>
      rw [ih h hdd]
      by_cases hi : is.ddIndex = i
      · obtain rfl := Option.some.inj ((hi ▸ hid).symm.trans hdd)
        simp [hadded]
      · simp [hi]
    · next hadded =>
      obtain ⟨found, hfound, h⟩ := Option.bind_eq_some_iff.mp h
      cases found with
      | false =>
        rw [ih h hdd]
        simp [hfound]
      | true =>
        simp only [if_true, Bool.false_eq_true, if_false] at h
        by_cases hi : is.ddIndex = i
        · obtain rfl := Option.some.inj ((hi ▸ hid).symm.trans hdd)
          have hset : (l.set is.ddIndex (id.addFile f))[i]? = some (id.addFile f) := by
            rw [← hi, List.getElem?_set_self]
            exact (List.getElem?_eq_some_iff.mp hid).1
          rw [ih h hset]
          simp [hi, hfound, hadded, addFile]
        · have hset : (l.set is.ddIndex (id.addFile f))[i]? = some dd := by
            rw [List.getElem?_set_ne hi, hdd]
          rw [ih h hset]
          simp [hi]

/-- What `MatchesFile` adds to a destination. -/
theorem MatchesFile_spec (hbreak : m.breakOnFirst = false)
    (h : m.MatchesFile locale rx l f aAdcPath = some l') (hdd : l[i]? = some dd) :
    l'[i]? = some (if fileMatched locale rx m.collection i aAdcPath f then
      (dd.addToSubdir locale f).addFile f else dd.addToSubdir locale f) := by
  have hmap : (l.map (DestDir.addToSubdir locale f))[i]? = some (dd.addToSubdir locale f) := by
    rw [List.getElem?_map, hdd]
    rfl
  have hadded : (dd.addToSubdir locale f).fileAdded = false := by
    rw [addToSubdir]
    split <;> rfl
  rw [MatchesFile] at h
  dsimp only at h
  split at h
  · next hempty =>
    obtain rfl := Option.some.inj h
    simp [hmap, fileMatched, hempty]
  · next hempty =>
    rw [hbreak] at h
    rw [matchFileSearches_spec h hmap]
    simp [hadded, fileMatched, hempty]

/-- One file as a gain: for the open copy, and for the destination if it is matched. -/
theorem gains_file (hbreak : m.breakOnFirst = false)
    (h : m.MatchesFile locale rx l f aAdcPath = some l') (hdd : l[i]? = some dd) :
    ∃ dd', l'[i]? = some dd' ∧ Gains locale (if dd.subdir.isSome then [f] else []) []
      ([f].filter (fileMatched locale rx m.collection i aAdcPath)) dd dd' := by
  refine ⟨_, MatchesFile_spec hbreak h hdd, ?_⟩
  have hsub : Gains locale (if dd.subdir.isSome then [f] else []) [] [] dd
      (dd.addToSubdir locale f) := by
    cases hs : dd.subdir with
    | none =>
      have hrefl := Gains.refl locale dd
      rw [addToSubdir, hs]
      exact ⟨rfl, hs.symm, fun _ => rfl, hrefl.dir⟩
    | some p =>
      rw [addToSubdir, hs]
      refine ⟨rfl, hs.symm, fun hnone => (Option.some_ne_none p (hs.symm.trans hnone)).elim, ?_⟩
      rw [DestDir.place, hs]
      cases hmod : RoseTree.modifyAt (DirTree.nameKey locale) p
        (RoseTree.extend (DirTree.addFiles [f]) []) dd.dir
      simp [hmod, RoseTree.mapValue]
  by_cases hmatched : fileMatched locale rx m.collection i aAdcPath f = true
  · rw [if_pos hmatched, List.filter_cons_of_pos hmatched]
    refine ⟨hsub.name, hsub.subdir, hsub.closed, ?_⟩
    rw [addFile, hsub.dir]
    simp [RoseTree.mapValue]
  · rw [if_neg hmatched, List.filter_cons_of_neg hmatched]
    exact hsub

/-- The files of a directory. -/
theorem gains_files (hbreak : m.breakOnFirst = false) {files : List File}
    (h : files.foldlM (fun l file => m.MatchesFile locale rx l file aAdcPath) l = some l')
    (hdd : l[i]? = some dd) (hin : dd.Inside) :
    ∃ dd', l'[i]? = some dd' ∧ Gains locale (if dd.subdir.isSome then files else []) []
      (files.filter (fileMatched locale rx m.collection i aAdcPath)) dd dd' := by
  induction files generalizing l dd with
  | nil =>
    obtain rfl := Option.some.inj h
    refine ⟨dd, hdd, ?_⟩
    simpa using Gains.refl locale dd
  | cons f files ih =>
    rw [List.foldlM_cons] at h
    obtain ⟨l₁, hl₁, h⟩ := Option.bind_eq_some_iff.mp h
    obtain ⟨dd₁, hdd₁, hgain⟩ := gains_file hbreak hl₁ hdd
    obtain ⟨dd', hdd', hrest⟩ := ih h hdd₁ (hgain.inside hin)
    refine ⟨dd', hdd', ?_⟩
    have hall := hgain.trans hin hrest
    rw [← List.filter_append, hgain.subdir] at hall
    cases hs : dd.subdir with
    | none => simpa [hs] using hall
    | some p => simpa [hs] using hall

/-! ## Directories -/

/-- Each destination gets a directory at most once. -/
theorem matchDirectorySearches_spec
    (h : matchDirectorySearches locale rx false aAdcPath name c l = some l')
    (hdd : l[i]? = some dd) :
    ∃ dd', l'[i]? = some dd' ∧ if dd.subdir.isNone && c.any (fun is => is.ddIndex == i &&
      is.matchesDirectory locale rx name == some true) then
        dd.createIn locale aAdcPath name [] = some dd' else dd' = dd := by
  induction c generalizing l dd with
  | nil =>
    obtain rfl := Option.some.inj h
    exact ⟨dd, hdd, by simp⟩
  | cons is c ih =>
    rw [matchDirectorySearches] at h
    obtain ⟨id, hid, h⟩ := Option.bind_eq_some_iff.mp h
    rw [List.any_cons]
    split at h
    · next hopen =>
      obtain ⟨dd', hdd', hspec⟩ := ih h hdd
      refine ⟨dd', hdd', ?_⟩
      by_cases hi : is.ddIndex = i
      · obtain rfl := Option.some.inj ((hi ▸ hid).symm.trans hdd)
        obtain ⟨p, hp⟩ := Option.isSome_iff_exists.mp hopen
        simpa [hp] using hspec
      · simpa [hi] using hspec
    · next hopen =>
      obtain ⟨found, hfound, h⟩ := Option.bind_eq_some_iff.mp h
      cases found with
      | false =>
        obtain ⟨dd', hdd', hspec⟩ := ih h hdd
        exact ⟨dd', hdd', by simpa [hfound] using hspec⟩
      | true =>
        simp only [if_true, Bool.false_eq_true, if_false] at h
        obtain ⟨id', hid', h⟩ := Option.bind_eq_some_iff.mp h
        by_cases hi : is.ddIndex = i
        · obtain rfl := Option.some.inj ((hi ▸ hid).symm.trans hdd)
          have hset : (l.set is.ddIndex id')[i]? = some id' := by
            rw [← hi, List.getElem?_set_self]
            exact (List.getElem?_eq_some_iff.mp hid).1
          obtain ⟨dd', hdd', hspec⟩ := ih h hset
          have hsame : dd' = id' := by simpa [isNone_of_createIn hid'] using hspec
          refine ⟨dd', hdd', ?_⟩
          rw [hsame]
          simpa [hi, hfound, Option.not_isSome_iff_eq_none.mp hopen] using hid'
        · have hset : (l.set is.ddIndex id')[i]? = some dd := by
            rw [List.getElem?_set_ne hi, hdd]
          obtain ⟨dd', hdd', hspec⟩ := ih h hset
          exact ⟨dd', hdd', by simpa [hi] using hspec⟩

/-- What becomes of a destination in front of a directory: it is entered if it is being copied, or
    matched. -/
def Entered (locale : Locale) (rx : Regex ρ) (c : List (ADLSearch ρ)) (i : Nat)
    (aAdcPath name : Str) (dd dd₁ : DestDir) : Prop :=
  if dd.subdir.isSome || directoryMatched locale rx c i name then
    dd.createIn locale aAdcPath name dd.place = some dd₁
  else dd₁ = dd

theorem MatchesDirectory_spec (hbreak : m.breakOnFirst = false)
    (h : m.MatchesDirectory locale rx l name aAdcPath = some l') (hdd : l[i]? = some dd) :
    ∃ dd₁, l'[i]? = some dd₁ ∧ Entered locale rx m.collection i aAdcPath name dd dd₁ := by
  rw [MatchesDirectory] at h
  obtain ⟨l₁, hl₁, h⟩ := Option.bind_eq_some_iff.mp h
  obtain ⟨hi, rfl⟩ := List.getElem?_eq_some_iff.mp hdd
  obtain ⟨hlen, hsteps⟩ := List.forall₂_iff_get.mp (Lib.forall₂_of_mapM hl₁)
  have hi₁ : i < l₁.length := hlen ▸ hi
  have hstep := hsteps i hi hi₁
  simp only [List.get_eq_getElem, createInSubdir] at hstep
  have hget : l₁[i]? = some l₁[i] := List.getElem?_eq_getElem hi₁
  cases hs : l[i].subdir with
  | some p =>
    rw [hs] at hstep
    have hopen : l₁[i].subdir.isNone = false := isNone_of_createIn hstep
    have hsame : l'[i]? = some l₁[i] := by
      split at h
      · rw [← Option.some.inj h, hget]
      · rw [hbreak] at h
        obtain ⟨dd', hdd', hspec⟩ := matchDirectorySearches_spec h hget
        have hdd₁ : dd' = l₁[i] := by simpa [hopen] using hspec
        rw [hdd', hdd₁]
    refine ⟨l₁[i], hsame, ?_⟩
    rw [Entered, hs, Option.isSome_some, Bool.true_or, if_pos rfl, DestDir.place, hs]
    exact hstep
  | none =>
    rw [hs] at hstep
    have hsame : l₁[i] = l[i] := (Option.some.inj hstep).symm
    split at h
    · next hempty =>
      refine ⟨l[i], ?_, ?_⟩
      · rw [← Option.some.inj h, hget, hsame]
      · simp [Entered, hs, directoryMatched, hempty]
    · next hempty =>
      rw [hbreak] at h
      obtain ⟨dd', hdd', hspec⟩ := matchDirectorySearches_spec h hget
      refine ⟨dd', hdd', ?_⟩
      rw [hsame, hs] at hspec
      simpa [Entered, hs, directoryMatched, hempty, DestDir.place] using hspec

/-! ## The traversal -/

/-- A destination in front of some directories: these have different names, also from what has been
    copied to where they are going to be copied. -/
structure Ready (locale : Locale) (dd : DestDir) (ds : List DirTree) (ks : List (List Nat)) :
    Prop where
  inside : dd.Inside
  keys : dd.keys locale = some ks
  nodup : ks.Nodup
  fresh : dd.subdir ≠ none → (ks ++ keysOf locale ds).Nodup

/-- What a destination gets of some directories: copies of them all, or of the topmost ones that are
    matched, with names that are new. -/
def Collects (locale : Locale) (rx : Regex ρ) (c : List (ADLSearch ρ)) (i : Nat) (aAdcPath : Str)
    (ds : List DirTree) (dd : DestDir) (ks : List (List Nat)) (vs : List DirTree) : Prop :=
  if dd.subdir.isSome then vs = copiesOf aAdcPath ds
  else List.Forall₂ CopiedAs (topmostIn locale rx c i aAdcPath ds) vs ∧
    (ks ++ keysOf locale vs).Nodup

/-- A copy that has just been made is ready for what is in a directory. -/
theorem ready_of_createIn (hd : d.Distinct locale)
    (h : dd.createIn locale aAdcPath name dd.place = some dd₁) : Ready locale dd₁ d.children
    [] := by
  obtain ⟨v, name', hv, -, hfree, -, rfl⟩ := createIn_spec h
  refine ⟨by simp [Inside], ?_, List.nodup_nil, fun _ => ?_⟩
  · have hat : RoseTree.at? (DirTree.nameKey locale) (dd.place ++ [Util.foldCase locale name'])
        (RoseTree.modifyAt (DirTree.nameKey locale) dd.place
          (RoseTree.extend id [newDir aAdcPath name']) dd.dir) = some (newDir aAdcPath name') :=
      RoseTree.at?_concat (c := newDir aAdcPath name') (fun _ => rfl) hv
        fun d hd heq => hfree (List.mem_map.mpr ⟨d, hd, heq⟩)
    rw [DestDir.keys, DestDir.place, Option.getD_some, hat]
    rfl
  · cases hd with
    | intro names sub => simpa using names

theorem copyOf_eq (aAdcPath : Str) (d : DirTree) :
    copyOf aAdcPath d =
      .node { name := d.getName, type := .virtual, fullAdcPath := aAdcPath, files := d.value.files }
        (copiesOf aAdcPath d.children) := by
  cases d
  rw [copyOf]
  rfl

/-- **A subdirectory that is copied.** -/
theorem gains_copy (hd : d.Distinct locale) (hready : Ready locale dd (d :: ds) ks)
    (hcreate : dd.createIn locale aAdcPath d.getName dd.place = some dd₁)
    {P : DestDir → Prop} (hrec : ∀ ks', Ready locale dd₁ d.children ks' → ∃ dd₂ vs, P dd₂.stepUp ∧
      Gains locale (if dd₁.subdir.isSome then d.value.files else []) vs ms dd₁ dd₂ ∧
      Collects locale rx c i aAdcPath d.children dd₁ ks' vs) :
    ∃ dd' v, P dd' ∧ CopiedAs (aAdcPath, d) v ∧ (dd.subdir ≠ none → v = copyOf aAdcPath d) ∧
      Gains locale [] [v] ms dd dd' ∧ Ready locale dd' ds (ks ++ keysOf locale [v]) := by
  obtain ⟨dd₂, vs, hP, hgain, hcollects⟩ := hrec [] (ready_of_createIn hd hcreate)
  have hopen : dd₁.subdir.isSome = true := by
    simpa using isNone_of_createIn hcreate
  rw [if_pos hopen] at hgain
  rw [Collects, if_pos hopen] at hcollects
  obtain ⟨name', ks', hafter, hks', hfree, hsame, hleave⟩ := hgain.leave hready.inside hcreate
  obtain rfl := Option.some.inj (hready.keys.symm.trans hks')
  rw [hcollects] at hleave
  have hname : dd.subdir ≠ none → name' = d.getName := by
    intro hs
    refine hsame fun hmem => ?_
    have hnodup := hready.fresh hs
    rw [keysOf, List.map_cons] at hnodup
    exact (List.nodup_append.mp hnodup).2.2 _ hmem _ List.mem_cons_self rfl
  refine ⟨_, _, hP, ⟨name', hafter, ?_⟩, fun hs => ?_, hleave, ?_⟩
  · rw [copyOf_eq]
    rfl
  · rw [copyOf_eq, hname hs]
  · refine ⟨hleave.inside hready.inside, ?_, ?_, fun hs => ?_⟩
    · rw [hleave.keys, hready.keys]
      rfl
    · refine List.nodup_append.mpr ⟨hready.nodup, List.nodup_singleton _, ?_⟩
      rintro k hk k' hk' rfl
      obtain rfl := List.mem_singleton.mp hk'
      exact hfree hk
    · have hs' : dd.subdir ≠ none := by rwa [hleave.subdir] at hs
      have hnodup := hready.fresh hs'
      simpa [hname hs', DirTree.nameKey] using hnodup

/-- **One subdirectory**: what it adds to a destination, which is ready for the next ones then. -/
theorem gains_subdirectory (hd : d.Distinct locale) (hready : Ready locale dd (d :: ds) ks)
    (hentered : Entered locale rx c i aAdcPath d.getName dd dd₁)
    {P : DestDir → Prop} (hrec : ∀ ks', Ready locale dd₁ d.children ks' → ∃ dd₂ vs, P dd₂.stepUp ∧
      Gains locale (if dd₁.subdir.isSome then d.value.files else []) vs ms dd₁ dd₂ ∧
      Collects locale rx c i aAdcPath d.children dd₁ ks' vs) :
    ∃ dd' vs, P dd' ∧ Gains locale [] vs ms dd dd' ∧
      Ready locale dd' ds (ks ++ keysOf locale vs) ∧
        if dd.subdir.isSome then vs = [copyOf aAdcPath d]
      else List.Forall₂ CopiedAs (if directoryMatched locale rx c i d.getName then [(aAdcPath, d)]
        else topmost locale rx c i aAdcPath d) vs := by
  rw [Entered] at hentered
  split at hentered
  · next henter =>
    obtain ⟨dd', v, hP, hcopied, hcopy, hgain, hready'⟩ := gains_copy hd hready hentered hrec
    refine ⟨dd', [v], hP, hgain, hready', ?_⟩
    cases hs : dd.subdir with
    | some p => simp [hcopy (by simp [hs])]
    | none =>
      have hmatched : directoryMatched locale rx c i d.getName = true := by simpa [hs] using henter
      simpa [hmatched] using hcopied
  · next henter =>
    rw [hentered] at hrec
    obtain ⟨hs, hmatched⟩ : dd.subdir = none ∧
      directoryMatched locale rx c i d.getName = false := by
      simpa using henter
    obtain ⟨dd₂, vs, hP, hgain, hcollects⟩ :=
      hrec ks ⟨hready.inside, hready.keys, hready.nodup, fun hs' => absurd hs hs'⟩
    rw [Collects, hs] at hcollects
    rw [hs] at hgain
    obtain ⟨hcopies, hnodup⟩ : _ ∧ _ := hcollects
    have hup : dd₂.stepUp = dd₂ := by rw [stepUp, hgain.subdir, hs]
    rw [hup] at hP
    refine ⟨dd₂, vs, hP, hgain, ⟨hgain.inside hready.inside, ?_, hnodup, fun hs' => ?_⟩, ?_⟩
    · rw [hgain.keys, hready.keys]
      rfl
    · exact absurd (hgain.subdir.trans hs) hs'
    · cases d
      simpa [hs, hmatched, topmost] using hcopies

/-- The next subdirectories. -/
theorem Collects.cons {ws : List DirTree}
    (hfirst : if dd.subdir.isSome then vs = [copyOf (joinAdcDirectory aAdcPath d.getName) d]
      else List.Forall₂ CopiedAs
        (if directoryMatched locale rx c i d.getName then [(joinAdcDirectory aAdcPath d.getName, d)]
          else topmost locale rx c i (joinAdcDirectory aAdcPath d.getName) d) vs)
    (hsub : dd₁.subdir = dd.subdir)
    (hrest : Collects locale rx c i aAdcPath ds dd₁ (ks ++ keysOf locale vs) ws) :
    Collects locale rx c i aAdcPath (d :: ds) dd ks (vs ++ ws) := by
  rw [Collects, hsub] at hrest
  rw [Collects]
  split
  · next hopen =>
    rw [if_pos hopen] at hfirst hrest
    rw [hfirst, hrest, copiesOf, List.singleton_append]
  · next hopen =>
    rw [if_neg hopen] at hfirst hrest
    obtain ⟨hcopies, hnodup⟩ := hrest
    rw [topmostIn]
    refine ⟨List.rel_append hfirst hcopies, ?_⟩
    simpa using hnodup

mutual

/-- **What the traversal of a directory adds to a destination.** -/
theorem matchRecurse_spec (hbreak : m.breakOnFirst = false) (aAdcPath : Str) :
    ∀ (t : DirTree) (l l' : List DestDir), t.Distinct locale →
      m.matchRecurse locale rx aAdcPath t l = some l' →
      ∀ i dd, l[i]? = some dd → ∀ ks, Ready locale dd t.children ks →
        ∃ dd₂ vs, l'[i]? = some dd₂.stepUp ∧
          Gains locale (if dd.subdir.isSome then t.value.files else []) vs
            (matchedFiles locale rx m.collection i aAdcPath t) dd dd₂ ∧
          Collects locale rx m.collection i aAdcPath t.children dd ks vs
  | .node a directories, l, l', hdistinct, h, i, dd, hdd, ks, hready => by
    rw [matchRecurse] at h
    obtain ⟨l₁, hl₁, h⟩ := Option.bind_eq_some_iff.mp h
    obtain ⟨l₂, hl₂, h⟩ := Option.bind_eq_some_iff.mp h
    obtain rfl := Option.some.inj h
    have hsub : ∀ d ∈ directories, DirTree.Distinct locale d := by
      cases hdistinct with
      | intro names sub => exact sub
    obtain ⟨dd₁, vs, hdd₁, hgain, hcollects⟩ :=
      matchSubdirectories_spec hbreak aAdcPath directories l l₁ hsub hl₁ i dd hdd ks hready
    obtain ⟨dd₂, hdd₂, hfiles⟩ := gains_files hbreak hl₂ hdd₁ (hgain.inside hready.inside)
    refine ⟨dd₂, vs, ?_, ?_, hcollects⟩
    · rw [stepUpDirectory, List.getElem?_map, hdd₂]
      rfl
    · have hall := hgain.trans hready.inside hfiles
      rw [hgain.subdir, List.append_nil] at hall
      exact hall

theorem matchSubdirectories_spec (hbreak : m.breakOnFirst = false) (aAdcPath : Str) :
    ∀ (directories : List DirTree) (l l' : List DestDir),
      (∀ d ∈ directories, DirTree.Distinct locale d) →
      m.matchSubdirectories locale rx aAdcPath directories l = some l' →
      ∀ i dd, l[i]? = some dd → ∀ ks, Ready locale dd directories ks →
        ∃ dd' vs, l'[i]? = some dd' ∧
          Gains locale [] vs (matchedFilesIn locale rx m.collection i aAdcPath directories) dd dd' ∧
          Collects locale rx m.collection i aAdcPath directories dd ks vs
  | [], l, l', _, h, i, dd, hdd, ks, hready => by
    obtain rfl := Option.some.inj h
    refine ⟨dd, [], hdd, Gains.refl locale dd, ?_⟩
    rw [Collects]
    split
    · rfl
    · exact ⟨.nil, by simpa using hready.nodup⟩
  | d :: directories, l, l', hsub, h, i, dd, hdd, ks, hready => by
    rw [matchSubdirectories] at h
    obtain ⟨l₁, hl₁, h⟩ := Option.bind_eq_some_iff.mp h
    obtain ⟨l₂, hl₂, h⟩ := Option.bind_eq_some_iff.mp h
    have hd := hsub d List.mem_cons_self
    obtain ⟨dd₁, hdd₁, hentered⟩ := MatchesDirectory_spec hbreak hl₁ hdd
    obtain ⟨dd₃, vs, hdd₃, hgain, hready', hfirst⟩ :=
      gains_subdirectory (P := fun dd => l₂[i]? = some dd) hd hready hentered fun ks' hready₁ =>
        matchRecurse_spec hbreak (joinAdcDirectory aAdcPath d.getName) d l₁ l₂ hd hl₂ i dd₁ hdd₁ ks'
          hready₁
    obtain ⟨dd', ws, hdd', hrest, hcollects⟩ := matchSubdirectories_spec hbreak aAdcPath directories
      l₂ l' (fun e he => hsub e (List.mem_cons_of_mem _ he)) h i dd₃ hdd₃ _ hready'
    exact ⟨dd', vs ++ ws, hdd', hgain.trans hready.inside hrest,
      Collects.cons hfirst hgain.subdir hcollects⟩

end

/-! ## The number of destinations -/

theorem matchFileSearches_length {b : Bool}
    (h : matchFileSearches locale rx b f nmdcPath c l = some l') : l'.length = l.length := by
  induction c generalizing l with
  | nil =>
    obtain rfl := Option.some.inj h
    rfl
  | cons is c ih =>
    rw [matchFileSearches] at h
    obtain ⟨id, -, h⟩ := Option.bind_eq_some_iff.mp h
    split at h
    · exact ih h
    · obtain ⟨found, -, h⟩ := Option.bind_eq_some_iff.mp h
      split at h
      · dsimp only at h
        split at h
        · rw [← Option.some.inj h, List.length_set]
        · rw [ih h, List.length_set]
      · exact ih h

theorem matchDirectorySearches_length {b : Bool}
    (h : matchDirectorySearches locale rx b aAdcPath name c l = some l') : l'.length =
    l.length := by
  induction c generalizing l with
  | nil =>
    obtain rfl := Option.some.inj h
    rfl
  | cons is c ih =>
    rw [matchDirectorySearches] at h
    obtain ⟨id, -, h⟩ := Option.bind_eq_some_iff.mp h
    split at h
    · exact ih h
    · obtain ⟨found, -, h⟩ := Option.bind_eq_some_iff.mp h
      split at h
      · obtain ⟨id', -, h⟩ := Option.bind_eq_some_iff.mp h
        dsimp only at h
        split at h
        · rw [← Option.some.inj h, List.length_set]
        · rw [ih h, List.length_set]
      · exact ih h

theorem MatchesFile_length (h : m.MatchesFile locale rx l f aAdcPath = some l') :
    l'.length = l.length := by
  rw [MatchesFile] at h
  dsimp only at h
  split at h
  · rw [← Option.some.inj h, List.length_map]
  · rw [matchFileSearches_length h, List.length_map]

theorem MatchesDirectory_length (h : m.MatchesDirectory locale rx l name aAdcPath = some l') :
    l'.length = l.length := by
  rw [MatchesDirectory] at h
  obtain ⟨l₁, hl₁, h⟩ := Option.bind_eq_some_iff.mp h
  have hlen := (Lib.forall₂_of_mapM hl₁).length_eq
  split at h
  · rw [← Option.some.inj h, hlen]
  · rw [matchDirectorySearches_length h, hlen]

theorem foldlM_length {files : List File}
    (h : files.foldlM (fun l file => m.MatchesFile locale rx l file aAdcPath) l = some l') :
    l'.length = l.length := by
  induction files generalizing l with
  | nil => rw [← Option.some.inj h]
  | cons f files ih =>
    rw [List.foldlM_cons] at h
    obtain ⟨l₁, hl₁, h⟩ := Option.bind_eq_some_iff.mp h
    rw [ih h, MatchesFile_length hl₁]

mutual

theorem matchRecurse_length (aAdcPath : Str) : ∀ (t : DirTree) (l l' : List DestDir),
    m.matchRecurse locale rx aAdcPath t l = some l' → l'.length = l.length
  | .node a directories, l, l', h => by
    rw [matchRecurse] at h
    obtain ⟨l₁, hl₁, h⟩ := Option.bind_eq_some_iff.mp h
    obtain ⟨l₂, hl₂, h⟩ := Option.bind_eq_some_iff.mp h
    rw [← Option.some.inj h, stepUpDirectory, List.length_map, foldlM_length hl₂,
      matchSubdirectories_length aAdcPath directories l l₁ hl₁]

theorem matchSubdirectories_length (aAdcPath : Str) : ∀ (directories : List DirTree)
    (l l' : List DestDir), m.matchSubdirectories locale rx aAdcPath directories l = some l' →
      l'.length = l.length
  | [], l, l', h => by rw [← Option.some.inj h]
  | d :: directories, l, l', h => by
    rw [matchSubdirectories] at h
    obtain ⟨l₁, hl₁, h⟩ := Option.bind_eq_some_iff.mp h
    obtain ⟨l₂, hl₂, h⟩ := Option.bind_eq_some_iff.mp h
    rw [matchSubdirectories_length aAdcPath directories l₂ l' h,
      matchRecurse_length _ d l₁ l₂ hl₂, MatchesDirectory_length hl₁]

end

end ADLSearchManager
end Airdcpp
