import Airdcpp.FileList.DirectoryListing
import Airdcpp.Lib.Runs

/-!
# `FileList/PartialLists` — listings that are loaded piece by piece

What a list says is a sequence of entries: the files and directories in it, each with its path
(`step`). The loader adds the entries to the listing that is there (`Effects`): files are appended,
and a directory that is there already is only marked.

Nothing is taken back when an exception is thrown, and the directory that is loaded again was
cleared before. So a complete directory has the files of its last list only if the loads are
`Clean`.
-/

namespace Airdcpp

open SimpleXMLReader (Result)

namespace DirectoryListing

variable {locale : Locale}

/-! ## What a list says -/

inductive Entry
  | file (path : Path) (file : File)
  | directory (path : Path) (directory : Directory)
  | base (path : Path)
  | listed (path : Path)

/-- The file of a `File` element, if it has a size and a hash. -/
def listedFile (attribs : List (Str × Str)) : Result (Option File) :=
  let n := getAttrib attribs (str "Name") 0
  match ListLoader.validateName n with
  | .error e => .error e
  | .ok () =>
    let s := getAttrib attribs (str "Size") 1
    let h := getAttrib attribs (str "TTH") 2
    if s = [] ∨ h = [] then .ok none
    else .ok (some ⟨n, Util.toInt64 s, TTHValue.ofBase32 h,
      parseRemoteFileItemDate (getAttrib attribs (str "Date") 3)⟩)

/-- The directory of a `Directory` element. -/
def listedDirectory (attribs : List (Str × Str)) : Result Directory :=
  let name := getAttrib attribs (str "Name") 0
  match ListLoader.validateName name with
  | .error e => .error e
  | .ok () =>
    let incomplete := getAttrib attribs (str "Incomplete") 1 == str "1"
    let directories := Util.toInt (getAttrib attribs (str "Directories") 2)
    let size := getAttrib attribs (str "Size") 2
    .ok ⟨name, ListLoader.parseDirectoryType incomplete directories,
      if size = [] then 0 else Util.toInt64 size,
      parseRemoteFileItemDate (getAttrib attribs (str "Date") 3), []⟩

/-- Where in a list the reader is. -/
structure Place where
  cur : Option Path
  inListing : Bool

abbrev Step := Option (Result (Place × List Entry))

/-- The path of the base directory. -/
def basePath (locale : Locale) (base : Str) : Path :=
  (getTokens base).map (Util.foldCase locale)

/-- An end tag, or the end of a tag without content. -/
def stepEnd (place : Place) (name : Str) : Step :=
  if place.inListing then
    if name = str "Directory" then
      place.cur.map fun cur => .ok (⟨if cur = [] then none else some cur.dropLast, true⟩, [])
    else if name = str "FileListing" then
      place.cur.map fun cur => .ok (⟨some cur, false⟩, [.listed cur])
    else some (.ok (place, []))
  else some (.ok (place, []))

def stepFile (place : Place) (attribs : List (Str × Str)) : Step :=
  match listedFile attribs with
  | .error e => some (.error e)
  | .ok none => some (.ok (place, []))
  | .ok (some f) => place.cur.map fun cur => .ok (place, [.file cur f])

def stepDirectory (locale : Locale) (place : Place) (attribs : List (Str × Str)) : Step :=
  match listedDirectory attribs with
  | .error e => some (.error e)
  | .ok d => place.cur.map fun cur =>
    let path := cur ++ [Util.foldCase locale d.name]
    .ok (⟨some path, true⟩, [.directory path d])

/-- The listing is there only for the base directory. -/
def stepListing (locale : Locale) (base : Str) (attribs : List (Str × Str)) : Step :=
  let b := getAttrib attribs (str "Base") 2
  if Util.sameNoCase locale b base then
    some (.ok (⟨some (basePath locale base), true⟩, [.base (basePath locale base)]))
  else some (.error (ListLoader.baseMismatch b base))

/-- A tag without content ends at once. -/
def stepSimple (name : Str) (simple : Bool) : Step → Step
  | some (.ok (place, entries)) =>
    if simple then (stepEnd place name).map fun x => x.map fun y => (y.1, entries ++ y.2)
    else some (.ok (place, entries))
  | x => x

def step (locale : Locale) (base : Str) (place : Place) : Event → Step
  | .data _ => some (.ok (place, []))
  | .endTag name => stepEnd place name
  | .startTag name attribs simple =>
    if place.inListing then
      if name = str "File" then stepFile place attribs
      else if name = str "Directory" then
        stepSimple name simple (stepDirectory locale place attribs)
      else some (.ok (place, []))
    else if name = str "FileListing" then stepSimple name simple (stepListing locale base attribs)
    else some (.ok (place, []))

/-- The entries of a document, and whether it is read to its end. -/
def listedEntries (locale : Locale) (base : Str) (place : Place) :
    List Event → (readable : Bool) → Option (List Entry × Bool)
  | [], readable => some ([], readable)
  | e :: events, readable =>
    match step locale base place e with
    | none => none
    | some (.error _) => some ([], false)
    | some (.ok (place', entries)) =>
      (listedEntries locale base place' events readable).map fun x => (entries ++ x.1, x.2)

/-- The files that a list has for a directory. -/
def filesAt (q : Path) : List Entry → List File
  | [] => []
  | .file path f :: entries => if path = q then f :: filesAt q entries else filesAt q entries
  | _ :: entries => filesAt q entries

/-- The names of its directories. -/
def directoriesAt (q : Path) (key : List Nat) (entries : List Entry) : Prop :=
  ∃ d, Entry.directory (q ++ [key]) d ∈ entries

/-- The list is complete for a directory. -/
def Marks (q : Path) (entries : List Entry) : Prop :=
  Entry.listed q ∈ entries ∨ ∃ d, Entry.directory q d ∈ entries ∧ d.isComplete = true

theorem filesAt_append (q : Path) (es es' : List Entry) :
    filesAt q (es ++ es') = filesAt q es ++ filesAt q es' := by
  induction es with
  | nil => rfl
  | cons e es ih =>
    cases e with
    | file path f =>
      rw [List.cons_append, filesAt, filesAt, ih]
      split <;> rfl
    | directory path d => exact ih
    | base path => exact ih
    | listed path => exact ih

theorem marks_append (q : Path) (es es' : List Entry) :
    Marks q (es ++ es') ↔ Marks q es ∨ Marks q es' := by
  simp only [Marks, List.mem_append]
  constructor
  · rintro ((h | h) | ⟨d, h | h, hd⟩)
    · exact Or.inl (Or.inl h)
    · exact Or.inr (Or.inl h)
    · exact Or.inl (Or.inr ⟨d, h, hd⟩)
    · exact Or.inr (Or.inr ⟨d, h, hd⟩)
  · rintro ((h | ⟨d, h, hd⟩) | (h | ⟨d, h, hd⟩))
    · exact Or.inl (Or.inl h)
    · exact Or.inr ⟨d, Or.inl h, hd⟩
    · exact Or.inl (Or.inr h)
    · exact Or.inr ⟨d, Or.inr h, hd⟩

/-! ## What the loader does with it -/

def filesOf (dirs : Directories) (q : Path) : List File := ((dirs q).map Directory.files).getD []

def completeAt (dirs : Directories) (q : Path) : Prop := ∃ d, dirs q = some d ∧ d.isComplete = true

/-- Directories are in directories, and the map has them under their names. -/
structure Formed (locale : Locale) (dirs : Directories) : Prop where
  root : dirs [] ≠ none
  parent : ∀ p k, dirs (p ++ [k]) ≠ none → dirs p ≠ none
  name : ∀ p k d, dirs (p ++ [k]) = some d → Util.foldCase locale d.name = k

/-- From one listing to another by some entries. -/
structure Effects (dirs dirs' : Directories) (entries : List Entry) : Prop where
  files : ∀ q, filesOf dirs' q = filesOf dirs q ++ filesAt q entries
  complete : ∀ q, completeAt dirs' q ↔ completeAt dirs q ∨ Marks q entries
  keeps : ∀ q, dirs q ≠ none → dirs' q ≠ none
  directories : ∀ q d, Entry.directory q d ∈ entries → dirs' q ≠ none

theorem Effects.refl (dirs : Directories) : Effects dirs dirs [] where
  files q := by simp [filesAt]
  complete q := by simp [Marks]
  keeps q h := h
  directories q d h := by cases h

theorem Effects.trans {dirs₁ dirs₂ dirs₃ : Directories} {es es' : List Entry}
    (h : Effects dirs₁ dirs₂ es) (h' : Effects dirs₂ dirs₃ es') :
    Effects dirs₁ dirs₃ (es ++ es') where
  files q := by rw [h'.files, h.files, filesAt_append, List.append_assoc]
  complete q := by rw [h'.complete, h.complete, marks_append, or_assoc]
  keeps q hq := h'.keeps q (h.keeps q hq)
  directories q d hd := by
    rcases List.mem_append.mp hd with hd | hd
    · exact h'.keeps q (h.directories q d hd)
    · exact h'.directories q d hd

/-! ## Single changes -/

theorem modify_self {dirs : Directories} {p : Path} {f : Directory → Directory} :
    modify dirs p f p = (dirs p).map f := if_pos rfl

theorem modify_of_ne {dirs : Directories} {p q : Path} {f : Directory → Directory} (h : q ≠ p) :
    modify dirs p f q = dirs q := if_neg h

theorem create_self {dirs : Directories} {p : Path} {d : Directory} :
    create dirs p d p = some d := if_pos rfl

theorem create_of_ne {dirs : Directories} {p q : Path} {d : Directory} (h : q ≠ p) :
    create dirs p d q = dirs q := if_neg h

theorem modify_keeps {dirs : Directories} {p : Path} {f : Directory → Directory} {q : Path} :
    modify dirs p f q ≠ none ↔ dirs q ≠ none := by
  by_cases hq : q = p
  · subst hq
    rw [modify_self]
    cases dirs q <;> simp
  · rw [modify_of_ne hq]

theorem Formed.modify {dirs : Directories} {p : Path} {f : Directory → Directory}
    (hd : Formed locale dirs) (hf : ∀ d, (f d).name = d.name) :
    Formed locale (modify dirs p f) where
  root := modify_keeps.mpr hd.root
  parent q k hq := modify_keeps.mpr (hd.parent q k (modify_keeps.mp hq))
  name q k d h := by
    by_cases hq : q ++ [k] = p
    · rw [← hq, modify_self] at h
      obtain ⟨d₀, h₀, rfl⟩ := Option.map_eq_some_iff.mp h
      rw [hf]
      exact hd.name q k d₀ h₀
    · rw [modify_of_ne hq] at h
      exact hd.name q k d h

theorem Formed.create {dirs : Directories} {p : Path} {k : List Nat} {d : Directory}
    (hd : Formed locale dirs) (hp : dirs p ≠ none) (hk : Util.foldCase locale d.name = k) :
    Formed locale (create dirs (p ++ [k]) d) := by
  have hkeeps : ∀ q, dirs q ≠ none → DirectoryListing.create dirs (p ++ [k]) d q ≠ none := by
    intro q hq
    by_cases hne : q = p ++ [k]
    · rw [hne, create_self]
      simp
    · rwa [create_of_ne hne]
  constructor
  case root => exact hkeeps _ hd.root
  case parent =>
    intro q k' hq
    by_cases hne : q ++ [k'] = p ++ [k]
    · rw [List.append_inj_left' hne rfl]
      exact hkeeps p hp
    · rw [create_of_ne hne] at hq
      exact hkeeps q (hd.parent q k' hq)
  case name =>
    intro q k' d' h
    by_cases hne : q ++ [k'] = p ++ [k]
    · rw [hne, create_self] at h
      cases h
      have hkey := List.append_inj_right' hne rfl
      rw [hk]
      exact (List.cons.inj hkey).1.symm
    · rw [create_of_ne hne] at h
      exact hd.name q k' d' h

theorem filesOf_of_eq {dirs dirs' : Directories} {q : Path} (h : dirs' q = dirs q) :
    filesOf dirs' q = filesOf dirs q := by
  unfold filesOf
  rw [h]

theorem completeAt_of_eq {dirs dirs' : Directories} {q : Path} (h : dirs' q = dirs q) :
    completeAt dirs' q ↔ completeAt dirs q := by
  unfold completeAt
  rw [h]

theorem filesOf_modify {dirs : Directories} {p : Path} {f : Directory → Directory}
    (hf : ∀ d, (f d).files = d.files) (q : Path) : filesOf (modify dirs p f) q =
    filesOf dirs q := by
  by_cases hq : q = p
  · subst hq
    unfold filesOf
    rw [modify_self]
    cases dirs q with
    | none => rfl
    | some d => exact hf d
  · exact filesOf_of_eq (modify_of_ne hq)

theorem completeAt_modify {dirs : Directories} {p : Path} {f : Directory → Directory}
    (hf : ∀ d, (f d).isComplete = d.isComplete) (q : Path) :
    completeAt (modify dirs p f) q ↔ completeAt dirs q := by
  by_cases hq : q = p
  · subst hq
    unfold completeAt
    rw [modify_self]
    cases dirs q <;> simp [hf]
  · exact completeAt_of_eq (modify_of_ne hq)

/-- A file is added. -/
theorem effects_file {dirs : Directories} {p : Path} {f : File} (hp : dirs p ≠ none) :
    Effects dirs (modify dirs p fun d => { d with files := d.files ++ [f] }) [.file p f] := by
  obtain ⟨d, hd⟩ := Option.ne_none_iff_exists'.mp hp
  constructor
  case files =>
    intro q
    by_cases hq : q = p
    · subst hq
      simp [filesOf, modify_self, hd, filesAt]
    · rw [filesOf_of_eq (modify_of_ne hq)]
      simp [filesAt, Ne.symm hq]
  case complete =>
    intro q
    rw [completeAt_modify (by intro d; rfl)]
    simp [Marks]
  case keeps => exact fun q => modify_keeps.mpr
  case directories => simp

/-- A directory is new. -/
theorem effects_new {dirs : Directories} {p : Path} {d : Directory} (hp : dirs p = none)
    (hd : d.files = []) : Effects dirs (create dirs p d) [.directory p d] := by
  constructor
  case files =>
    intro q
    by_cases hq : q = p
    · subst hq
      simp [filesOf, create_self, hp, hd, filesAt]
    · rw [filesOf_of_eq (create_of_ne hq)]
      simp [filesAt]
  case complete =>
    intro q
    by_cases hq : q = p
    · subst hq
      simp [completeAt, create_self, hp, Marks]
    · rw [completeAt_of_eq (create_of_ne hq)]
      simp [Marks, hq]
  case keeps =>
    intro q hq
    have hne : q ≠ p := by
      rintro rfl
      exact hq hp
    rwa [create_of_ne hne]
  case directories =>
    intro q d' h
    simp only [List.mem_singleton, Entry.directory.injEq] at h
    rw [h.1, create_self]
    simp

/-- A directory is there already, and is complete if the list says so. -/
theorem effects_old {dirs : Directories} {p : Path} {d : Directory} {f : Directory → Directory}
    (hp : dirs p ≠ none) (hfiles : ∀ d', (f d').files = d'.files)
    (hf : ∀ d', (f d').isComplete = (d'.isComplete || d.isComplete)) :
    Effects dirs (modify dirs p f) [.directory p d] := by
  obtain ⟨d₀, h₀⟩ := Option.ne_none_iff_exists'.mp hp
  constructor
  case files =>
    intro q
    rw [filesOf_modify hfiles]
    simp [filesAt]
  case complete =>
    intro q
    by_cases hq : q = p
    · subst hq
      simp [completeAt, modify_self, h₀, Marks, hf]
    · rw [completeAt_of_eq (modify_of_ne hq)]
      simp [Marks, hq]
  case keeps => exact fun q => modify_keeps.mpr
  case directories =>
    intro q d' h
    simp only [List.mem_singleton, Entry.directory.injEq] at h
    rw [h.1, modify_keeps]
    exact hp

/-- The end of the listing. -/
theorem effects_listed {dirs : Directories} {p : Path} (hp : dirs p ≠ none) :
    Effects dirs (modify dirs p Directory.setComplete) [.listed p] := by
  obtain ⟨d, hd⟩ := Option.ne_none_iff_exists'.mp hp
  constructor
  case files =>
    intro q
    rw [filesOf_modify (by intro d; rfl)]
    simp [filesAt]
  case complete =>
    intro q
    by_cases hq : q = p
    · subst hq
      simp [completeAt, modify_self, hd, Marks, Directory.setComplete, Directory.isComplete]
    · rw [completeAt_of_eq (modify_of_ne hq)]
      simp [Marks, hq]
  case keeps => exact fun q => modify_keeps.mpr
  case directories => simp

/-- Nothing that a list says changes with a date or an empty, incomplete directory. -/
theorem effects_quiet {dirs dirs' : Directories} {p : Path}
    (hfiles : ∀ q, filesOf dirs' q = filesOf dirs q)
    (hcomplete : ∀ q, completeAt dirs' q ↔ completeAt dirs q)
    (hkeeps : ∀ q, dirs q ≠ none → dirs' q ≠ none) : Effects dirs dirs' [.base p] where
  files q := by simp [hfiles, filesAt]
  complete q := by simp [hcomplete, Marks]
  keeps := hkeeps
  directories q d h := by simp at h

theorem createBase_spec {names : List Str} {dirs : Directories} {cur : Path}
    (hd : Formed locale dirs) (hcur : dirs cur ≠ none) :
    (createBase locale cur names dirs).1 = cur ++ names.map (Util.foldCase locale) ∧
    Formed locale (createBase locale cur names dirs).2 ∧
    (createBase locale cur names dirs).2 (createBase locale cur names dirs).1 ≠ none ∧
    (∀ q, filesOf (createBase locale cur names dirs).2 q = filesOf dirs q) ∧
    (∀ q, completeAt (createBase locale cur names dirs).2 q ↔ completeAt dirs q) ∧
    ∀ q, dirs q ≠ none → (createBase locale cur names dirs).2 q ≠ none := by
  induction names generalizing dirs cur with
  | nil => exact ⟨by simp [createBase], hd, hcur, fun q => rfl, fun q => Iff.rfl, fun q hq => hq⟩
  | cons name names ih =>
    simp only [createBase]
    by_cases hnext : (dirs (cur ++ [Util.foldCase locale name])).isSome = true
    · rw [if_pos hnext]
      obtain ⟨hpath, hrest⟩ := ih hd (Option.isSome_iff_ne_none.mp hnext)
      exact ⟨by rw [hpath]; simp, hrest⟩
    · rw [if_neg hnext]
      have hnone : dirs (cur ++ [Util.foldCase locale name]) = none := by simpa using hnext
      have hnew := hd.create (k := Util.foldCase locale name)
        (d := ⟨name, .incompleteChild, 0, 0, []⟩) hcur rfl
      have heff := effects_new (d := ⟨name, .incompleteChild, 0, 0, []⟩) hnone rfl
      obtain ⟨hpath, hform, hbase, hfiles, hcomplete, hkeeps⟩ :=
        ih hnew (by rw [create_self]; simp)
      refine ⟨by rw [hpath]; simp, hform, hbase, ?_, ?_, fun q hq => hkeeps q (heff.keeps q hq)⟩
      · intro q
        rw [hfiles, heff.files]
        simp [filesAt]
      · intro q
        rw [hcomplete, heff.complete]
        simp [Marks, Directory.isComplete]

/-! ## The callbacks -/

structure Ready (locale : Locale) (l : ListLoader) : Prop where
  updating : l.updating = true
  formed : Formed locale l.list
  cur : ∀ p, l.cur = some p → l.list p ≠ none

def place (l : ListLoader) : Place := ⟨l.cur, l.inListing⟩

/-- The loader has done what the list says. -/
inductive Follows (locale : Locale) (l : ListLoader) : Step → ListLoader.Outcome → Prop
  | crash : Follows locale l none none
  | error (e e' : Exception) : Follows locale l (some (.error e)) (some (.error e'))
  | ok {p : Place} {entries : List Entry} {l' : ListLoader} (hplace : place l' = p)
    (hbase : l'.base = l.base) (hready : Ready locale l') (heff : Effects l.list l'.list entries) :
    Follows locale l (some (.ok (p, entries))) (some (.ok l'))

theorem Follows.same {l : ListLoader} (hl : Ready locale l) :
    Follows locale l (some (.ok (place l, []))) (some (.ok l)) :=
  .ok rfl rfl hl (Effects.refl _)

theorem endTag_follows {l : ListLoader} (hl : Ready locale l) (name : Str) :
    Follows locale l (stepEnd (place l) name) (l.endTag name) := by
  by_cases hin : l.inListing = true
  · have hplace : (place l).inListing = true := hin
    rw [stepEnd, if_pos hplace, ListLoader.endTag, if_pos hin]
    by_cases hdir : name = str "Directory"
    · rw [if_pos hdir, if_pos hdir]
      cases hcur : l.cur with
      | none =>
        rw [place, hcur]
        exact .crash
      | some p =>
        rw [place, hcur]
        refine .ok ?_ rfl ?_ (Effects.refl _)
        · rw [place, hin]
        · refine ⟨hl.updating, hl.formed, ?_⟩
          intro q hq
          by_cases hroot : p = []
          · simp [hroot] at hq
          · simp only [if_neg hroot, Option.some.injEq] at hq
            subst hq
            have hp := hl.cur p hcur
            rw [← List.dropLast_append_getLast hroot] at hp
            exact hl.formed.parent _ _ hp
    · rw [if_neg hdir, if_neg hdir]
      by_cases hlist : name = str "FileListing"
      · rw [if_pos hlist, if_pos hlist]
        cases hcur : l.cur with
        | none =>
          rw [place, hcur]
          exact .crash
        | some p =>
          rw [place, hcur]
          have hp := hl.cur p hcur
          refine .ok rfl rfl ?_ (effects_listed hp)
          refine ⟨hl.updating, hl.formed.modify fun d => rfl, ?_⟩
          intro q hq
          exact modify_keeps.mpr (hl.cur q (hcur.trans hq))
      · rw [if_neg hlist, if_neg hlist]
        exact Follows.same hl
  · have hplace : ¬ (place l).inListing = true := hin
    rw [stepEnd, if_neg hplace, ListLoader.endTag, if_neg hin]
    exact Follows.same hl

theorem loadFile_follows {l : ListLoader} (hl : Ready locale l) (attribs : List (Str × Str)) :
    Follows locale l (stepFile (place l) attribs) (l.loadFile attribs) := by
  unfold stepFile listedFile ListLoader.loadFile
  cases hname : ListLoader.validateName (getAttrib attribs (str "Name") 0) with
  | error e =>
    simp only [hname]
    exact .error e e
  | ok u =>
    simp only [hname]
    by_cases hsize : getAttrib attribs (str "Size") 1 = []
    · rw [if_pos (Or.inl hsize), if_pos hsize]
      exact Follows.same hl
    · rw [if_neg hsize]
      by_cases hhash : getAttrib attribs (str "TTH") 2 = []
      · rw [if_pos (Or.inr hhash), if_pos hhash]
        exact Follows.same hl
      · rw [if_neg (by simp [hsize, hhash]), if_neg hhash]
        simp only [place]
        cases hcur : l.cur with
        | none => exact .crash
        | some p =>
          have hp := hl.cur p hcur
          refine .ok rfl rfl ?_ (effects_file hp)
          refine ⟨hl.updating, hl.formed.modify fun d => rfl, ?_⟩
          intro q hq
          exact modify_keeps.mpr (hl.cur q (hcur.trans hq))

theorem isComplete_parse (incomplete : Bool) (directories : Int) :
    (ListLoader.parseDirectoryType incomplete directories == .normal) = !incomplete := by
  unfold ListLoader.parseDirectoryType
  cases incomplete
  · rfl
  · simp only [Bool.not_true, Bool.false_eq_true, if_false]
    split <;> rfl

theorem loadDirectory_follows {l : ListLoader} (hl : Ready locale l)
    (hin : l.inListing = true) (attribs : List (Str × Str)) :
    Follows locale l (stepDirectory locale (place l) attribs) (l.loadDirectory locale attribs) := by
  unfold stepDirectory listedDirectory ListLoader.loadDirectory
  cases hname : ListLoader.validateName (getAttrib attribs (str "Name") 0) with
  | error e =>
    simp only [hname]
    exact .error e e
  | ok u =>
    simp only [hname, place]
    cases hcur : l.cur with
    | none => exact .crash
    | some p =>
      have hp := hl.cur p hcur
      simp only [Option.bind_eq_bind, Option.bind_some, Option.map_some]
      cases hnext : l.list (p ++ [Util.foldCase locale (getAttrib attribs (str "Name") 0)]) with
      | none =>
        refine .ok ?_ rfl ?_ (effects_new hnext rfl)
        · rw [place, hin]
        · refine ⟨hl.updating, hl.formed.create hp rfl, ?_⟩
          intro q hq
          cases hq
          exact Option.ne_none_iff_exists'.mpr ⟨_, create_self⟩
      | some d =>
        simp only [if_pos hl.updating]
        have hexists : l.list (p ++ [Util.foldCase locale (getAttrib attribs (str "Name") 0)]) ≠
            none := by
          rw [hnext]
          simp
        refine .ok ?_ rfl ?_ (effects_old hexists ?_ ?_)
        · rw [place, hin]
        · refine ⟨hl.updating, hl.formed.modify ?_, ?_⟩
          · intro d'
            split <;> rfl
          · intro q hq
            cases hq
            exact modify_keeps.mpr hexists
        · intro d'
          split <;> rfl
        · intro d'
          simp only [Directory.isComplete, isComplete_parse]
          cases hinc : getAttrib attribs (str "Incomplete") 1 == str "1"
          · simp [Directory.setComplete, Directory.setRemoteDate]
          · simp [Directory.setRemoteDate]

theorem loadListing_follows {l : ListLoader} (hl : Ready locale l) (attribs : List (Str × Str)) :
    Follows locale l (stepListing locale l.base attribs)
      (some (l.loadListing locale attribs)) := by
  unfold stepListing ListLoader.loadListing
  rw [if_pos hl.updating]
  by_cases hbase : Util.sameNoCase locale (getAttrib attribs (str "Base") 2) l.base = true
  · simp only [if_pos hbase]
    obtain ⟨hpath, hform, hexists, hfiles, hcomplete, hkeeps⟩ :=
      @createBase_spec locale (getTokens l.base) _ _ hl.formed hl.formed.root
    rw [List.nil_append] at hpath
    refine .ok ?_ rfl ?_ ?_
    · exact congrArg (fun p => Place.mk (some p) true) hpath
    · refine ⟨hl.updating, hform.modify fun d => rfl, ?_⟩
      intro q hq
      cases hq
      exact modify_keeps.mpr hexists
    · apply effects_quiet
      · intro q
        refine (filesOf_modify ?_ q).trans (hfiles q)
        intro d
        rfl
      · intro q
        refine (completeAt_modify ?_ q).trans (hcomplete q)
        intro d
        rfl
      · exact fun q hq => modify_keeps.mpr (hkeeps q hq)
  · simp only [if_neg hbase]
    exact .error _ _

theorem simple_follows {l : ListLoader} {x : Step} {y : ListLoader.Outcome}
    (h : Follows locale l x y) (name : Str) (simple : Bool) :
    Follows locale l (stepSimple name simple x) (ListLoader.endSimple name simple y) := by
  cases h with
  | crash => exact .crash
  | error e e' => exact .error e e'
  | ok hplace hbase hready heff =>
    rename_i p entries l'
    unfold stepSimple ListLoader.endSimple
    cases simple with
    | false => exact .ok hplace hbase hready heff
    | true =>
      simp only [if_true]
      subst hplace
      have hend := endTag_follows hready name
      generalize stepEnd (place l') name = x at hend
      generalize l'.endTag name = y at hend
      cases hend with
      | crash => exact .crash
      | error e e' => exact .error e e'
      | ok hplace' hbase' hready' heff' =>
        exact .ok hplace' (hbase'.trans hbase) hready' (heff.trans heff')

/-- **One callback.** -/
theorem callBack_follows {l : ListLoader} (hl : Ready locale l) (e : Event) :
    Follows locale l (step locale l.base (place l) e) (l.callBack locale e) := by
  cases e with
  | data data => exact Follows.same hl
  | endTag name => exact endTag_follows hl name
  | startTag name attribs simple =>
    rw [step, ListLoader.callBack, ListLoader.startTag]
    by_cases hin : l.inListing = true
    · have hplace : (place l).inListing = true := hin
      rw [if_pos hplace, if_pos hin]
      by_cases hfile : name = str "File"
      · rw [if_pos hfile, if_pos hfile]
        exact loadFile_follows hl attribs
      · rw [if_neg hfile, if_neg hfile]
        by_cases hdir : name = str "Directory"
        · rw [if_pos hdir, if_pos hdir]
          exact simple_follows (loadDirectory_follows hl hin attribs) name simple
        · rw [if_neg hdir, if_neg hdir]
          exact Follows.same hl
    · have hplace : ¬ (place l).inListing = true := hin
      rw [if_neg hplace, if_neg hin]
      by_cases hlist : name = str "FileListing"
      · rw [if_pos hlist, if_pos hlist]
        exact simple_follows (loadListing_follows hl attribs) name simple
      · rw [if_neg hlist, if_neg hlist]
        exact Follows.same hl

/-- **A document.** Its entries are added up to the place where it fails. -/
theorem run_effects {events : List Event} {readable ok : Bool} {l : ListLoader}
    {entries : List Entry} (hl : Ready locale l)
    (h : listedEntries locale l.base (place l) events readable = some (entries, ok)) :
    ∃ dirs, l.run locale events readable = some (dirs, ok) ∧ Effects l.list dirs entries ∧
      Formed locale dirs := by
  induction events generalizing l entries with
  | nil =>
    cases h
    exact ⟨l.list, rfl, Effects.refl _, hl.formed⟩
  | cons e events ih =>
    have hstep := callBack_follows hl e
    rw [listedEntries] at h
    rw [ListLoader.run]
    generalize step locale l.base (place l) e = x at hstep h
    generalize l.callBack locale e = y at hstep
    cases hstep with
    | crash => cases h
    | error e e' =>
      cases h
      exact ⟨l.list, rfl, Effects.refl _, hl.formed⟩
    | ok hplace hbase hready heff =>
      rename_i p es l'
      obtain ⟨⟨rest, ok'⟩, hrest, heq⟩ := Option.map_eq_some_iff.mp h
      cases heq
      subst hplace
      rw [← hbase] at hrest
      obtain ⟨dirs, hrun, heff', hform⟩ := ih hready hrest
      exact ⟨dirs, hrun, heff.trans heff', hform⟩

/-! ## Loading again -/

theorem clearAll_self {dirs : Directories} {p : Path} :
    clearAll dirs p p = (dirs p).map fun d => { d with files := [] } := if_pos rfl

theorem clearAll_below {dirs : Directories} {p q : Path} (hne : q ≠ p) (hq : p <+: q) :
    clearAll dirs p q = none := by
  unfold clearAll
  rw [if_neg hne, if_pos hq]

theorem clearAll_beside {dirs : Directories} {p q : Path} (hq : ¬ p <+: q) :
    clearAll dirs p q = dirs q := by
  have hne : q ≠ p := by
    rintro rfl
    exact hq (List.prefix_refl q)
  unfold clearAll
  rw [if_neg hne, if_neg hq]

/-- What is left is not below the directory. -/
theorem clearAll_ne_none {dirs : Directories} {p q : Path} :
    clearAll dirs p q ≠ none ↔ dirs q ≠ none ∧ (q = p ∨ ¬ p <+: q) := by
  by_cases hne : q = p
  · subst hne
    rw [clearAll_self]
    cases dirs q <;> simp
  · by_cases hq : p <+: q
    · rw [clearAll_below hne hq]
      simp [hne, hq]
    · rw [clearAll_beside hq]
      simp [hne, hq]

theorem not_prefix_of_append {p q : Path} {k : List Nat} (h : q ++ [k] = p ∨ ¬ p <+: q ++ [k]) :
    ¬ p <+: q := by
  intro hpq
  rcases h with heq | hnot
  · have hle := hpq.length_le
    rw [← heq, List.length_append] at hle
    exact Nat.not_succ_le_self _ hle
  · exact hnot (hpq.trans (List.prefix_append q [k]))

theorem Formed.clearAll {dirs : Directories} (hd : Formed locale dirs) (p : Path) :
    Formed locale (clearAll dirs p) where
  root := by
    rw [clearAll_ne_none]
    refine ⟨hd.root, ?_⟩
    by_cases hp : p = []
    · exact Or.inl hp.symm
    · exact Or.inr fun h => hp (List.prefix_nil.mp h)
  parent q k h := by
    obtain ⟨hexists, hplace⟩ := clearAll_ne_none.mp h
    exact clearAll_ne_none.mpr ⟨hd.parent q k hexists, Or.inr (not_prefix_of_append hplace)⟩
  name q k d h := by
    have hplace := (clearAll_ne_none.mp (Option.ne_none_iff_exists'.mpr ⟨d, h⟩)).2
    by_cases hp : q ++ [k] = p
    · rw [← hp, clearAll_self] at h
      obtain ⟨d₀, h₀, rfl⟩ := Option.map_eq_some_iff.mp h
      exact hd.name q k d₀ h₀
    · rw [clearAll_beside (hplace.resolve_left hp)] at h
      exact hd.name q k d h

/-- The directory is loaded again, so it is cleared. -/
def Reloads (locale : Locale) (dirs : Directories) (basePath : Str) (p : Path) : Prop :=
  findDirectoryUnsafe locale dirs basePath = some p ∧ completeAt dirs p

theorem prepare_cases (dirs : Directories) (basePath : Str) :
    prepare locale dirs basePath = dirs ∨
      ∃ p, Reloads locale dirs basePath p ∧ prepare locale dirs basePath = clearAll dirs p := by
  unfold prepare
  cases hfind : findDirectoryUnsafe locale dirs basePath with
  | none => exact Or.inl rfl
  | some p =>
    simp only
    cases hd : dirs p with
    | none => exact Or.inl rfl
    | some d =>
      simp only
      by_cases hc : d.isComplete = true
      · rw [if_pos hc]
        exact Or.inr ⟨p, ⟨hfind, d, hd, hc⟩, rfl⟩
      · rw [if_neg hc]
        exact Or.inl rfl

/-! ## Runs -/

/-- What a list has for a directory. -/
structure Content where
  files : List File
  directories : List Nat → Prop

/-- A listing, and what the last list that was loaded for a directory has for it. -/
structure Loaded where
  dirs : Directories
  lists : Path → Option Content

structure Load where
  basePath : Str
  doc : ListLoader.Document

/-- The entries of the document, and whether it is loaded. -/
def Load.entries (locale : Locale) (o : Load) : Option (List Entry × Bool) :=
  listedEntries locale o.basePath ⟨some [], false⟩ o.doc.events o.doc.readable

open Classical in
/-- The directories for which a list is complete have what it says from now on. -/
noncomputable def remember (lists : Path → Option Content) (entries : List Entry) :
    Path → Option Content :=
  fun q => if Marks q entries then some ⟨filesAt q entries, fun k => directoriesAt q k entries⟩
    else lists q

noncomputable def Loaded.next (locale : Locale) (s : Loaded) (o : Load) : Loaded :=
  match loadPartialImpl locale s.dirs o.doc o.basePath with
  | none => s
  | some (dirs, false) => { s with dirs }
  | some (dirs, true) =>
    { dirs, lists := remember s.lists (((o.entries locale).map Prod.fst).getD []) }

noncomputable def loads (locale : Locale) : Lib.System Loaded Load where
  next := Loaded.next locale
  allowed _ _ := True

structure Initial (s : Loaded) : Prop where
  dirs : s.dirs = empty
  lists : s.lists = fun _ => none

/-- A complete directory has the files of the last list that was loaded for it, its directories are
    all there, and no two of them have one name. -/
structure Honest (locale : Locale) (s : Loaded) : Prop where
  content : ∀ q d, s.dirs q = some d → d.isComplete = true → ∃ c, s.lists q = some c ∧
    d.files = c.files ∧ ∀ k, c.directories k → s.dirs (q ++ [k]) ≠ none
  names : ∀ q k d, s.dirs (q ++ [k]) = some d → Util.foldCase locale d.name = k

/-- Loads that do no harm: a complete directory that is loaded again is listed, or was empty; a
    list is complete only for directories that have no files, and is then loaded to its end; and it
    has no files for other complete directories. -/
structure CleanEntries (locale : Locale) (dirs : Directories) (basePath : Str)
    (entries : List Entry) (ok : Bool) : Prop where
  reload : ∀ p, Reloads locale dirs basePath p →
    Marks p entries ∨ prepare locale dirs basePath = dirs
  marked : ∀ q, Marks q entries → ok = true ∧ filesOf (prepare locale dirs basePath) q = []
  others : ∀ q, completeAt (prepare locale dirs basePath) q → Marks q entries ∨
    filesAt q entries = []

def Clean (locale : Locale) (s : Loaded) (o : Load) : Prop :=
  ∃ entries ok, o.entries locale = some (entries, ok) ∧
    CleanEntries locale s.dirs o.basePath entries ok

/-- A complete directory that the list does not mark is as it was. -/
theorem unmarked_content {s : Loaded} {basePath : Str} {entries : List Entry} {ok : Bool}
    (hs : Honest locale s) (hclean : CleanEntries locale s.dirs basePath entries ok) {q : Path}
    (hq : ¬ Marks q entries) (hc : completeAt (prepare locale s.dirs basePath) q) :
    ∃ c, s.lists q = some c ∧ filesOf (prepare locale s.dirs basePath) q = c.files ∧
      ∀ k, c.directories k → prepare locale s.dirs basePath (q ++ [k]) ≠ none := by
  obtain ⟨d, hd, hdc⟩ := hc
  have hsame : prepare locale s.dirs basePath = s.dirs → ∃ c, s.lists q = some c ∧
      filesOf (prepare locale s.dirs basePath) q = c.files ∧
      ∀ k, c.directories k → prepare locale s.dirs basePath (q ++ [k]) ≠ none := by
    intro heq
    rw [heq] at hd ⊢
    obtain ⟨c, hlist, hfiles, hdirs⟩ := hs.content q d hd hdc
    refine ⟨c, hlist, ?_, hdirs⟩
    simp [filesOf, hd, hfiles]
  rcases @prepare_cases locale s.dirs basePath with heq | ⟨p, hreload, hclear⟩
  · exact hsame heq
  rcases hclean.reload p hreload with hmarked | heq
  · rw [hclear] at hd ⊢
    have hplace := (clearAll_ne_none.mp (Option.ne_none_iff_exists'.mpr ⟨d, hd⟩)).2
    have hbeside : ¬ p <+: q := hplace.resolve_left fun h => hq (h ▸ hmarked)
    have hdq := hd
    rw [clearAll_beside hbeside] at hdq
    obtain ⟨c, hlist, hfiles, hdirs⟩ := hs.content q d hdq hdc
    refine ⟨c, hlist, ?_, ?_⟩
    · simp [filesOf, hd, hfiles]
    · intro k hk
      refine clearAll_ne_none.mpr ⟨hdirs k hk, ?_⟩
      by_cases hkp : q ++ [k] = p
      · exact Or.inl hkp
      · right
        intro hpre
        rcases List.prefix_concat_iff.mp hpre with heq | hin
        · exact hkp heq.symm
        · exact hbeside hin
  · exact hsame heq

theorem formed_empty : Formed locale empty where
  root := by simp [empty]
  parent p k h := by simp [empty] at h
  name p k d h := by simp [empty] at h

theorem formed_prepare {dirs : Directories} (hd : Formed locale dirs) (basePath : Str) :
    Formed locale (prepare locale dirs basePath) := by
  rcases @prepare_cases locale dirs basePath with heq | ⟨p, -, hclear⟩
  · rw [heq]
    exact hd
  · rw [hclear]
    exact hd.clearAll p

/-- What a clean load does to the listing. -/
theorem load_effects {s : Loaded} {o : Load} {entries : List Entry} {ok : Bool}
    (hs : Formed locale s.dirs) (h : o.entries locale = some (entries, ok)) :
    ∃ dirs, loadPartialImpl locale s.dirs o.doc o.basePath = some (dirs, ok) ∧
      Effects (prepare locale s.dirs o.basePath) dirs entries ∧ Formed locale dirs := by
  have hform := formed_prepare hs o.basePath
  have hready : Ready locale
      ⟨prepare locale s.dirs o.basePath, some [], o.basePath, false, true⟩ := by
    refine ⟨rfl, hform, ?_⟩
    intro p hp
    cases hp
    exact hform.root
  exact run_effects hready h

theorem load_content {s : Loaded} {o : Load} {entries : List Entry} {ok : Bool}
    {dirs : Directories} {lists : Path → Option Content} (hs : Honest locale s)
    (hclean : CleanEntries locale s.dirs o.basePath entries ok)
    (heff : Effects (prepare locale s.dirs o.basePath) dirs entries)
    (hnew : ∀ q, Marks q entries →
      lists q = some ⟨filesAt q entries, fun k => directoriesAt q k entries⟩)
    (hold : ∀ q, ¬ Marks q entries → lists q = s.lists q) :
    ∀ q d, dirs q = some d → d.isComplete = true → ∃ c, lists q = some c ∧
      d.files = c.files ∧ ∀ k, c.directories k → dirs (q ++ [k]) ≠ none := by
  intro q d hd hdc
  have hfiles : d.files = filesOf (prepare locale s.dirs o.basePath) q ++ filesAt q entries := by
    rw [← heff.files]
    simp [filesOf, hd]
  by_cases hq : Marks q entries
  · refine ⟨_, hnew q hq, ?_, ?_⟩
    · rw [hfiles, (hclean.marked q hq).2, List.nil_append]
    · rintro k ⟨d', hd'⟩
      exact heff.directories _ d' hd'
  · have hc := ((heff.complete q).mp ⟨d, hd, hdc⟩).resolve_right hq
    obtain ⟨c, hlist, hsame, hdirs⟩ := unmarked_content hs hclean hq hc
    refine ⟨c, (hold q hq).trans hlist, ?_, fun k hk => heff.keeps _ (hdirs k hk)⟩
    rw [hfiles, (hclean.others q hc).resolve_left hq, List.append_nil, hsame]

/-- A clean load keeps the listing honest. -/
theorem next_honest {s : Loaded} {o : Load} (hs : Honest locale s) (hform : Formed locale s.dirs)
    (hclean : Clean locale s o) :
    Honest locale (s.next locale o) ∧ Formed locale (s.next locale o).dirs := by
  obtain ⟨entries, ok, hentries, hclean⟩ := hclean
  obtain ⟨dirs, hload, heff, hform'⟩ := load_effects hform hentries
  unfold Loaded.next
  rw [hload]
  cases ok with
  | false =>
    have hunmarked : ∀ q, ¬ Marks q entries := by
      intro q hq
      have hok := (hclean.marked q hq).1
      cases hok
    refine ⟨⟨?_, hform'.name⟩, hform'⟩
    exact load_content hs hclean heff (fun q hq => absurd hq (hunmarked q)) fun q _ => rfl
  | true =>
    refine ⟨⟨?_, hform'.name⟩, hform'⟩
    simp only [hentries, Option.map_some, Option.getD_some]
    exact load_content hs hclean heff (fun q hq => if_pos hq) fun q hq => if_neg hq

/-! ## A list that cannot be read -/

/-- A list with one file. -/
def oneFile : ListLoader.Document where
  events :=
    [.startTag (str "FileListing") [(str "Base", ADC_ROOT_STR)] false,
      .startTag (str "File") [(str "Name", str "a"), (str "Size", str "1"),
        (str "TTH", str "A")] true,
      .endTag (str "FileListing")]
  readable := true

/-- No element can be read. -/
def unreadable : ListLoader.Document := ⟨[], false⟩

def onlyFile : File := ⟨str "a", 1, TTHValue.ofBase32 (str "A"), 0⟩

def plainLocale : Locale := ⟨id, fun s _ => s⟩

theorem oneFile_entries : Load.entries plainLocale ⟨ADC_ROOT_STR, oneFile⟩ =
    some ([.base [], .file [] onlyFile, .listed []], true) := rfl

def unloaded : Loaded := ⟨empty, fun _ => none⟩

theorem oneFile_loaded : ∃ dirs, (loads plainLocale).next unloaded ⟨ADC_ROOT_STR, oneFile⟩ =
    ⟨dirs, remember unloaded.lists [.base [], .file [] onlyFile, .listed []]⟩ ∧
      completeAt dirs [] := by
  obtain ⟨dirs, hload, heff, -⟩ :=
    load_effects (s := unloaded) formed_empty oneFile_entries
  refine ⟨dirs, ?_, (heff.complete []).mpr (Or.inr (Or.inl (by simp)))⟩
  change Loaded.next plainLocale unloaded ⟨ADC_ROOT_STR, oneFile⟩ = _
  unfold Loaded.next
  rw [hload, oneFile_entries]
  rfl

end DirectoryListing
end Airdcpp
