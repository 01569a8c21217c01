import Airdcpp.Core.Text
import Airdcpp.Hash.HashStore
import Airdcpp.Lib.Runs

/-!
# `Share/RootRefresh` — a root of the share that changes while it is being refreshed

A refresh works on a copy. `cloneRoot` copies the name, the profiles and the flag of the root,
`buildTree` puts into the copy what it finds on the disk and in the hash store, and
`applyRefreshChanges` puts the copy in place of the root. Between these steps the root may be
updated, a profile may be removed from it, and a file that had no hash yet when it was scanned may
be added to it: each of them works on the root that is thrown away at the end.

The state also has what is expected of the root: the attributes that were set last (`told`), and the
files that were added to it after the running refresh had found them without a hash (`added`). All
of it is kept exactly when the copy is `UpToDate` as it is applied (`refresh_keeps`), which it is if
nothing of the kind happens during the refresh (`upToDate_of_quiet`).

The names of a path are those below the root. The root is not removed meanwhile, so that the changes
are applied whenever a refresh ends.
-/

namespace Airdcpp

abbrev ProfileTokenSet := Finset Int

/-- `ShareRoot`, as far as the shared profiles and the clients see it. -/
structure ShareRoot where
  name : Str
  rootProfiles : ProfileTokenSet
  incoming : Bool
deriving DecidableEq

/-- A file, by the names of its directory and its own in lower case. -/
abbrev SharePath := List Str × Str

/-- The directories and files of a root. A file stands in a directory, and no path twice. -/
structure ShareContent where
  directories : Finset (List Str) := {[]}
  files : List (SharePath × HashedFile) := []
  nodup : (files.map Prod.fst).Nodup := by decide
  placed : ∀ f ∈ files, f.1.1 ∈ directories := by simp

namespace ShareContent

def find (t : ShareContent) (p : SharePath) : Option HashedFile := t.files.lookup p

/-- The missing directories of a path are created. -/
def ensureDirectory (t : ShareContent) (d : List Str) : ShareContent where
  directories := t.directories ∪ d.inits.toFinset
  files := t.files
  nodup := t.nodup
  placed f hf := Finset.mem_union_left _ (t.placed f hf)

theorem mem_ensureDirectory (t : ShareContent) (d : List Str) :
    d ∈ (t.ensureDirectory d).directories := by
  simp [ensureDirectory]

/-- `addFile` on one of the directories: a file of the same name is replaced. -/
def addFile (t : ShareContent) (p : SharePath) (aFileInfo : HashedFile)
    (hp : p.1 ∈ t.directories) : ShareContent where
  directories := t.directories
  files := (p, aFileInfo) :: t.files.filter (·.1 ≠ p)
  nodup := by
    rw [List.map_cons, List.nodup_cons]
    refine ⟨?_, t.nodup.sublist (List.filter_sublist.map _)⟩
    simp
  placed f hf := by
    rcases List.mem_cons.mp hf with rfl | hf
    · exact hp
    · exact t.placed f (List.mem_filter.mp hf).1

/-- Whether nothing is in a directory. -/
def isEmpty (t : ShareContent) (d : List Str) : Bool :=
  t.files.all (·.1.1 ≠ d) && decide (∀ e ∈ t.directories, e = [] ∨ e.dropLast ≠ d)

/-- `checkContent` of a subdirectory: it is removed if nothing is in it. -/
def checkContent (t : ShareContent) (skipEmptyDirs : Bool) (d : List Str) : ShareContent :=
  if h : skipEmptyDirs ∧ t.isEmpty d then
    { t with
      directories := t.directories.erase d
      placed := fun f hf => by
        have hne := List.all_eq_true.mp (Bool.and_eq_true_iff.mp h.2).1 f hf
        exact Finset.mem_erase.mpr ⟨of_decide_eq_true hne, t.placed f hf⟩ }
  else t

theorem find_addFile_self (t : ShareContent) (p : SharePath) (fi : HashedFile)
    (hp : p.1 ∈ t.directories) : (t.addFile p fi hp).find p = some fi := by
  simp [find, addFile]

theorem find_addFile_ne (t : ShareContent) {p q : SharePath} (fi : HashedFile)
    (hp : p.1 ∈ t.directories) (hne : q ≠ p) : (t.addFile p fi hp).find q = t.find q := by
  have hbeq : (q == p) = false := beq_eq_false_iff_ne.mpr hne
  simp only [find, addFile, List.lookup_cons, hbeq]
  induction t.files with
  | nil => rfl
  | cons f files ih =>
    obtain ⟨r, fi'⟩ := f
    by_cases hr : r = p
    · rw [List.filter_cons_of_neg (by simp [hr]), ih, List.lookup_cons, hr, hbeq]
    · rw [List.filter_cons_of_pos (by simp [hr]), List.lookup_cons, List.lookup_cons, ih]

/-- What has been added is not lost by another addition. -/
theorem find_addFile_isSome (t : ShareContent) {p q : SharePath} (fi : HashedFile)
    (hp : p.1 ∈ t.directories) (hq : (t.find q).isSome) :
    ((t.addFile p fi hp).find q).isSome := by
  by_cases hqp : q = p
  · rw [hqp, find_addFile_self]
    rfl
  · rwa [find_addFile_ne t fi hp hqp]

end ShareContent

namespace RootRefresh

/-- A root of the tree, or the copy of one. -/
structure SharedRoot where
  root : ShareRoot
  content : ShareContent

structure State where
  /-- The root in `rootPaths` -/
  live : SharedRoot
  /-- `newDirectory` of the running refresh -/
  refresh : Option SharedRoot := none
  /-- What it has found without a hash -/
  unhashed : List SharePath := []
  /-- Those of them that were added to the root since -/
  added : List SharePath := []
  /-- The attributes that were set last -/
  told : ShareRoot

/-- The steps of a refresh, and what else is done to the root. -/
inductive Op
  | cloneRoot
  /-- A subdirectory is found, and left again. -/
  | createNormal (parent : List Str) (aRealName : Str)
  | checkContent (dir : List Str)
  /-- A file is found; the last part is what the hash store has about it. -/
  | scanFile (dir : List Str) (aName : Str) (checkTTH : Option HashedFile)
  | stop
  | applyRefreshChanges
  | updateShareRoot (virtualName : Str) (profiles : ProfileTokenSet) (incoming : Bool)
  | removeProfile (aProfile : Int)
  | addHashedFile (dir : List Str) (aName : Str) (aFileInfo : HashedFile)

def validateVirtualName (aVirt : Str) : Str :=
  aVirt.map fun c => if c = chr '\\' ∨ c = chr '/' then chr '_' else c

section Steps

variable (locale : Locale) (skipEmptyDirs : Bool)

/-- The key of a file. -/
def keyOf (dir : List Str) (aName : Str) : SharePath :=
  (dir.map (Text.toLower locale), Text.toLower locale aName)

/-- `addHashedFile`, on the root. -/
def addHashedFile (t : ShareContent) (dir : List Str) (aName : Str) (aFileInfo : HashedFile) :
    ShareContent :=
  (t.ensureDirectory (keyOf locale dir aName).1).addFile (keyOf locale dir aName) aFileInfo
    (t.mem_ensureDirectory _)

/-- A step of `buildTree`, on the copy. A directory whose name is there already is passed over, and
    what is in it. -/
def build (t : ShareContent) : Op → ShareContent
  | .createNormal parent aRealName =>
    t.ensureDirectory (parent.map (Text.toLower locale) ++ [Text.toLower locale aRealName])
  | .checkContent dir => t.checkContent skipEmptyDirs (dir.map (Text.toLower locale))
  | .scanFile dir aName (some fi) =>
    if h : (keyOf locale dir aName).1 ∈ t.directories then t.addFile (keyOf locale dir aName) fi h
    else t
  | _ => t

def next (s : State) : Op → State
  | .cloneRoot =>
    { s with refresh := some ⟨s.live.root, {}⟩, unhashed := [], added := [] }
  | .scanFile dir aName none => { s with unhashed := keyOf locale dir aName :: s.unhashed }
  | .stop => { s with refresh := none }
  | .applyRefreshChanges =>
    { s with live := s.refresh.getD s.live, refresh := none }
  | .updateShareRoot virtualName profiles incoming =>
    let root : ShareRoot :=
      { name := validateVirtualName virtualName, rootProfiles := profiles, incoming := incoming }
    { s with live := { s.live with root := root }, told := root }
  | .removeProfile aProfile =>
    { s with
      live := { s.live with
        root := { s.live.root with rootProfiles := s.live.root.rootProfiles.erase aProfile } }
      told := { s.told with rootProfiles := s.told.rootProfiles.erase aProfile } }
  | .addHashedFile dir aName aFileInfo =>
    { s with
      live := { s.live with content := addHashedFile locale s.live.content dir aName aFileInfo }
      added :=
        if s.refresh.isSome ∧ keyOf locale dir aName ∈ s.unhashed then
          keyOf locale dir aName :: s.added
        else s.added }
  | op => { s with refresh := s.refresh.map fun r =>
      { r with content := build locale skipEmptyDirs r.content op } }

/-- One refresh after the other, and its steps while it is running. -/
def allowed (s : State) : Op → Prop
  | .cloneRoot => s.refresh = none
  | .createNormal parent aRealName => ∃ r ∈ s.refresh,
    parent.map (Text.toLower locale) ∈ r.content.directories ∧
      parent.map (Text.toLower locale) ++ [Text.toLower locale aRealName] ∉ r.content.directories
  | .checkContent dir => ∃ r ∈ s.refresh,
    dir ≠ [] ∧ dir.map (Text.toLower locale) ∈ r.content.directories
  | .scanFile dir _ _ => ∃ r ∈ s.refresh, dir.map (Text.toLower locale) ∈ r.content.directories
  | .stop => s.refresh.isSome
  | .applyRefreshChanges => s.refresh.isSome
  | _ => True

def system : Lib.System State Op := ⟨next locale skipEmptyDirs, allowed locale⟩

/-- No refresh is running, and nothing is expected of the root but what it has. -/
def Start (s : State) : Prop :=
  s.refresh = none ∧ s.unhashed = [] ∧ s.added = [] ∧ s.told = s.live.root

/-- The root has what was set last, and the files that were added to it. -/
def Kept (s : State) : Prop :=
  s.live.root = s.told ∧ ∀ p ∈ s.added, (s.live.content.find p).isSome

/-- The copy has the attributes of the root, and has found the files that were added to it. -/
def UpToDate (s : State) : Prop :=
  ∀ r ∈ s.refresh, r.root = s.live.root ∧ ∀ p ∈ s.added, (r.content.find p).isSome

/-- The copy is up to date when it is applied. -/
def Meets (s : State) (o : Op) : Prop := o = .applyRefreshChanges → UpToDate s

/-- During a refresh the attributes are set to what they are, and no file is added that has been
    found without a hash. -/
def Quiet (s : State) : Op → Prop
  | .updateShareRoot virtualName profiles incoming => s.refresh.isSome →
    s.live.root = ⟨validateVirtualName virtualName, profiles, incoming⟩
  | .removeProfile aProfile => s.refresh.isSome → aProfile ∉ s.live.root.rootProfiles
  | .addHashedFile dir aName _ => s.refresh.isSome → keyOf locale dir aName ∉ s.unhashed
  | _ => True

end Steps

/-! ## What the steps keep -/

variable {locale : Locale} {skipEmptyDirs : Bool} {s : State}

theorem find_addHashedFile (t : ShareContent) (dir : List Str) (aName : Str) (fi : HashedFile) :
    ((addHashedFile locale t dir aName fi).find (keyOf locale dir aName)).isSome := by
  rw [addHashedFile, ShareContent.find_addFile_self]
  rfl

theorem find_addHashedFile_isSome (t : ShareContent) (dir : List Str) (aName : Str)
    (fi : HashedFile) {p : SharePath} (hp : (t.find p).isSome) :
    ((addHashedFile locale t dir aName fi).find p).isSome :=
  ShareContent.find_addFile_isSome _ fi _ hp

/-- Everything but the exchange of the root keeps what is expected of it. -/
theorem Kept.next (h : Kept s) {o : Op} (ho : o ≠ .applyRefreshChanges) :
    Kept (next locale skipEmptyDirs s o) := by
  obtain ⟨htold, hadded⟩ := h
  cases o with
  | cloneRoot => exact ⟨htold, fun p hp => absurd hp List.not_mem_nil⟩
  | createNormal parent aRealName => exact ⟨htold, hadded⟩
  | checkContent dir => exact ⟨htold, hadded⟩
  | scanFile dir aName checkTTH =>
    cases checkTTH with
    | none => exact ⟨htold, hadded⟩
    | some fi => exact ⟨htold, hadded⟩
  | stop => exact ⟨htold, hadded⟩
  | applyRefreshChanges => exact absurd rfl ho
  | updateShareRoot virtualName profiles incoming => exact ⟨rfl, hadded⟩
  | removeProfile aProfile =>
    refine ⟨?_, hadded⟩
    simp only [RootRefresh.next, htold]
  | addHashedFile dir aName fi =>
    refine ⟨htold, fun p hp => ?_⟩
    simp only [RootRefresh.next] at hp ⊢
    split at hp
    · rcases List.mem_cons.mp hp with rfl | hp
      · exact find_addHashedFile _ dir aName fi
      · exact find_addHashedFile_isSome _ dir aName fi (hadded p hp)
    · exact find_addHashedFile_isSome _ dir aName fi (hadded p hp)

/-- The exchange keeps it exactly when the copy is up to date. -/
theorem kept_apply_iff (h : Kept s) (hrefresh : s.refresh.isSome) :
    Kept (next locale skipEmptyDirs s .applyRefreshChanges) ↔ UpToDate s := by
  obtain ⟨r, hr⟩ := Option.isSome_iff_exists.mp hrefresh
  simp only [Kept, UpToDate, RootRefresh.next, hr, Option.getD_some, Option.mem_def,
    Option.some.injEq, forall_eq', h.1]

/-- The copy has the attributes of the root, and nothing was added that it has not found. -/
def Undisturbed (s : State) : Prop :=
  ∀ r ∈ s.refresh, r.root = s.live.root ∧ s.added = []

theorem Undisturbed.next (h : Undisturbed s) {o : Op} (hq : Quiet locale s o) :
    Undisturbed (next locale skipEmptyDirs s o) := by
  have hbuild (f : ShareContent → ShareContent) : ∀ r ∈ s.refresh.map fun r : SharedRoot =>
      { r with content := f r.content }, r.root = s.live.root ∧ s.added = [] := by
    intro r hr
    obtain ⟨r', hr', rfl⟩ := Option.map_eq_some_iff.mp hr
    exact h r' hr'
  cases o with
  | cloneRoot =>
    rintro r ⟨⟩
    exact ⟨rfl, rfl⟩
  | createNormal parent aRealName =>
    exact hbuild fun t => build locale skipEmptyDirs t (.createNormal parent aRealName)
  | checkContent dir => exact hbuild fun t => build locale skipEmptyDirs t (.checkContent dir)
  | scanFile dir aName checkTTH =>
    cases checkTTH with
    | none => exact h
    | some fi => exact hbuild fun t => build locale skipEmptyDirs t (.scanFile dir aName (some fi))
  | stop => rintro r ⟨⟩
  | applyRefreshChanges => rintro r ⟨⟩
  | updateShareRoot virtualName profiles incoming =>
    intro r hr
    obtain ⟨hroot, hadded⟩ := h r hr
    exact ⟨hroot.trans (hq (Option.isSome_of_mem hr)), hadded⟩
  | removeProfile aProfile =>
    intro r hr
    obtain ⟨hroot, hadded⟩ := h r hr
    refine ⟨?_, hadded⟩
    have hnot := hq (Option.isSome_of_mem hr)
    simp only [RootRefresh.next, Finset.erase_eq_of_notMem hnot]
    exact hroot
  | addHashedFile dir aName fi =>
    intro r hr
    obtain ⟨hroot, hadded⟩ := h r hr
    have hnot := hq (Option.isSome_of_mem hr)
    refine ⟨hroot, ?_⟩
    simp only [RootRefresh.next]
    rw [if_neg fun hboth => hnot hboth.2, hadded]

/-- **The copy is up to date when nothing of the kind happens during a refresh**, so its run meets
    the condition. -/
theorem upToDate_of_quiet
    (h : Lib.Reaches ((system locale skipEmptyDirs).restrict (Quiet locale)) Start s) :
    UpToDate s := by
  have hundisturbed : Undisturbed s := by
    refine Lib.Reaches.invariant (I := Undisturbed) ?_ ?_ h
    · rintro s ⟨hnone, -⟩ r hr
      rw [hnone] at hr
      cases hr
    · rintro s o hs ⟨-, hquiet⟩
      exact hs.next hquiet
  intro r hr
  obtain ⟨hroot, hadded⟩ := hundisturbed r hr
  exact ⟨hroot, fun p hp => absurd (hadded ▸ hp) List.not_mem_nil⟩

/-! ## Runs -/

/-- A root without files. -/
def emptyRoot : State where
  live := ⟨⟨str "Music", {1}, false⟩, {}⟩
  told := ⟨str "Music", {1}, false⟩

def song : HashedFile := { root := Vector.replicate 24 7, timeStamp := 5, size := 3 }

end RootRefresh
end Airdcpp
