import Airdcpp.FileList.PartialLists

/-!
# `FileList/DirectoryPaths` — directories and their ADC paths

The path of a directory is built from the names on the way to it (`getAdcPathUnsafe`); the lookup
takes one name after another off the front of a path and looks each up without regard to case
(`findDirectoryUnsafe`); `createBaseDirectory` splits a path into names and makes what is missing.
These are written here as the source has them, over a tree whose directories are only reached by
pointers that are valid (`Tree.Dir`). Directories of any type are in it, the virtual ones too.

A path of non-empty names is walked by all three in the same way (`findDirectoryUnsafe_adcPath`,
`getTokens_adcPath`, `getAdcPathUnsafe_eq`), so the path of a directory finds that directory as long
as no name was accepted that is empty or holds a separator (`adcPaths_identify`).
-/

namespace Airdcpp

open SimpleXMLReader (Result)

namespace DirectoryListing

/-- `Directory::DirType` -/
inductive NodeType
  | normal
  | incompleteChild
  | incompleteNoChild
  | virtual
deriving DecidableEq, Repr

/-- A `Directory`, without the maps and pointers of the tree. -/
structure Node where
  name : Str
  type : NodeType
  partialSize : Int := 0
  remoteDate : Int := 0
  lastUpdateDate : Int := 0
  files : List File := []
deriving DecidableEq, Repr

/-- The directories of a listing: each is in its parent, whose map has it under its name. -/
structure Tree (locale : Locale) where
  nodes : Path → Option Node
  hasRoot : nodes [] ≠ none
  parent : ∀ p k, nodes (p ++ [k]) ≠ none → nodes p ≠ none
  key : ∀ p k n, nodes (p ++ [k]) = some n → Util.foldCase locale n.name = k

/-- `PathUtil::joinAdcDirectory` -/
def joinAdcDirectory (aPath aDirectoryName : Str) : Str :=
  aPath ++ aDirectoryName ++ [ADC_SEPARATOR]

variable {locale : Locale}

namespace Tree

variable (t : Tree locale)

/-- A directory that is in the tree. -/
abbrev Dir : Type := { p : Path // t.nodes p ≠ none }

def root : t.Dir := ⟨[], t.hasRoot⟩

variable {t}

def node (d : t.Dir) : Node := (t.nodes d.1).get (Option.isSome_iff_ne_none.mpr d.2)

/-- `parent`, which the root does not have. -/
def up (d : t.Dir) (h : d.1 ≠ []) : t.Dir :=
  ⟨d.1.dropLast, t.parent d.1.dropLast (d.1.getLast h) (by
    rw [List.dropLast_append_getLast]
    exact d.2)⟩

/-- `directories.find(&name)` -/
def child (d : t.Dir) (name : Str) : Option t.Dir :=
  if h : t.nodes (d.1 ++ [Util.foldCase locale name]) ≠ none then some ⟨_, h⟩ else none

/-- `Directory::getAdcPathUnsafe` -/
def getAdcPathUnsafe (d : t.Dir) : Str :=
  if h : d.1 ≠ [] then joinAdcDirectory (getAdcPathUnsafe (up d h)) (node d).name
  else ADC_ROOT_STR
termination_by d.1.length
decreasing_by
  have hpos := List.length_pos_iff.mpr h
  simp only [up, List.length_dropLast]
  omega

variable (t)

/-- `findDirectoryUnsafe(aName, aCurrent)`: a directory or a null pointer. The outer `none` is the
    exception of `substr` where the name does not end with a separator. -/
def findDirectoryUnsafe (aName : Str) (aCurrent : t.Dir) : Option (Option t.Dir) :=
  if aName = ADC_ROOT_STR then some (some t.root)
  else
    match _h : (aName.drop 1).findIdx? (· == ADC_SEPARATOR) with
    | some i =>
      let stop := i + 1
      let name := (aName.drop 1).take i
      match child aCurrent name with
      | some d =>
        if stop = aName.length - 1 then some (some d)
        else findDirectoryUnsafe (aName.drop stop) d
      | none => some none
    | none =>
      if aName = [] then none
      else if (child aCurrent (aName.drop 1)).isSome then none else some none
termination_by aName.length
decreasing_by
  have hi := (List.findIdx?_eq_some_iff_findIdx_eq.mp _h).1
  simp only [List.length_drop] at hi ⊢
  omega

variable {t}

/-- `Directory::create` for a name that is not in the directory. -/
def create (d : t.Dir) (n : Node) : Tree locale where
  nodes := Function.update t.nodes (d.1 ++ [Util.foldCase locale n.name]) (some n)
  hasRoot := by
    rw [Function.update_of_ne (by simp)]
    exact t.hasRoot
  parent p k h := by
    by_cases hp : p = d.1 ++ [Util.foldCase locale n.name]
    · simp [hp]
    · rw [Function.update_of_ne hp]
      by_cases hk : p ++ [k] = d.1 ++ [Util.foldCase locale n.name]
      · rw [List.append_inj_left' hk rfl]
        exact d.2
      · rw [Function.update_of_ne hk] at h
        exact t.parent p k h
  key p k m h := by
    by_cases hk : p ++ [k] = d.1 ++ [Util.foldCase locale n.name]
    · rw [hk, Function.update_self, Option.some.injEq] at h
      have := List.append_inj_right' hk rfl
      simp only [List.cons.injEq, and_true] at this
      rw [← h, this]
    · rw [Function.update_of_ne hk] at h
      exact t.key p k m h

/-- A directory made by `create`. -/
def created (d : t.Dir) (n : Node) : (create d n).Dir :=
  ⟨d.1 ++ [Util.foldCase locale n.name], by simp [create]⟩

theorem nodes_create_self (d : t.Dir) (n : Node) :
    (create d n).nodes (d.1 ++ [Util.foldCase locale n.name]) = some n :=
  Function.update_self ..

theorem nodes_create_of_ne {d : t.Dir} {n : Node} {q : Path}
    (hq : q ≠ d.1 ++ [Util.foldCase locale n.name]) : (create d n).nodes q = t.nodes q :=
  Function.update_of_ne hq ..

/-- The loop of `createBaseDirectory`, with the directory that it has reached. -/
def createChain (aDownloadDate : Int) : (t : Tree locale) → t.Dir → List Str → Σ t :
    Tree locale, t.Dir
  | t, cur, [] => ⟨t, cur⟩
  | t, cur, curDirName :: sl =>
    match child cur curDirName with
    | some s => createChain aDownloadDate t s sl
    | none =>
      let d : Node :=
        { name := curDirName, type := .incompleteChild, lastUpdateDate := aDownloadDate }
      createChain aDownloadDate (create cur d) (created cur d) sl

/-- `createBaseDirectory` -/
def createBaseDirectory (t : Tree locale) (aBasePath : Str) (aDownloadDate : Int) :
    Σ t : Tree locale, t.Dir :=
  createChain aDownloadDate t t.root (getTokens aBasePath)

end Tree

/-! ## Paths of names -/

/-- The ADC path of a directory: names with a separator in front of each and one at the end. -/
def adcPath : List Str → Str
  | [] => ADC_ROOT_STR
  | name :: names => ADC_SEPARATOR :: (name ++ adcPath names)

/-- A name that a path can be taken apart into. -/
def Component (name : Str) : Prop := name ≠ [] ∧ ADC_SEPARATOR ∉ name

theorem adcPath_head (names : List Str) : ∃ rest, adcPath names = ADC_SEPARATOR :: rest := by
  cases names with
  | nil => exact ⟨[], rfl⟩
  | cons name names => exact ⟨_, rfl⟩

theorem adcPath_concat (names : List Str) (name : Str) :
    adcPath (names ++ [name]) = joinAdcDirectory (adcPath names) name := by
  induction names with
  | nil => simp [adcPath, joinAdcDirectory, ADC_ROOT_STR]
  | cons other names ih =>
    rw [List.cons_append, adcPath, ih]
    simp [adcPath, joinAdcDirectory]

/-- What is between the separators of a path. -/
theorem splitOn_adcPath {names : List Str} (hnames : ∀ name ∈ names, Component name) :
    (adcPath names).splitOn ADC_SEPARATOR = [] :: (names ++ [[]]) := by
  induction names with
  | nil => decide
  | cons name names ih =>
    have ih := ih fun other h => hnames other (List.mem_cons_of_mem _ h)
    have hfront (s : Str) : (ADC_SEPARATOR :: s).splitOn ADC_SEPARATOR =
        [] :: s.splitOn ADC_SEPARATOR := List.splitOn_append_cons_self_of_not_mem List.not_mem_nil s
    obtain ⟨rest, hrest⟩ := adcPath_head names
    rw [hrest, hfront, List.cons.injEq] at ih
    rw [adcPath, hfront, hrest,
      List.splitOn_append_cons_self_of_not_mem (hnames name List.mem_cons_self).2, ih.2,
      List.cons_append]

/-- Splitting a path gives its names. -/
theorem getTokens_adcPath {names : List Str} (hnames : ∀ name ∈ names, Component name) :
    getTokens (adcPath names) = names := by
  have hall : names.filter (fun name => decide (name ≠ [])) = names :=
    List.filter_eq_self.mpr fun name h => by simp [(hnames name h).1]
  rw [getTokens, splitOn_adcPath hnames, List.filter_cons, List.filter_append, hall]
  simp

namespace Tree

variable {t : Tree locale}

/-- What is above a directory of the tree is in the tree. -/
theorem nodes_of_append {p q : Path} (h : t.nodes (p ++ q) ≠ none) : t.nodes p ≠ none := by
  induction q using List.reverseRecOn with
  | nil => rwa [List.append_nil] at h
  | append_singleton q k ih =>
    rw [← List.append_assoc] at h
    exact ih (t.parent _ k h)

/-- Down from a directory by names. -/
def walk (d : t.Dir) : List Str → Option t.Dir
  | [] => some d
  | name :: names => (child d name).bind fun d => walk d names

/-- Whatever names lead to the place of a directory, the directory is found there. -/
theorem walk_eq {d e : t.Dir} {names : List Str}
    (h : e.1 = d.1 ++ names.map (Util.foldCase locale)) : walk d names = some e := by
  induction names generalizing d with
  | nil =>
    rw [List.map_nil, List.append_nil] at h
    rw [walk, Subtype.ext h]
  | cons name names ih =>
    have hnext : e.1 = (d.1 ++ [Util.foldCase locale name]) ++
        names.map (Util.foldCase locale) := by
      rw [h, List.map_cons, List.append_assoc, List.singleton_append]
    have hin : t.nodes (d.1 ++ [Util.foldCase locale name]) ≠ none :=
      nodes_of_append (hnext ▸ e.2)
    rw [walk, child, dif_pos hin, Option.bind_some]
    exact ih hnext

/-- One step of the lookup. -/
theorem findDirectoryUnsafe_cons {name : Str} (hname : Component name) (names : List Str)
    (aCurrent : t.Dir) :
    t.findDirectoryUnsafe (adcPath (name :: names)) aCurrent =
      match child aCurrent name with
      | some d => if names = [] then some (some d) else t.findDirectoryUnsafe (adcPath names) d
      | none => some none := by
  obtain ⟨rest, hrest⟩ := adcPath_head names
  have hlen := List.length_pos_iff.mpr hname.1
  have hroot : adcPath (name :: names) ≠ ADC_ROOT_STR := by
    intro h
    have hlength := congrArg List.length h
    simp only [adcPath, ADC_ROOT_STR, List.length_cons, List.length_append, List.length_nil]
      at hlength
    omega
  have htail : (adcPath (name :: names)).drop 1 = name ++ adcPath names := rfl
  have hstop : (name ++ adcPath names).findIdx? (· == ADC_SEPARATOR) = some name.length := by
    have hsep : ∀ c ∈ name, (c == ADC_SEPARATOR) = false := by
      intro c hc
      rw [beq_eq_false_iff_ne]
      exact fun heq => hname.2 (heq ▸ hc)
    have hnone : name.findIdx? (· == ADC_SEPARATOR) = none := List.findIdx?_eq_none_iff.mpr hsep
    rw [List.findIdx?_append, hnone, hrest, List.findIdx?_cons]
    simp
  have hlast : name.length + 1 = (adcPath (name :: names)).length - 1 ↔ names = [] := by
    cases names with
    | nil => simp [adcPath, ADC_ROOT_STR]
    | cons other names =>
      obtain ⟨rest', hrest'⟩ := adcPath_head names
      simp only [adcPath, hrest', List.length_cons, List.length_append, reduceCtorEq, iff_false]
      omega
  have hdrop : (adcPath (name :: names)).drop (name.length + 1) = adcPath names := by
    rw [Nat.add_comm, ← List.drop_drop, htail, List.drop_left]
  rw [findDirectoryUnsafe, if_neg hroot]
  split
  · rename_i i hi
    rw [htail, hstop, Option.some.injEq] at hi
    subst hi
    simp only [htail, List.take_left, hlast, hdrop]
  · rename_i hi
    rw [htail, hstop] at hi
    cases hi

/-- **The lookup walks down the names.** -/
theorem findDirectoryUnsafe_adcPath {names : List Str} (hnames : ∀ name ∈ names, Component name)
    (hne : names ≠ []) (aCurrent : t.Dir) :
    t.findDirectoryUnsafe (adcPath names) aCurrent = some (walk aCurrent names) := by
  induction names generalizing aCurrent with
  | nil => exact absurd rfl hne
  | cons name names ih =>
    rw [findDirectoryUnsafe_cons (hnames name List.mem_cons_self), walk]
    cases hchild : child aCurrent name with
    | none => rfl
    | some d =>
      simp only [Option.bind_some]
      by_cases hlast : names = []
      · rw [if_pos hlast, hlast]
        rfl
      · rw [if_neg hlast]
        exact ih (fun other h => hnames other (List.mem_cons_of_mem _ h)) hlast d

/-- A directory that the names lead to from the root is found by their path. -/
theorem findDirectoryUnsafe_of_names {names : List Str} (hnames : ∀ name ∈ names, Component name)
    {d : t.Dir} (hd : d.1 = names.map (Util.foldCase locale)) :
    t.findDirectoryUnsafe (adcPath names) t.root = some (some d) := by
  by_cases hne : names = []
  · subst hne
    rw [adcPath, findDirectoryUnsafe, if_pos rfl]
    exact congrArg (fun d => some (some d)) (Subtype.ext hd.symm)
  · rw [findDirectoryUnsafe_adcPath hnames hne]
    exact congrArg some (walk_eq hd)

/-! ## The path of a directory -/

/-- The names of the directories, the root apart, were accepted by the loader. -/
def Accepted (t : Tree locale) : Prop :=
  ∀ d : t.Dir, d.1 ≠ [] → ListLoader.validateName (node d).name = .ok ()

theorem nodes_node (d : t.Dir) : t.nodes d.1 = some (node d) :=
  (Option.some_get _).symm

theorem accepted_create {d : t.Dir} {n : Node} (h : Accepted t)
    (hn : ListLoader.validateName n.name = .ok ()) : Accepted (create d n) := by
  intro e he
  have hnode := nodes_node e
  by_cases hplace : e.1 = d.1 ++ [Util.foldCase locale n.name]
  · rw [hplace, nodes_create_self, Option.some.injEq] at hnode
    rw [← hnode]
    exact hn
  · rw [nodes_create_of_ne hplace] at hnode
    have hin : t.nodes e.1 ≠ none := by simp [hnode]
    have hold := nodes_node (t := t) ⟨e.1, hin⟩
    rw [hnode, Option.some.injEq] at hold
    rw [hold]
    exact h ⟨e.1, hin⟩ he

theorem component_of_accepted {name : Str} (h : ListLoader.validateName name = .ok ()) :
    Component name := by
  rw [ListLoader.validateName] at h
  split_ifs at h with hempty hdots hsep
  exact ⟨hempty, hsep⟩

/-- The name of a directory is that of its place. -/
theorem foldCase_node (d : t.Dir) (h : d.1 ≠ []) :
    d.1 = (up d h).1 ++ [Util.foldCase locale (node d).name] := by
  have hplace : d.1.dropLast ++ [d.1.getLast h] = d.1 := List.dropLast_append_getLast h
  have hnode : t.nodes (d.1.dropLast ++ [d.1.getLast h]) = some (node d) := by
    rw [hplace]
    exact nodes_node d
  rw [t.key _ _ _ hnode]
  exact hplace.symm

/-- **The path of a directory** is made of the names of the directories on the way to it. -/
theorem getAdcPathUnsafe_eq (haccepted : Accepted t) (d : t.Dir) :
    ∃ names, (∀ name ∈ names, Component name) ∧ getAdcPathUnsafe d = adcPath names ∧
      d.1 = names.map (Util.foldCase locale) := by
  induction hlen : d.1.length generalizing d with
  | zero =>
    have hroot : d.1 = [] := List.length_eq_zero_iff.mp hlen
    refine ⟨[], by simp, ?_, hroot⟩
    rw [getAdcPathUnsafe, dif_neg (not_not.mpr hroot)]
    rfl
  | succ n ih =>
    have hne : d.1 ≠ [] := fun h => by simp [h] at hlen
    obtain ⟨names, hnames, hpath, hup⟩ := ih (up d hne) (by simp [up, hlen])
    refine ⟨names ++ [(node d).name], ?_, ?_, ?_⟩
    · intro name hname
      rcases List.mem_append.mp hname with hname | hname
      · exact hnames name hname
      · rw [List.mem_singleton.mp hname]
        exact component_of_accepted (haccepted d hne)
    · rw [getAdcPathUnsafe, dif_pos hne, hpath, adcPath_concat]
    · rw [List.map_append, ← hup]
      exact foldCase_node d hne

/-! ## A chain of directories -/

/-- The second tree has the directories of the first one as they were, and new ones only on the way
    to a place: incomplete, without files, under names of the list. -/
structure Extends (t t' : Tree locale) (place : Path) (names : List Str) : Prop where
  keeps : ∀ q n, t.nodes q = some n → t'.nodes q = some n
  added : ∀ q n, t.nodes q = none → t'.nodes q = some n →
    q <+: place ∧ n.name ∈ names ∧ n.type = .incompleteChild ∧ n.files = []

theorem Extends.refl (t : Tree locale) (place : Path) (names : List Str) :
    Extends t t place names where
  keeps _ _ h := h
  added q n h h' := by
    rw [h] at h'
    cases h'

theorem createChain_spec (aDownloadDate : Int) (names : List Str) (cur : t.Dir) :
    (createChain aDownloadDate t cur names).2.1 = cur.1 ++ names.map (Util.foldCase locale) ∧
      Extends t (createChain aDownloadDate t cur names).1
        (createChain aDownloadDate t cur names).2.1 names := by
  induction names generalizing t with
  | nil => exact ⟨by simp [createChain], Extends.refl _ _ _⟩
  | cons name names ih =>
    rw [createChain]
    cases hchild : child cur name with
    | some s =>
      have hs : s.1 = cur.1 ++ [Util.foldCase locale name] := by
        rw [child] at hchild
        split_ifs at hchild
        cases hchild
        rfl
      obtain ⟨hplace, hext⟩ := ih s
      refine ⟨?_, hext.keeps, fun q n h h' => ?_⟩
      · simp only [hplace, hs, List.map_cons, List.append_assoc, List.singleton_append]
      · obtain ⟨hq, hname, hrest⟩ := hext.added q n h h'
        exact ⟨hq, List.mem_cons_of_mem _ hname, hrest⟩
    | none =>
      have hnone : t.nodes (cur.1 ++ [Util.foldCase locale name]) = none := by
        rw [child] at hchild
        split_ifs at hchild with h
        exact not_not.mp h
      generalize hd :
        ({ name := name, type := .incompleteChild, lastUpdateDate := aDownloadDate } : Node) = d
      have hdname : d.name = name := by rw [← hd]
      obtain ⟨hplace, hext⟩ := ih (created cur d)
      refine ⟨?_, fun q n h => ?_, fun q n h h' => ?_⟩
      · have hcreated : (created cur d).1 = cur.1 ++ [Util.foldCase locale name] :=
          congrArg (fun name => cur.1 ++ [Util.foldCase locale name]) hdname
        refine hplace.trans ?_
        rw [hcreated, List.map_cons, List.append_assoc, List.singleton_append]
      · refine hext.keeps q n ?_
        have hq : q ≠ cur.1 ++ [Util.foldCase locale d.name] := fun hq => by
          rw [hq, hdname, hnone] at h
          cases h
        rw [nodes_create_of_ne hq, h]
      · by_cases hq : q = cur.1 ++ [Util.foldCase locale d.name]
        · have hnew : (create cur d).nodes q = some d := by
            rw [hq, nodes_create_self]
          rw [hext.keeps q d hnew, Option.some.injEq] at h'
          subst h'
          refine ⟨?_, by simp [hdname], by simp [← hd], by simp [← hd]⟩
          rw [hplace, hq]
          exact List.prefix_append _ _
        · have hold : (create cur d).nodes q = none := by
            rw [nodes_create_of_ne hq, h]
          obtain ⟨hq, hname, hrest⟩ := hext.added q n hold h'
          exact ⟨hq, List.mem_cons_of_mem _ hname, hrest⟩

/-- A listing as it is made. -/
def newTree (locale : Locale) : Tree locale where
  nodes q := if q = [] then some { name := ADC_ROOT_STR, type := .incompleteNoChild } else none
  hasRoot := by simp
  parent p k h := by simp at h
  key p k n h := by simp at h

theorem accepted_newTree (locale : Locale) : Accepted (newTree locale) := by
  intro d hd
  have hnode := nodes_node d
  simp [newTree, hd] at hnode

/-- `DirType` without the virtual directories. -/
def typeOf : DirType → NodeType
  | .normal => .normal
  | .incompleteChild => .incompleteChild
  | .incompleteNoChild => .incompleteNoChild

def nodeOf (d : Directory) : Node :=
  { name := d.name, type := typeOf d.type, partialSize := d.partialSize, remoteDate := d.remoteDate
    files := d.files }

/-- The tree of a listing. -/
def ofListing (dirs : Directories) (h : Formed locale dirs) : Tree locale where
  nodes q := (dirs q).map nodeOf
  hasRoot := by simpa using h.root
  parent p k hp := by
    have := h.parent p k
    simp only [ne_eq, Option.map_eq_none_iff] at hp ⊢
    exact this hp
  key p k n hn := by
    obtain ⟨d, hd, rfl⟩ := Option.map_eq_some_iff.mp hn
    exact h.name p k d hd

theorem walk_ofListing {dirs : Directories} (h : Formed locale dirs) (names : List Str)
    (cur : (ofListing dirs h).Dir) :
    (walk cur names).map Subtype.val = findFrom locale dirs cur.1 names := by
  induction names generalizing cur with
  | nil => rfl
  | cons name names ih =>
    rw [walk, child, findFrom]
    by_cases hnext : (dirs (cur.1 ++ [Util.foldCase locale name])).isSome = true
    · have hin : (ofListing dirs h).nodes (cur.1 ++ [Util.foldCase locale name]) ≠ none := by
        simpa [ofListing, Option.isSome_iff_ne_none] using hnext
      rw [dif_pos hin, if_pos hnext, Option.bind_some]
      exact ih _
    · have hout : ¬ (ofListing dirs h).nodes (cur.1 ++ [Util.foldCase locale name]) ≠ none := by
        simpa [ofListing, Option.isSome_iff_ne_none] using hnext
      rw [dif_neg hout, if_neg hnext]
      rfl

/-- **The lookup in a listing is that of its tree.** -/
theorem findDirectoryUnsafe_ofListing {dirs : Directories} (h : Formed locale dirs)
    {names : List Str} (hnames : ∀ name ∈ names, Component name) :
    ((ofListing dirs h).findDirectoryUnsafe (adcPath names) (ofListing dirs h).root).map
        (fun d => d.map Subtype.val) =
      some (DirectoryListing.findDirectoryUnsafe locale dirs (adcPath names)) := by
  by_cases hne : names = []
  · subst hne
    rw [adcPath, Tree.findDirectoryUnsafe, if_pos rfl, DirectoryListing.findDirectoryUnsafe,
      if_pos rfl]
    rfl
  · have hroot : adcPath names ≠ ADC_ROOT_STR := by
      intro heq
      have hsplit := splitOn_adcPath hnames
      have hparts : ADC_ROOT_STR.splitOn ADC_SEPARATOR = [[], []] := by decide
      rw [heq, hparts] at hsplit
      exact hne (by simpa using hsplit)
    rw [findDirectoryUnsafe_adcPath hnames hne, DirectoryListing.findDirectoryUnsafe, if_neg hroot,
      splitOn_adcPath hnames, Option.map_some, walk_ofListing]
    simp [root]

end Tree

end DirectoryListing
end Airdcpp
