import Airdcpp.Core.Types
import Airdcpp.Lib.ListOps
import Airdcpp.Lib.Threads

/-!
# `Search/SearchInstance` — the results of a search

Results arrive from the UDP thread and from the threads of the hubs. Each is matched against the
current search, the group of its TTH is found or created, and it is added to the group unless there
is a result of the same user. A new search may replace the current one at any time (`reset`).

Each of these takes the lock and releases it again. `Inside` says where a thread is that is between
them.
-/

namespace Airdcpp

open Lib

namespace SearchResult

inductive SearchType
  | file
  | directory
deriving DecidableEq, Repr

end SearchResult

structure SearchResult where
  tth : TTHValue
  path : Str := []
  size : Int := 0
  freeSlots : Nat := 0
  user : HintedUser
  /-- `isNMDC` -/
  nmdc : Bool := false
  type : SearchResult.SearchType := .file
  searchToken : Str := []
  /-- A `time_t`, 0 when the client sent none -/
  date : Int := 0
deriving DecidableEq, Repr

/-- `SearchQuery::ItemType` -/
inductive SearchItemType
  | any
  | file
  | directory
deriving DecidableEq, Repr

structure SearchQuery where
  include_ : List Str := []
  exclude : List Str := []
  ext : List Str := []
  gt : Int := 0
  lt : Int := 2 ^ 63 - 1
  root : Option TTHValue := none
  itemType : SearchItemType := .any
deriving DecidableEq, Repr

/-- What the searches for patterns in a path find: `match_any` and `matchesAdcPath`. -/
structure PatternSearch where
  match_any : List Str → Str → Bool
  matchesAdcPath : List Str → Str → Bool

/-! ## Matching -/

def SearchQuery.matchesSize (q : SearchQuery) (aSize : Int) : Bool :=
  decide (q.gt ≤ aSize) && decide (aSize ≤ q.lt)

/-- The excluded extensions are not those of a search of ours. -/
def SearchQuery.hasExt (q : SearchQuery) (name : Str) : Bool :=
  q.ext.isEmpty || q.ext.any fun i => i.isSuffixOf name

namespace SearchResult

variable (patterns : PatternSearch)

/-- What is checked by hand in a result of NMDC. -/
def matchesNmdc (r : SearchResult) (aQuery : SearchQuery) : Bool :=
  aQuery.hasExt r.path && !patterns.match_any aQuery.exclude r.path &&
    aQuery.root.all fun root => root == r.tth

/-- `matches` -/
def matchesQuery (r : SearchResult) (aQuery : SearchQuery) (aLocalSearchToken : Str) : Bool :=
  (if r.nmdc then matchesNmdc patterns r aQuery else aLocalSearchToken == r.searchToken) &&
    -- not all clients can handle this correctly
    !(aQuery.itemType == .file && r.type != .file)

/-- Whether there is a relevance. -/
def getRelevance (r : SearchResult) (aQuery : SearchQuery) (aLocalSearchToken : Str) : Bool :=
  if !aLocalSearchToken.isEmpty && !matchesQuery patterns r aQuery aLocalSearchToken then false
  else aQuery.root.isSome || patterns.matchesAdcPath aQuery.include_ r.path

/-- NMDC doesn't support both a minimum and a maximum size. -/
def sizeFiltered (r : SearchResult) (aQuery : SearchQuery) : Bool :=
  r.nmdc && r.type == .file && !aQuery.matchesSize r.size

end SearchResult

structure GroupedSearchResult where
  /-- `getTTH`: the TTH of the first result -/
  tth : TTHValue
  children : List SearchResult
deriving Inhabited

namespace GroupedSearchResult

def hasUser (g : GroupedSearchResult) (aUser : UserPtr) : Bool :=
  g.children.any fun r => r.user.user == aUser

end GroupedSearchResult

structure SearchInstance where
  curMatcher : Option SearchQuery := none
  currentSearchToken : Str := []
  freeSlotsOnly : Bool := false
  filteredResultCount : Nat := 0
  /-- An `unordered_map`; the groups are known by their addresses. -/
  results : List (TTHValue × Nat) := []
  groups : Nat → GroupedSearchResult := fun _ => default
  nextGroup : Nat := 0
  /-- How often the search was reset -/
  resets : Nat := 0
  /-- The results that were matched and inserted since the last reset -/
  inserted : List SearchResult := []

namespace SearchInstance

variable (patterns : PatternSearch)

/-! ## The sections -/

/-- Where a thread is. `since` is the number of the search its matching started in. -/
inductive Inside
  /-- `on(SR)`, before the matcher is read -/
  | match_ (aResult : SearchResult)
  | relevance (aResult : SearchResult) (matcher : SearchQuery) (since : Nat)
  | slots (aResult : SearchResult) (since : Nat)
  | group (aResult : SearchResult) (since : Nat)
  /-- `addChildResult`, before `hasUser` -/
  | hasUser (aResult : SearchResult) (parent since : Nat)
  | addChild (aResult : SearchResult) (parent since : Nat)
  | reset (aQuery : SearchQuery) (aToken : Str)
  | setFreeSlotsOnly (value : Bool)

def filtered (s : SearchInstance) : SearchInstance :=
  { s with filteredResultCount := s.filteredResultCount + 1 }

/-- The call returns with the result inserted, or with a result of its user found. -/
def noteInserted (s : SearchInstance) (aResult : SearchResult) (since : Nat) : SearchInstance :=
  if since = s.resets then { s with inserted := aResult :: s.inserted } else s

def createGroup (s : SearchInstance) (aResult : SearchResult) : SearchInstance :=
  { s with
    groups := Function.update s.groups s.nextGroup ⟨aResult.tth, [aResult]⟩
    results := s.results ++ [(aResult.tth, s.nextGroup)]
    nextGroup := s.nextGroup + 1 }

/-- `children.push_back` -/
def pushChild (s : SearchInstance) (parent : Nat) (aResult : SearchResult) : SearchInstance :=
  { s with
    groups := Function.update s.groups parent
      { s.groups parent with children := (s.groups parent).children ++ [aResult] } }

def reset (s : SearchInstance) (aQuery : SearchQuery) (aToken : Str) : SearchInstance :=
  { s with
    currentSearchToken := aToken
    curMatcher := some aQuery
    results := []
    filteredResultCount := 0
    resets := s.resets + 1
    inserted := [] }

def section_ (s : SearchInstance) : Inside → SearchInstance × Option Inside
  | .match_ r =>
    match s.curMatcher with
    | none => (s, none)
    | some matcher =>
      if r.sizeFiltered matcher then (s.filtered, none)
      else (s, some (.relevance r matcher s.resets))
  | .relevance r matcher since =>
    if r.getRelevance patterns matcher s.currentSearchToken then (s, some (.slots r since))
    else (s.filtered, none)
  | .slots r since =>
    if s.freeSlotsOnly ∧ r.freeSlots < 1 then (s.filtered, none)
    else (s, some (.group r since))
  | .group r since =>
    match s.results.lookup r.tth with
    | none => ((s.createGroup r).noteInserted r since, none)
    | some parent => (s, some (.hasUser r parent since))
  | .hasUser r parent since =>
    if (s.groups parent).hasUser r.user.user then (s.noteInserted r since, none)
    else (s, some (.addChild r parent since))
  | .addChild r parent since => ((s.pushChild parent r).noteInserted r since, none)
  | .reset aQuery aToken => (s.reset aQuery aToken, none)
  | .setFreeSlotsOnly value => ({ s with freeSlotsOnly := value }, none)

/-- The calls of other threads. -/
def IsCall : Inside → Prop
  | .match_ _ => True
  | .reset _ _ => True
  | .setFreeSlotsOnly _ => True
  | _ => False

instance : (t : Inside) → Decidable (IsCall t)
  | .match_ .. | .reset .. | .setFreeSlotsOnly .. => .isTrue trivial
  | .relevance .. | .slots .. | .group .. | .hasUser .. | .addChild .. => .isFalse id

def sections : Sections SearchInstance Inside Unit where
  enters _ t := IsCall t
  accepts _ _ _ := True
  next s t _ := s.section_ patterns t

/-! ## What is shown -/

/-- The current search accepts the result. -/
def Accepts (s : SearchInstance) (r : SearchResult) : Prop :=
  ∃ q ∈ s.curMatcher, r.sizeFiltered q = false ∧
    r.getRelevance patterns q s.currentSearchToken = true

structure Shown (s : SearchInstance) : Prop where
  groups : (s.results.map Prod.fst).Nodup
  own : ∀ e ∈ s.results, ∀ r ∈ (s.groups e.2).children, r.tth = e.1
  users : ∀ g, ((s.groups g).children.map fun r => r.user.user).Nodup
  accepted : ∀ e ∈ s.results, ∀ r ∈ (s.groups e.2).children, s.Accepts patterns r
  inserted : ∀ r ∈ s.inserted, ∃ e ∈ s.results, e.1 = r.tth ∧
    (s.groups e.2).hasUser r.user.user = true

/-- What `on(SR)` presumes where it inserts: the search has not changed, or accepts the result too,
    and the group has got no result of the user since the check. -/
def Current (s : SearchInstance) : Inside → Prop
  | .group r _ => s.results.lookup r.tth = none → s.Accepts patterns r
  | .addChild r parent _ => (s.groups parent).hasUser r.user.user = false ∧
      ((r.tth, parent) ∈ s.results → s.Accepts patterns r)
  | _ => True

instance (s : SearchInstance) (r : SearchResult) : Decidable (s.Accepts patterns r) :=
  inferInstanceAs (Decidable (∃ q ∈ s.curMatcher, _ ∧ _))

instance (s : SearchInstance) : (t : Inside) → Decidable (s.Current patterns t)
  | .group .. => inferInstanceAs (Decidable (_ → _))
  | .addChild .. => inferInstanceAs (Decidable (_ ∧ (_ → _)))
  | .match_ .. | .relevance .. | .slots .. | .hasUser .. => .isTrue trivial
  | .reset .. | .setFreeSlotsOnly .. => .isTrue trivial

/-- Where a thread is, the search its matching started in, and the group it has found. -/
structure InsideOk (s : SearchInstance) (r : SearchResult) (parent since : Nat) : Prop where
  created : parent < s.nextGroup
  tth : (s.groups parent).tth = r.tth
  begun : since ≤ s.resets
  current : since = s.resets → (r.tth, parent) ∈ s.results

def ThreadOk (s : SearchInstance) : Inside → Prop
  | .relevance _ _ since => since ≤ s.resets
  | .slots _ since => since ≤ s.resets
  | .group _ since => since ≤ s.resets
  | .hasUser r parent since => s.InsideOk r parent since
  | .addChild r parent since => s.InsideOk r parent since
  | _ => True

structure Inv (s : SearchInstance) (ts : List Inside) : Prop where
  shown : s.Shown patterns
  results : ∀ e ∈ s.results, e.2 < s.nextGroup ∧ (s.groups e.2).tth = e.1
  threads : ∀ t ∈ ts, s.ThreadOk t

variable {patterns} {s s' : SearchInstance} {t : Inside} {ts : List Inside} {r c : SearchResult}
  {g parent since : Nat} {e : TTHValue × Nat} {aQuery : SearchQuery} {aToken : Str}

theorem Shown.congr (h : s.Shown patterns) (hmatcher : s'.curMatcher = s.curMatcher)
    (htoken : s'.currentSearchToken = s.currentSearchToken) (hresults : s'.results = s.results)
    (hgroups : s'.groups = s.groups) (hinserted : s'.inserted = s.inserted) :
    s'.Shown patterns := by
  have haccepts : s'.Accepts patterns = s.Accepts patterns := by
    funext r
    rw [Accepts, Accepts, hmatcher, htoken]
  refine ⟨?_, ?_, ?_, ?_, ?_⟩
  · rw [hresults]
    exact h.groups
  · rw [hresults, hgroups]
    exact h.own
  · rw [hgroups]
    exact h.users
  · rw [hresults, hgroups, haccepts]
    exact h.accepted
  · rw [hresults, hgroups, hinserted]
    exact h.inserted

theorem Shown.noteInserted (h : s.Shown patterns)
    (hr : since = s.resets → ∃ e ∈ s.results, e.1 = r.tth ∧
      (s.groups e.2).hasUser r.user.user = true) :
    (s.noteInserted r since).Shown patterns := by
  rw [SearchInstance.noteInserted]
  split
  · rename_i heq
    exact ⟨h.groups, h.own, h.users, h.accepted, List.forall_mem_cons.mpr ⟨hr heq, h.inserted⟩⟩
  · exact h

/-- Noting a result changes nothing else. -/
theorem Shown.of_noteInserted (h : (s.noteInserted r since).Shown patterns) :
    s.Shown patterns := by
  rw [SearchInstance.noteInserted] at h
  split at h
  · exact ⟨h.groups, h.own, h.users, h.accepted, (List.forall_mem_cons.mp h.inserted).2⟩
  · exact h

/-! ## A new group -/

theorem groups_createGroup_of_lt (h : g < s.nextGroup) :
    (s.createGroup r).groups g = s.groups g := Function.update_of_ne h.ne ..

theorem groups_createGroup_self :
    (s.createGroup r).groups s.nextGroup = ⟨r.tth, [r]⟩ := Function.update_self ..

theorem shown_createGroup_iff (h : s.Inv patterns ts) (hnone : s.results.lookup r.tth = none) :
    (s.createGroup r).Shown patterns ↔ s.Accepts patterns r := by
  have hold : ∀ e ∈ s.results, (s.createGroup r).groups e.2 = s.groups e.2 := fun e he =>
    groups_createGroup_of_lt (h.results e he).1
  have hmem : ∀ e, e ∈ (s.createGroup r).results ↔ e ∈ s.results ∨ e = (r.tth, s.nextGroup) := by
    intro e
    rw [createGroup, List.mem_append, List.mem_singleton]
  constructor
  · intro hshown
    refine hshown.accepted (r.tth, s.nextGroup) ((hmem _).mpr (.inr rfl)) r ?_
    rw [groups_createGroup_self]
    exact List.mem_cons_self
  · intro haccepts
    refine ⟨?_, ?_, ?_, ?_, ?_⟩
    · have hkey := notMem_keys_of_lookup hnone
      rw [createGroup, List.map_append, List.nodup_append]
      refine ⟨h.shown.groups, List.nodup_singleton _, ?_⟩
      intro k hk k' hk' heq
      obtain rfl : k' = r.tth := List.mem_singleton.mp hk'
      exact hkey (heq ▸ hk)
    · intro e he c hc
      rcases (hmem e).mp he with he | rfl
      · rw [hold e he] at hc
        exact h.shown.own e he c hc
      · rw [groups_createGroup_self] at hc
        rw [List.mem_singleton.mp hc]
    · intro g
      by_cases hg : g = s.nextGroup
      · rw [hg, groups_createGroup_self]
        exact List.nodup_singleton _
      · have : (s.createGroup r).groups g = s.groups g := Function.update_of_ne hg ..
        rw [this]
        exact h.shown.users g
    · intro e he c hc
      rcases (hmem e).mp he with he | rfl
      · rw [hold e he] at hc
        exact h.shown.accepted e he c hc
      · rw [groups_createGroup_self] at hc
        rw [List.mem_singleton.mp hc]
        exact haccepts
    · intro c hc
      obtain ⟨e, he, hkey, huser⟩ := h.shown.inserted c hc
      refine ⟨e, (hmem e).mpr (.inl he), hkey, ?_⟩
      rw [hold e he]
      exact huser

/-! ## A new child -/

theorem groups_pushChild_self : (s.pushChild parent r).groups parent =
    { s.groups parent with children := (s.groups parent).children ++ [r] } :=
  Function.update_self ..

theorem groups_pushChild_of_ne (h : g ≠ parent) :
    (s.pushChild parent r).groups g = s.groups g := Function.update_of_ne h ..

theorem tth_pushChild : ((s.pushChild parent r).groups g).tth = (s.groups g).tth := by
  by_cases hg : g = parent
  · rw [hg, groups_pushChild_self]
  · rw [groups_pushChild_of_ne hg]

theorem mem_children_pushChild : c ∈ ((s.pushChild parent r).groups g).children ↔
    c ∈ (s.groups g).children ∨ g = parent ∧ c = r := by
  by_cases hg : g = parent
  · rw [hg, groups_pushChild_self, List.mem_append, List.mem_singleton]
    simp
  · rw [groups_pushChild_of_ne hg]
    simp [hg]

theorem hasUser_iff {group : GroupedSearchResult} {u : UserPtr} :
    group.hasUser u = true ↔ u ∈ group.children.map fun r => r.user.user := by
  rw [GroupedSearchResult.hasUser, List.any_eq_true, List.mem_map]
  simp only [beq_iff_eq]

theorem shown_pushChild_iff (h : s.Inv patterns ts) (hparent : s.InsideOk r parent since) :
    (s.pushChild parent r).Shown patterns ↔ (s.groups parent).hasUser r.user.user = false ∧
      ((r.tth, parent) ∈ s.results → s.Accepts patterns r) := by
  have husers : (((s.pushChild parent r).groups parent).children.map fun r => r.user.user).Nodup ↔
      (s.groups parent).hasUser r.user.user = false := by
    rw [groups_pushChild_self, List.map_append, List.map_singleton,
      List.nodup_append_comm, List.singleton_append, List.nodup_cons,
      and_iff_left (h.shown.users parent), ← hasUser_iff, Bool.not_eq_true]
  constructor
  · intro hshown
    refine ⟨husers.mp (hshown.users parent), fun hin => ?_⟩
    exact hshown.accepted (r.tth, parent) hin r (mem_children_pushChild.mpr (.inr ⟨rfl, rfl⟩))
  · rintro ⟨huser, haccepts⟩
    refine ⟨h.shown.groups, ?_, ?_, ?_, ?_⟩
    · intro e he c hc
      rcases mem_children_pushChild.mp hc with hc | ⟨hg, rfl⟩
      · exact h.shown.own e he c hc
      · rw [← hparent.tth, ← hg]
        exact (h.results e he).2
    · intro g
      by_cases hg : g = parent
      · rw [hg]
        exact husers.mpr huser
      · rw [groups_pushChild_of_ne hg]
        exact h.shown.users g
    · intro e he c hc
      rcases mem_children_pushChild.mp hc with hc | ⟨hg, rfl⟩
      · exact h.shown.accepted e he c hc
      · refine haccepts ?_
        rw [← hparent.tth, ← hg, (h.results e he).2]
        exact he
    · intro c hc
      obtain ⟨e, he, hkey, hin⟩ := h.shown.inserted c hc
      refine ⟨e, he, hkey, ?_⟩
      rw [hasUser_iff, List.mem_map] at *
      obtain ⟨x, hx, heq⟩ := hin
      exact ⟨x, mem_children_pushChild.mpr (.inl hx), heq⟩

/-! ## The sections of a thread -/

/-- What all sections leave to the other threads. -/
structure Later (s s' : SearchInstance) : Prop where
  nextGroup : s.nextGroup ≤ s'.nextGroup
  tth : ∀ g, g < s.nextGroup → (s'.groups g).tth = (s.groups g).tth
  resets : s.resets ≤ s'.resets
  results : s'.resets = s.resets → ∀ e ∈ s.results, e ∈ s'.results

theorem InsideOk.mono (h : s.InsideOk r parent since) (hlater : s.Later s') :
    s'.InsideOk r parent since where
  created := lt_of_lt_of_le h.created hlater.nextGroup
  tth := (hlater.tth parent h.created).trans h.tth
  begun := le_trans h.begun hlater.resets
  current heq := by
    have hsame : s'.resets = s.resets := le_antisymm (heq ▸ h.begun) hlater.resets
    exact hlater.results hsame _ (h.current (heq.trans hsame))

theorem ThreadOk.mono (h : s.ThreadOk t) (hlater : s.Later s') : s'.ThreadOk t := by
  cases t with
  | relevance | slots | group => exact le_trans h hlater.resets
  | hasUser | addChild => exact InsideOk.mono h hlater
  | match_ | reset | setFreeSlotsOnly => trivial

theorem later_noteInserted : s.Later (s.noteInserted r since) := by
  rw [noteInserted]
  split <;> exact ⟨le_rfl, fun _ _ => rfl, le_rfl, fun _ _ he => he⟩

theorem later_createGroup : s.Later (s.createGroup r) where
  nextGroup := Nat.le_succ _
  tth _ hg := by rw [groups_createGroup_of_lt hg]
  resets := le_rfl
  results _ _ he := List.mem_append_left _ he

theorem later_pushChild : s.Later (s.pushChild parent r) where
  nextGroup := le_rfl
  tth _ _ := tth_pushChild
  resets := le_rfl
  results _ _ he := he

theorem later_reset : s.Later (s.reset aQuery aToken) where
  nextGroup := le_rfl
  tth _ _ := rfl
  resets := Nat.le_succ _
  results heq := absurd heq (Nat.succ_ne_self _)

theorem Later.trans {s'' : SearchInstance} (h : s.Later s') (h' : s'.Later s'') : s.Later s'' where
  nextGroup := le_trans h.nextGroup h'.nextGroup
  tth g hg := (h'.tth g (lt_of_lt_of_le hg h.nextGroup)).trans (h.tth g hg)
  resets := le_trans h.resets h'.resets
  results heq e he := by
    have hsame : s'.resets = s.resets := le_antisymm (heq ▸ h'.resets) h.resets
    exact h'.results (heq.trans hsame.symm) e (h.results hsame e he)

theorem shown_reset : (s.reset aQuery aToken).Shown patterns ↔
    ∀ g, ((s.groups g).children.map fun r => r.user.user).Nodup := by
  constructor
  · intro h
    exact h.users
  · intro h
    exact ⟨List.nodup_nil, fun _ he => absurd he List.not_mem_nil, h,
      fun _ he => absurd he List.not_mem_nil, fun _ hr => absurd hr List.not_mem_nil⟩

/-- **What is shown stays right in a section exactly when it meets the condition.** -/
theorem shown_section_iff (h : s.Inv patterns (t :: ts)) :
    (s.section_ patterns t).1.Shown patterns ↔ s.Current patterns t := by
  have hthread := h.threads t List.mem_cons_self
  have hsame : s.filtered.Shown patterns := h.shown.congr rfl rfl rfl rfl rfl
  cases t with
  | match_ r =>
    refine iff_of_true ?_ trivial
    rw [section_]
    split
    · exact h.shown
    · split
      · exact hsame
      · exact h.shown
  | relevance r matcher since =>
    refine iff_of_true ?_ trivial
    rw [section_]
    split
    · exact h.shown
    · exact hsame
  | slots r since =>
    refine iff_of_true ?_ trivial
    rw [section_]
    split
    · exact hsame
    · exact h.shown
  | group r since =>
    rw [section_, Current]
    cases hlookup : s.results.lookup r.tth with
    | some parent => exact iff_of_true h.shown fun hnone => by cases hnone
    | none =>
      have hiff := shown_createGroup_iff h hlookup
      constructor
      · intro hshown _
        exact hiff.mp hshown.of_noteInserted
      · intro haccepts
        refine (hiff.mpr (haccepts rfl)).noteInserted fun _ => ?_
        refine ⟨(r.tth, s.nextGroup), by simp [createGroup], rfl, ?_⟩
        rw [groups_createGroup_self]
        simp [GroupedSearchResult.hasUser]
  | hasUser r parent since =>
    refine iff_of_true ?_ trivial
    rw [section_]
    split
    · rename_i huser
      exact h.shown.noteInserted fun heq => ⟨_, hthread.current heq, rfl, huser⟩
    · exact h.shown
  | addChild r parent since =>
    have hiff := shown_pushChild_iff h hthread
    constructor
    · intro hshown
      exact hiff.mp hshown.of_noteInserted
    · intro hcurrent
      refine (hiff.mpr hcurrent).noteInserted fun heq => ?_
      refine ⟨(r.tth, parent), hthread.current heq, rfl, ?_⟩
      rw [hasUser_iff]
      exact List.mem_map_of_mem (mem_children_pushChild.mpr (.inr ⟨rfl, rfl⟩))
  | reset aQuery aToken => exact iff_of_true (shown_reset.mpr h.shown.users) trivial
  | setFreeSlotsOnly value => exact iff_of_true (h.shown.congr rfl rfl rfl rfl rfl) trivial

theorem later_section : s.Later (s.section_ patterns t).1 := by
  have hrefl : s.Later s := ⟨le_rfl, fun _ _ => rfl, le_rfl, fun _ _ he => he⟩
  have hfiltered : s.Later s.filtered := ⟨le_rfl, fun _ _ => rfl, le_rfl, fun _ _ he => he⟩
  cases t with
  | match_ r =>
    rw [section_]
    split
    · exact hrefl
    · split
      · exact hfiltered
      · exact hrefl
  | relevance r matcher since =>
    rw [section_]
    split
    · exact hrefl
    · exact hfiltered
  | slots r since =>
    rw [section_]
    split
    · exact hfiltered
    · exact hrefl
  | group r since =>
    rw [section_]
    split
    · exact later_createGroup.trans later_noteInserted
    · exact hrefl
  | hasUser r parent since =>
    rw [section_]
    split
    · exact later_noteInserted
    · exact hrefl
  | addChild r parent since => exact later_pushChild.trans later_noteInserted
  | reset aQuery aToken => exact later_reset
  | setFreeSlotsOnly value => exact ⟨le_rfl, fun _ _ => rfl, le_rfl, fun _ _ he => he⟩

@[simp] theorem results_noteInserted : (s.noteInserted r since).results = s.results := by
  rw [noteInserted]
  split <;> rfl

/-- Where the thread is after its section. -/
theorem threadOk_section (h : s.Inv patterns (t :: ts)) :
    ∀ t' ∈ (s.section_ patterns t).2, (s.section_ patterns t).1.ThreadOk t' := by
  have hthread := h.threads t List.mem_cons_self
  intro t' ht'
  cases t with
  | match_ r =>
    rw [section_] at ht' ⊢
    split at ht'
    · cases ht'
    · split at ht'
      · cases ht'
      · obtain rfl := Option.some.inj ht'
        rename_i hsize
        simp only [hsize]
        exact le_rfl
  | relevance r matcher since =>
    rw [section_] at ht' ⊢
    split at ht'
    · obtain rfl := Option.some.inj ht'
      rename_i hrelevant
      rw [if_pos hrelevant]
      exact hthread
    · cases ht'
  | slots r since =>
    rw [section_] at ht' ⊢
    split at ht'
    · cases ht'
    · obtain rfl := Option.some.inj ht'
      rename_i hslots
      rw [if_neg hslots]
      exact hthread
  | group r since =>
    rw [section_] at ht' ⊢
    split at ht'
    · cases ht'
    · obtain rfl := Option.some.inj ht'
      rename_i parent hlookup
      have hmem := (lookup_eq_some_iff_mem h.shown.groups).mp hlookup
      obtain ⟨hcreated, htth⟩ := h.results _ hmem
      exact ⟨hcreated, htth, hthread, fun _ => hmem⟩
  | hasUser r parent since =>
    rw [section_] at ht' ⊢
    split at ht'
    · cases ht'
    · obtain rfl := Option.some.inj ht'
      rename_i huser
      rw [if_neg huser]
      exact hthread
  | addChild | reset | setFreeSlotsOnly => cases ht'

theorem results_section (h : s.Inv patterns (t :: ts)) : ∀ e ∈ (s.section_ patterns t).1.results,
    e.2 < (s.section_ patterns t).1.nextGroup ∧
      ((s.section_ patterns t).1.groups e.2).tth = e.1 := by
  have hlater : s.Later (s.section_ patterns t).1 := later_section
  have hold : ∀ e ∈ s.results, e.2 < (s.section_ patterns t).1.nextGroup ∧
      ((s.section_ patterns t).1.groups e.2).tth = e.1 := by
    intro e he
    obtain ⟨hcreated, htth⟩ := h.results e he
    exact ⟨lt_of_lt_of_le hcreated hlater.nextGroup, (hlater.tth _ hcreated).trans htth⟩
  intro e he
  cases t with
  | group r since =>
    cases hlookup : s.results.lookup r.tth with
    | some parent =>
      simp only [section_, hlookup] at he
      exact hold e he
    | none =>
      simp only [section_, hlookup, results_noteInserted] at he
      rcases List.mem_append.mp he with he | he
      · exact hold e he
      · obtain rfl := List.mem_singleton.mp he
        have hcreated : (s.createGroup r).Later ((s.createGroup r).noteInserted r since) :=
          later_noteInserted
        have hlt : s.nextGroup < (s.createGroup r).nextGroup := Nat.lt_succ_self _
        simp only [section_, hlookup]
        refine ⟨lt_of_lt_of_le hlt hcreated.nextGroup, ?_⟩
        rw [hcreated.tth _ hlt, groups_createGroup_self]
  | reset aQuery aToken => exact absurd he List.not_mem_nil
  | match_ r =>
    refine hold e ?_
    rw [section_] at he
    split at he
    · exact he
    · split at he <;> exact he
  | relevance r matcher since =>
    refine hold e ?_
    rw [section_] at he
    split at he <;> exact he
  | slots r since =>
    refine hold e ?_
    rw [section_] at he
    split at he <;> exact he
  | hasUser r parent since =>
    refine hold e ?_
    rw [section_] at he
    split at he
    · rwa [results_noteInserted] at he
    · exact he
  | addChild r parent since =>
    refine hold e ?_
    simp only [section_, results_noteInserted] at he
    exact he
  | setFreeSlotsOnly value => exact hold e he

theorem inv_section (h : s.Inv patterns (t :: ts)) (hcurrent : s.Current patterns t) :
    (s.section_ patterns t).1.Inv patterns ((s.section_ patterns t).2.toList ++ ts) := by
  refine ⟨(shown_section_iff h).mpr hcurrent, results_section h, ?_⟩
  intro t' ht'
  rcases List.mem_append.mp ht' with ht' | ht'
  · exact threadOk_section h t' (Option.mem_toList.mp ht')
  · exact (h.threads t' (List.mem_cons_of_mem _ ht')).mono later_section

/-! ## Runs -/

/-- A new search instance that nobody has searched with. -/
def Start (s : Threads SearchInstance Inside) : Prop := s = ⟨{}, []⟩

theorem inv_start : Inv patterns {} [] where
  shown := ⟨List.nodup_nil, fun _ he => absurd he List.not_mem_nil, fun _ => List.nodup_nil,
    fun _ he => absurd he List.not_mem_nil, fun _ hr => absurd hr List.not_mem_nil⟩
  results _ he := absurd he List.not_mem_nil
  threads _ ht := absurd ht List.not_mem_nil

/-- What the next section of a thread has to meet. -/
def CurrentTurn (patterns : PatternSearch) (s : SearchInstance) (_ : List Inside) (t : Inside)
    (_ : Unit) : Prop := s.Current patterns t

instance (s : SearchInstance) (ts : List Inside) (t : Inside) (u : Unit) :
    Decidable (CurrentTurn patterns s ts t u) :=
  inferInstanceAs (Decidable (s.Current patterns t))

instance (s : SearchInstance) (t : Inside) : Decidable ((sections patterns).enters s t) :=
  inferInstanceAs (Decidable (IsCall t))

instance (s : SearchInstance) (t : Inside) (u : Unit) :
    Decidable ((sections patterns).accepts s t u) := .isTrue trivial

def sampleQuery : SearchQuery := { root := some (Vector.replicate 24 1) }

def sampleResult : SearchResult :=
  { tth := Vector.replicate 24 1, user := ⟨Vector.replicate 24 2, []⟩, searchToken := str "1" }

/-- The search is set, and the result is matched. -/
def sampleTurns : List (Turn Inside Unit) :=
  [.enter (.reset sampleQuery (str "1")), .run 0 (), .enter (.match_ sampleResult), .run 0 (),
    .run 0 (), .run 0 ()]

end SearchInstance
end Airdcpp
