import Airdcpp.Core.BloomFilter
import Airdcpp.Search.AdcPaths
import Airdcpp.Share.ShareDirectory

/-!
# `Share/ShareSearch` — searching the share

A search goes down the tree of a root. What is found of the include patterns in the name of a
directory is kept for what is below it, and a directory or a file is a result when all patterns have
been found in its name and those above. So each pattern has been found in some name of the share
when there is a result (`search_found`).

The filter has the windows of all names. A pattern that is found occurs in the name up to its first
null byte, and so a search that finds something is let through when the bits of the other windows
are set too (`matchBloom_iff`).
-/

namespace Airdcpp

open StringSearch Matching

/-- `ShareBloom` -/
abbrev ShareBloom := BloomFilter 5

namespace ShareDirectory

/-- `SearchResultInfo`: a directory or a file, and what its score is counted from. -/
structure SearchResultInfo where
  item : ShareDirectory ⊕ ShareFile
  aLevel : Int
  positions : ResultPointsList

/-- The results and the query. -/
abbrev SearchState := List SearchResultInfo × Matching.SearchQuery

variable (u : OutOfRange)

/-- `results_.emplace(.., aStrings, aLevel)`: the score is counted from the positions in `aName`. -/
def addResult (item : ShareDirectory ⊕ ShareFile) (aName : Str) (aLevel : Int) (s : SearchState) :
    Option SearchState :=
  (s.2.getResultPositions u aName).map fun positions => (s.1 ++ [⟨item, aLevel, positions⟩], s.2)

/-- A pattern of more than two bytes is found. -/
def hasValidMatch (q : Matching.SearchQuery) : Bool :=
  (q.include_.patterns.zip q.lastIncludePositions).any fun i => i.2.isSome && decide (2 < i.1.size)

/-- What follows from matches in the name of the directory. -/
def matchDirectory (d : ShareDirectory) (aLevel : Int) (s : SearchState) : Option SearchState :=
  let positionsComplete := s.2.positionsComplete
  (if s.2.itemType ≠ ItemType.FILE ∧ positionsComplete ∧ s.2.gt = 0 ∧
    s.2.matchesDate d.lastWrite then
    addResult u (.inl d) d.realName.getLower aLevel s
  else some s).bind fun s =>
    if s.2.matchType = MATCH_PATH_PARTIAL ∧ (positionsComplete ∨ hasValidMatch s.2) then
      (s.2.newRecursion u d.getVirtualNameLower).map fun r =>
        (s.1, { s.2 with recursion := some r })
    else some s

/-- The loop over the files. -/
def matchFiles (aLevel : Int) : List ShareFile → SearchState → Option SearchState
  | [], s => some s
  | f :: files, s =>
    (s.2.matchesFileLower u f.name.getLower f.size f.lastWrite).bind fun r =>
      if r.1 then
        (addResult u (.inr f) f.name.getLower aLevel (s.1, r.2)).bind fun s =>
          if s.2.addParents then some s else matchFiles aLevel files s
      else matchFiles aLevel files (s.1, r.2)

/-- The directory's own name and its files. The level is that of what is in the directory. -/
def searchOwn (d : ShareDirectory) (aLevel : Int) (s : SearchState) : Option SearchState :=
  (s.2.matchesAnyDirectoryLower d.getVirtualNameLower).bind fun r =>
    (if r.1 then matchDirectory u d aLevel (s.1, r.2) else some (s.1, r.2)).bind fun s =>
      let q := { s.2 with recursion := s.2.recursion.map (·.increase d.getVirtualNameLower.length) }
      if q.itemType ≠ ItemType.DIRECTORY then matchFiles u (aLevel + 1) d.files (s.1, q)
      else some (s.1, q)

mutual

/-- `search`. The recursion that was there is set again: what `increase` does to it, `decrease`
    takes back. -/
def search : (d : ShareDirectory) → (aLevel : Int) → SearchState → Option SearchState
  | mk realName virtualName lastWrite files directories, aLevel, s =>
    let d := mk realName virtualName lastWrite files directories
    (s.2.isExcludedLower d.getVirtualNameLower).bind fun excluded =>
      if excluded then some s
      else
        ((searchOwn u d aLevel s).bind fun s => searchAll directories (aLevel + 1) s).map fun s' =>
          (s'.1, { s'.2 with recursion := s.2.recursion })

/-- The loop over directories. -/
def searchAll : (directories : List ShareDirectory) → (aLevel : Int) → SearchState →
    Option SearchState
  | [], _, s => some s
  | d :: directories, aLevel, s =>
    (search d aLevel s).bind fun s => searchAll directories aLevel s

end

/-! ## Marks -/

variable {u : OutOfRange} {locale : Locale} {patterns : List StringSearch.Pattern}
  {P : StringSearch.Pattern → Prop} {T : Str → Prop} {bs bs' : List Bool}
    {q q' : Matching.SearchQuery}
  {s s' : SearchState} {d : ShareDirectory} {aName aText : Str} {aLevel : Int}

/-- Only patterns with the property are marked. -/
def Marks (P : StringSearch.Pattern → Prop) (patterns : List StringSearch.Pattern)
    (bs : List Bool) :
    Prop :=
  List.Forall₂ (fun p b => b = true → P p) patterns bs

theorem Marks.or (h : Marks P patterns bs) (h' : Marks P patterns bs') :
    Marks P patterns (List.zipWith (· || ·) bs bs') := by
  induction h generalizing bs' with
  | nil => exact .nil
  | @cons p b ps bs hb _ ih =>
    cases h' with
    | cons hb' h' =>
      refine .cons (fun hor => ?_) (ih h')
      rcases Bool.or_eq_true_iff.mp hor with hor | hor
      · exact hb hor
      · exact hb' hor

theorem Marks.all (h : Marks P patterns bs) (hall : bs.all id = true) : ∀ p ∈ patterns, P p := by
  induction h with
  | nil => exact fun p hp => absurd hp List.not_mem_nil
  | @cons p b ps bs hb _ ih =>
    rw [List.all_cons, Bool.and_eq_true] at hall
    exact List.forall_mem_cons.mpr ⟨hb hall.1, ih hall.2⟩

theorem marks_none (P : StringSearch.Pattern → Prop) (patterns : List StringSearch.Pattern) :
    Marks P patterns (List.replicate patterns.length false) := by
  induction patterns with
  | nil => exact .nil
  | cons p ps ih => exact .cons (fun h => (by cases h)) ih

/-- The pattern is found in one of the names. -/
def FoundIn (T : Str → Prop) (p : StringSearch.Pattern) : Prop :=
  ∃ name, T name ∧ detected p name = true

/-- What is kept from the names above has been found in one of the names. -/
structure Tracked (T : Str → Prop) (patterns : List StringSearch.Pattern)
    (q : Matching.SearchQuery) : Prop
    extends Matching.Settled patterns q where
  above : Marks (FoundIn T) patterns (foundAbove (kept patterns.length q.recursion))

/-- So has what is found in the last name. -/
structure Matched (T : Str → Prop) (patterns : List StringSearch.Pattern)
    (q : Matching.SearchQuery) : Prop
    extends Tracked T patterns q where
  last : Marks (FoundIn T) patterns (foundIn q.lastIncludePositions)
  count : q.lastIncludeMatches = (foundIn q.lastIncludePositions).countP id

theorem Tracked.length_kept (h : Tracked T patterns q) :
    (kept patterns.length q.recursion).length = patterns.length := by
  have hlen := h.above.length_eq
  rw [foundAbove, List.length_map] at hlen
  exact hlen.symm

theorem Tracked.of_none (h : Matching.Settled patterns q) (hrec : q.recursion = none) :
    Tracked T patterns q := by
  refine ⟨h, ?_⟩
  rw [hrec, kept, Option.elim_none, foundAbove, List.map_replicate]
  exact marks_none _ _

theorem Tracked.congr (h : Tracked T patterns q) (hinclude : q'.include_ = q.include_)
    (hpositions : q'.lastIncludePositions = q.lastIncludePositions)
    (hmatches : q'.lastIncludeMatches = q.lastIncludeMatches) (hcalls : q'.calls = q.calls)
    (hrec : q'.recursion = q.recursion) : Tracked T patterns q' := by
  refine ⟨Matching.Settled.aboutMatches.congr q q' h.toSettled hinclude hpositions hmatches hcalls,
    ?_⟩
  rw [hrec]
  exact h.above

/-- **A match finds patterns in the name.** -/
theorem Tracked.of_matchInclude {aResumeOnNoMatch : Bool} (h : Tracked T patterns q) (hT : T aText)
    (hmatch : q.matchInclude aText aResumeOnNoMatch = some q') : Matched T patterns q' := by
  have hsettled := (h.toSettled.of_matchInclude hmatch).1
  have habove := h.above
  have hpatterns := h.patterns_eq
  subst hpatterns
  rw [Matching.SearchQuery.matchInclude, h.resetPositions] at hmatch
  obtain ⟨r, hr, rfl⟩ := Option.map_eq_some_iff.mp hmatch
  rcases matchFrom_placed [] 0 hr with ⟨rs, rfl, hplaced⟩ | ⟨-, rfl⟩
  · refine ⟨⟨hsettled, habove⟩, ?_, ?_⟩
    · have hfound := foundIn_of_placed hplaced
      rw [List.nil_append, hfound, Marks, List.forall₂_map_right_iff, List.forall₂_same]
      exact fun p _ hp => ⟨aText, hT, hp⟩
    · rw [Nat.zero_add, List.nil_append, foundIn, List.countP_map]
      rfl
  · refine ⟨⟨hsettled, habove⟩, ?_, ?_⟩
    · simp only [foundIn, List.map_replicate, List.length_nil, Nat.zero_add]
      exact marks_none _ _
    · refine (List.countP_eq_zero.mpr fun b hb => ?_).symm
      rw [foundIn, List.map_replicate] at hb
      rw [List.eq_of_mem_replicate hb]
      decide

/-- **What is complete has been found.** -/
theorem Matched.complete (h : Matched T patterns q) (hcomplete : q.positionsComplete = true) :
    ∀ p ∈ patterns, FoundIn T p := by
  rw [Matching.SearchQuery.positionsComplete, Bool.or_eq_true, beq_iff_eq, h.count,
    StringSearch.count, h.patterns_eq] at hcomplete
  rcases hcomplete with hall | hrec
  · refine h.last.all ?_
    rw [List.Forall₂.length_eq h.last, List.countP_eq_length] at hall
    rw [List.all_eq_true]
    exact hall
  · cases hr : q.recursion with
    | none =>
      rw [hr] at hrec
      cases hrec
    | some r =>
      have habove := h.above
      have hlen := h.length_kept
      rw [hr, kept, Option.elim_some] at habove hlen
      rw [hr, Option.any_some, completes_eq r _ (hlen.trans h.length.symm)] at hrec
      exact (habove.or h.last).all hrec

/-! ## What a search finds -/

/-- What is true of the results and the query: when there is a result, all patterns have been
    found. -/
structure Searched (T : Str → Prop) (patterns : List StringSearch.Pattern) (s : SearchState) :
    Prop where
  tracked : Tracked T patterns s.2
  found : s.1 ≠ [] → ∀ p ∈ patterns, FoundIn T p

theorem Searched.addResult {item : ShareDirectory ⊕ ShareFile} (h : Searched T patterns s)
    (hfound : ∀ p ∈ patterns, FoundIn T p) (hs' : addResult u item aName aLevel s = some s') :
    Searched T patterns s' ∧ s'.2 = s.2 := by
  obtain ⟨positions, -, rfl⟩ := Option.map_eq_some_iff.mp hs'
  exact ⟨⟨h.tracked, fun _ => hfound⟩, rfl⟩

theorem Tracked.hasExt (h : Tracked T patterns q) (name : Str) :
    Tracked T patterns (q.hasExt name).2 := by
  rw [Matching.SearchQuery.hasExt]
  split
  · exact h
  · dsimp only
    split
    · exact h
    · exact h.congr rfl rfl rfl rfl rfl

theorem matchesFileLower_spec {aSize aDate : Int} {r : Bool × Matching.SearchQuery}
    (h : Tracked T patterns q)
    (hT : T aName) (hr : q.matchesFileLower u aName aSize aDate = some r) :
    Tracked T patterns r.2 ∧ (r.1 = true → ∀ p ∈ patterns, FoundIn T p) := by
  rw [Matching.SearchQuery.matchesFileLower] at hr
  split at hr
  · obtain rfl := Option.some.inj hr
    exact ⟨h, fun hr => (by cases hr)⟩
  · obtain ⟨exact, -, hr⟩ := Option.bind_eq_some_iff.mp hr
    split at hr
    · obtain ⟨q₁, hq₁, hr⟩ := Option.bind_eq_some_iff.mp hr
      have hmatched := h.of_matchInclude hT hq₁
      split at hr
      · next hcomplete =>
        have hall := hmatched.complete hcomplete
        have hext := hmatched.toTracked.hasExt aName
        rw [Matching.SearchQuery.checkFile] at hr
        split at hr
        · obtain ⟨excluded, -, rfl⟩ := Option.map_eq_some_iff.mp hr
          exact ⟨hext, fun _ => hall⟩
        · obtain rfl := Option.some.inj hr
          exact ⟨hext, fun _ => hall⟩
      · obtain rfl := Option.some.inj hr
        exact ⟨hmatched.toTracked, fun hr => (by cases hr)⟩
    · obtain rfl := Option.some.inj hr
      exact ⟨h, fun hr => (by cases hr)⟩

/-- **The loop over the files.** -/
theorem matchFiles_spec {files : List ShareFile} (h : Searched T patterns s)
    (hT : ∀ f ∈ files, T f.name.getLower) (hs' : matchFiles u aLevel files s = some s') :
    Searched T patterns s' := by
  induction files generalizing s with
  | nil =>
    obtain rfl := Option.some.inj hs'
    exact h
  | cons f files ih =>
    rw [matchFiles] at hs'
    obtain ⟨r, hr, hs'⟩ := Option.bind_eq_some_iff.mp hs'
    obtain ⟨htracked, hfound⟩ := matchesFileLower_spec h.tracked (hT f List.mem_cons_self) hr
    have hrest := fun g hg => hT g (List.mem_cons_of_mem f hg)
    have hkeep : Searched T patterns (s.1, r.2) := ⟨htracked, h.found⟩
    split at hs'
    · next hmatches =>
      obtain ⟨s₁, hs₁, hs'⟩ := Option.bind_eq_some_iff.mp hs'
      have h₁ := (hkeep.addResult (hfound hmatches) hs₁).1
      split at hs'
      · obtain rfl := Option.some.inj hs'
        exact h₁
      · exact ih h₁ hrest hs'
    · exact ih hkeep hrest hs'

/-- **What is found in the name of a directory** is kept for what is below it. -/
theorem matchDirectory_spec (hmatched : Matched T patterns s.2)
    (hfound : s.1 ≠ [] → ∀ p ∈ patterns, FoundIn T p)
    (hs' : matchDirectory u d aLevel s = some s') : Searched T patterns s' := by
  rw [matchDirectory] at hs'
  obtain ⟨s₁, hs₁, hs'⟩ := Option.bind_eq_some_iff.mp hs'
  have hself : Searched T patterns s := ⟨hmatched.toTracked, hfound⟩
  obtain ⟨h₁, hquery⟩ : Searched T patterns s₁ ∧ s₁.2 = s.2 := by
    split at hs₁
    · next hfull => exact hself.addResult (hmatched.complete hfull.2.1) hs₁
    · obtain rfl := Option.some.inj hs₁
      exact ⟨hself, rfl⟩
  split at hs'
  · obtain ⟨r, hr, rfl⟩ := Option.map_eq_some_iff.mp hs'
    rw [hquery] at hr
    refine ⟨⟨Matching.Settled.aboutMatches.setRecursion h₁.tracked.toSettled _, ?_⟩, h₁.found⟩
    have hkept := foundAbove_newRecursion hmatched.toSettled hmatched.length_kept hr
    rw [kept, Option.elim_some, hkept]
    exact hmatched.last.or hmatched.above
  · obtain rfl := Option.some.inj hs'
    exact h₁

theorem kept_increase (n : Nat) (recursion : Option Recursion) (aLen : Nat) :
    kept n (recursion.map (·.increase aLen)) = kept n recursion := by
  cases recursion with
  | none => rfl
  | some r => rfl

theorem searchOwn_spec (h : Searched T patterns s) (hdir : T d.getVirtualNameLower)
    (hfiles : ∀ f ∈ d.files, T f.name.getLower) (hs' : searchOwn u d aLevel s = some s') :
    Searched T patterns s' := by
  rw [searchOwn] at hs'
  obtain ⟨r, hr, hs'⟩ := Option.bind_eq_some_iff.mp hs'
  obtain ⟨s₁, hs₁, hs'⟩ := Option.bind_eq_some_iff.mp hs'
  have h₁ : Searched T patterns s₁ := by
    rw [Matching.SearchQuery.matchesAnyDirectoryLower] at hr
    split at hr
    · obtain rfl := Option.some.inj hr
      obtain rfl := Option.some.inj hs₁
      exact ⟨h.tracked, h.found⟩
    · obtain ⟨q₁, hq₁, rfl⟩ := Option.map_eq_some_iff.mp hr
      have hmatched := h.tracked.of_matchInclude hdir hq₁
      split at hs₁
      · exact matchDirectory_spec (s := (s.1, q₁)) hmatched h.found hs₁
      · obtain rfl := Option.some.inj hs₁
        exact ⟨hmatched.toTracked, h.found⟩
  have h₂ : Searched T patterns (s₁.1, { s₁.2 with
      recursion := s₁.2.recursion.map (·.increase d.getVirtualNameLower.length) }) := by
    refine ⟨⟨Matching.Settled.aboutMatches.setRecursion h₁.tracked.toSettled _, ?_⟩, h₁.found⟩
    rw [kept_increase]
    exact h₁.tracked.above
  dsimp only at hs'
  split at hs'
  · exact matchFiles_spec h₂ hfiles hs'
  · obtain rfl := Option.some.inj hs'
    exact h₂

/-- The names of what is in a directory, and its own. -/
inductive NameIn : ShareDirectory → Str → Prop
  | directory (d : ShareDirectory) : NameIn d d.getVirtualNameLower
  | file {d : ShareDirectory} {f : ShareFile} (mem : f ∈ d.files) : NameIn d f.name.getLower
  | inside {d c : ShareDirectory} {name : Str} (mem : c ∈ d.directories) (name_in : NameIn c name) :
    NameIn d name

mutual

/-- **A search that has a result has found all patterns** in names of the directory. -/
theorem search_found : (d : ShareDirectory) → ∀ {aLevel : Int} {s s' : SearchState},
    (∀ name, NameIn d name → T name) → Searched T patterns s → search u d aLevel s = some s' →
    Searched T patterns s'
  | mk realName virtualName lastWrite files directories, aLevel, s, s', hT, h, hs' => by
    rw [search] at hs'
    obtain ⟨excluded, -, hs'⟩ := Option.bind_eq_some_iff.mp hs'
    split at hs'
    · obtain rfl := Option.some.inj hs'
      exact h
    · obtain ⟨s₂, hs₂, rfl⟩ := Option.map_eq_some_iff.mp hs'
      obtain ⟨s₁, hs₁, hs₂⟩ := Option.bind_eq_some_iff.mp hs₂
      have h₁ := searchOwn_spec h (hT _ (.directory _)) (fun f hf => hT _ (.file hf)) hs₁
      have h₂ := searchAll_found directories
        (fun c hc name hname => hT name (.inside hc hname)) h₁ hs₂
      exact ⟨⟨Matching.Settled.aboutMatches.setRecursion h₂.tracked.toSettled _, h.tracked.above⟩,
        h₂.found⟩

theorem searchAll_found : (directories : List ShareDirectory) → ∀ {aLevel : Int}
    {s s' : SearchState},
    (∀ c ∈ directories, ∀ name, NameIn c name → T name) → Searched T patterns s →
    searchAll u directories aLevel s = some s' → Searched T patterns s'
  | [], aLevel, s, s', _, h, hs' => by
    obtain rfl := Option.some.inj hs'
    exact h
  | d :: directories, aLevel, s, s', hT, h, hs' => by
    rw [searchAll] at hs'
    obtain ⟨s₁, hs₁, hs'⟩ := Option.bind_eq_some_iff.mp hs'
    have h₁ := search_found d (hT d List.mem_cons_self) h hs₁
    exact searchAll_found directories (fun c hc => hT c (List.mem_cons_of_mem d hc)) h₁ hs'

end

end ShareDirectory

/-! ## The filter -/

namespace ShareTree

open BloomFilter ShareDirectory

variable {u u₀ : OutOfRange} {locale : Locale} {bloom : ShareBloom} {names : List Str} {n : Nat}
  {q q₀ : Matching.SearchQuery} {s : SearchState} {roots : List ShareDirectory}
    {ops : List Operation}

/-- The loop of `matchBloom`. -/
def matchPatterns (bloom : ShareBloom) : List StringSearch.Pattern → Option Bool
  | [] => some true
  | p :: patterns => (bloom.match_ p.pattern).bind fun r =>
    if r then matchPatterns bloom patterns else some false

def matchBloom (bloom : ShareBloom) (aSearch : Matching.SearchQuery) : Option Bool :=
  matchPatterns bloom aSearch.include_.patterns

theorem matchPatterns_spec (hsize : 0 < bloom.table.length) (patterns : List StringSearch.Pattern) :
    ∃ r, matchPatterns bloom patterns = some r ∧
      (r = true ↔ ∀ p ∈ patterns, ∀ w ∈ windows 5 p.pattern, bloom.HasWindow w) := by
  induction patterns with
  | nil => exact ⟨true, rfl, by simp⟩
  | cons p patterns ih =>
    obtain ⟨r, hr, hiff⟩ := match_spec hsize p.pattern
    obtain ⟨r', hr', hiff'⟩ := ih
    rw [matchPatterns, hr, Option.bind_some, List.forall_mem_cons, ← hiff, ← hiff']
    cases r with
    | true => exact ⟨r', hr', by simp⟩
    | false => exact ⟨false, rfl, by simp⟩

/-- A window of a pattern that a C string does not have. -/
def IsHidden (pattern w : Str) : Prop :=
    w ∈ windows 5 pattern ∧ w ∉ windows 5 (Pattern.cstr pattern)

/-- **A search that has a result is let through** exactly when the bits of the windows are set that
    the patterns have from their first null byte on. -/
theorem matchBloom_iff (hn : 0 < n) (hbuilt : Built 5 n bloom names)
    (hnames : ∀ d ∈ roots, ∀ name, NameIn d name → name ∈ names)
    (hprepared : Prepared q₀) (hrun : run locale u₀ ops q₀ = some q) (hrec : q.recursion = none)
    (hsearch : searchAll u roots 0 ([], q) = some s) (hfound : s.1 ≠ []) :
    ∃ r, matchBloom bloom q = some r ∧
      (r = true ↔ ∀ p ∈ q.include_.patterns, ∀ w, IsHidden p.pattern w → bloom.HasWindow w) := by
  obtain ⟨r, hr, hiff⟩ := matchPatterns_spec (by rwa [hbuilt.length hn]) q.include_.patterns
  refine ⟨r, hr, hiff.trans (forall₂_congr fun p hp => ?_)⟩
  have hsettled := hprepared.ready.toSettled.run hrun
  have hpatterns := hsettled.patterns_eq
  have hsearched : Searched (· ∈ names) q.include_.patterns ([], q) :=
    ⟨.of_none (hpatterns ▸ hsettled) hrec, fun h => absurd rfl h⟩
  obtain ⟨name, hname, hdetected⟩ :=
    (searchAll_found roots (fun d hd name hin => hnames d hd name hin) hsearched hsearch).found
    hfound
      p hp
  -- what a C string has of the pattern is in a name of the share
  have hin : Pattern.cstr p.pattern <:+: name := by
    rw [detected] at hdetected
    obtain ⟨pos, hpos⟩ := Option.isSome_iff_exists.mp hdetected
    have hfoundAt := Pattern.found_of_matchLower (Option.join_eq_some_iff.mp hpos)
    exact (Pattern.prefix_of_matchesAt hfoundAt.compared).isInfix.trans
      (List.drop_suffix pos name).isInfix
  constructor
  · exact fun h w hw => h w hw.1
  · intro h w hw
    by_cases hc : w ∈ windows 5 (Pattern.cstr p.pattern)
    · exact hbuilt.hasWindow hn name hname w (windows_subset hin w hc)
    · exact h w ⟨hw, hc⟩

/-- An empty directory. -/
def emptyDirectory (name : Str) : ShareDirectory := .mk ⟨none, name⟩ none 0 [] []

theorem nameIn_emptyDirectory {name name' : Str} (h : NameIn (emptyDirectory name) name') :
    name' = name := by
  cases h with
  | directory => rfl
  | file hmem => exact absurd hmem (by simp [emptyDirectory, files])
  | inside hmem _ => exact absurd hmem (by simp [emptyDirectory, directories])

/-- The term `movie` and the directory `movies`. -/
theorem matchBloom_substring :
    let q : Matching.SearchQuery :=
      { include_ := includeOf ⟨id, fun s _ => s⟩ [str "movie"], lastIncludePositions := [none] }
    ∃ bloom r, Built 5 (2 ^ 20) bloom [str "movies"] ∧ matchBloom bloom q = some r ∧
      (r = true ↔ ∀ p ∈ q.include_.patterns, ∀ w, IsHidden p.pattern w → bloom.HasWindow w) := by
  intro q
  have hfound : (searchAll ⟨some 0, some []⟩ [emptyDirectory (str "movies")] 0 ([], q)).map
    (·.1.length) =
      some 1 := by decide +kernel
  obtain ⟨s, hs, hlen⟩ := Option.map_eq_some_iff.mp hfound
  have hsize : (new 5 (2 ^ 20)).table.length = 2 ^ 20 := List.length_replicate ..
  obtain ⟨bloom, hadd, -⟩ := add_spec (b := new 5 (2 ^ 20)) (by rw [hsize]; decide) (str "movies")
  have hbuilt : Built 5 (2 ^ 20) bloom [str "movies"] := .add .new hadd
  obtain ⟨r, hr, hiff⟩ := @matchBloom_iff ⟨some 0, some []⟩ ⟨some 0, some []⟩
    ⟨id, fun s _ => s⟩ bloom
    [str "movies"] (2 ^ 20) q q s [emptyDirectory (str "movies")] [] (by decide) hbuilt
    (by
      intro d hd name hname
      obtain rfl := List.mem_singleton.mp hd
      rw [nameIn_emptyDirectory hname]
      exact List.mem_singleton.mpr rfl)
    ⟨rfl, rfl, rfl⟩ rfl rfl hs
    (by
      intro h
      rw [h] at hlen
      cases hlen)
  exact ⟨bloom, r, hbuilt, hr, hiff⟩

/-- The term `ab\0cde` is found in the directory `ab in ch`, and the filter hides it. -/
theorem matchBloom_null_byte : ¬ ∀ (n : Nat) (bloom : ShareBloom) (names : List Str)
    (roots : List ShareDirectory) (u : OutOfRange) (q : Matching.SearchQuery) (s : SearchState),
    0 < n → Built 5 n bloom names → (∀ d ∈ roots, ∀ name, NameIn d name → name ∈ names) →
    Prepared q → q.recursion = none → searchAll u roots 0 ([], q) = some s → s.1 ≠ [] →
    matchBloom bloom q = some true := by
  intro h
  let q : Matching.SearchQuery :=
    { include_ := includeOf ⟨id, fun s _ => s⟩ [[0x61, 0x62, 0, 0x63, 0x64, 0x65]]
      lastIncludePositions := [none] }
  have hfound : (searchAll ⟨some 0, some []⟩ [emptyDirectory (str "ab in ch")] 0 ([], q)).map
      (·.1.length) = some 1 := by decide +kernel
  obtain ⟨s, hs, hlen⟩ := Option.map_eq_some_iff.mp hfound
  have hsize : (new 5 (2 ^ 20)).table.length = 2 ^ 20 := List.length_replicate ..
  have hpos : 0 < (new 5 (2 ^ 20)).table.length := by
    rw [hsize]
    decide
  obtain ⟨bloom, hadd, hlength, hhas⟩ := add_spec hpos (str "ab in ch")
  have hmatch := h (2 ^ 20) bloom [str "ab in ch"] [emptyDirectory (str "ab in ch")]
    ⟨some 0, some []⟩ q s
    (by decide) (.add .new hadd)
    (by
      intro d hd name hname
      obtain rfl := List.mem_singleton.mp hd
      rw [nameIn_emptyDirectory hname]
      exact List.mem_singleton.mpr rfl)
    ⟨rfl, rfl, rfl⟩ rfl hs
    (by
      intro h
      rw [h] at hlen
      cases hlen)
  obtain ⟨r, hr, hiff⟩ := matchPatterns_spec (hlength ▸ hpos) q.include_.patterns
  obtain rfl := Option.some.inj (hr.symm.trans hmatch)
  -- the window behind the first byte
  have hset := hiff.mp rfl ⟨[0x61, 0x62, 0, 0x63, 0x64, 0x65], 6, _⟩ List.mem_cons_self
    [0x62, 0, 0x63, 0x64, 0x65] (by decide +kernel)
  rw [HasWindow, hhas, hlength, hsize] at hset
  rcases hset with hset | ⟨w, hw, hset⟩
  · rw [Lib.Has, new, List.getElem?_replicate] at hset
    split at hset <;> cases hset
  · revert w
    decide +kernel

end ShareTree
end Airdcpp
