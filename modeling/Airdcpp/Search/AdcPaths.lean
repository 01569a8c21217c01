import Airdcpp.Search.MatchPositions

/-!
# `Search/AdcPaths` — matching the components of a path

What is found in a component is kept in a `Recursion` that is made anew from the one before, and
merged with it from the first position on that only the one before has. Positions and points aside,
it has a position for the patterns that were found in some component so far (`merge_found`,
`Tracks`).

So a path matches when each include pattern is found in some component (`matchesAdcPath_eq`), for
any patterns; with patterns that are found where they occur, when each occurs in some component.
-/

namespace Airdcpp
namespace Matching

open StringSearch

variable {locale : Locale} {u : OutOfRange} {patterns : List StringSearch.Pattern}
  {q q' q₀ : SearchQuery} {aText aName : Str} {sl : List Str} {b : Bool}

/-! ## What is found -/

/-- The pattern is found in the text. -/
def detected (p : StringSearch.Pattern) (aText : Str) : Bool := (p.matchLower aText 0).join.isSome

/-- The positions there are. -/
def foundIn (results_ : ResultList) : List Bool := results_.map Option.isSome

/-- The positions there are in the names above. -/
def foundAbove (positions : ResultPointsList) : List Bool := positions.map (·.1.isSome)

theorem foundIn_of_placed {rs : ResultList}
    (h : List.Forall₂ (fun p r => ∃ prev fuel, place p aText prev fuel none = some r) patterns rs) :
    foundIn rs = patterns.map (detected · aText) := by
  induction h with
  | nil => rfl
  | @cons p r ps rs hp _ ih =>
    obtain ⟨prev, fuel, hplace⟩ := hp
    obtain ⟨r', hr', hiff⟩ := matchLower_of_place hplace
    rw [foundIn, List.map_cons, List.map_cons, detected, hr', Option.join_some,
      Bool.eq_iff_iff.mpr hiff]
    exact congrArg _ ih

/-- **A match in resume mode has a position for each pattern that is found.** -/
theorem Settled.found (h : Settled patterns q) (hmatch : q.matchInclude aText true = some q') :
    foundIn q'.lastIncludePositions = patterns.map (detected · aText) ∧
      q'.lastIncludeMatches = patterns.countP (detected · aText) ∧ q'.recursion = q.recursion := by
  have hpatterns := h.patterns_eq
  subst hpatterns
  rw [SearchQuery.matchInclude, h.resetPositions] at hmatch
  obtain ⟨r, hr, rfl⟩ := Option.map_eq_some_iff.mp hmatch
  obtain ⟨rs, rfl, hplaced⟩ := (matchFrom_placed [] 0 hr).resolve_right fun h => (by cases h.1)
  have hfound := foundIn_of_placed hplaced
  refine ⟨hfound, ?_, rfl⟩
  have hcount : rs.countP Option.isSome = (foundIn rs).countP id := by
    rw [foundIn, List.countP_map]
    rfl
  rw [Nat.zero_add, hcount, hfound, List.countP_map]
  rfl

/-! ## Merging -/

/-- Before the start of a merge, there is nothing that only the parent has. -/
theorem found_before_start {mergeTo old : ResultPointsList} {j : Nat} (hj : j < mergeTo.length)
    (hj' : j < old.length) (hbefore : ∀ start ∈ Recursion.startPos mergeTo old, j < start) :
    mergeTo[j].1.isSome = (mergeTo[j].1.isSome || old[j].1.isSome) := by
  have hnot : ((mergeTo.getD j default).1.isNone && (old.getD j default).1.isSome) = false := by
    cases hstart : Recursion.startPos mergeTo old with
    | none =>
      have hall := List.find?_eq_none.mp hstart j (List.mem_range.mpr hj')
      rwa [Bool.not_eq_true] at hall
    | some start =>
      have hlt := hbefore start hstart
      rw [Recursion.startPos, List.range_eq_range', List.find?_range'_eq_some] at hstart
      have hfirst := hstart.2.2 j (Nat.zero_le j) hlt
      rwa [Bool.not_eq_true'] at hfirst
  rw [List.getD_eq_getElem?_getD, List.getD_eq_getElem?_getD, List.getElem?_eq_getElem hj,
    List.getElem?_eq_getElem hj', Option.getD_some, Option.getD_some] at hnot
  cases hm : mergeTo[j].1 with
  | some pos => rfl
  | none =>
    rw [hm] at hnot
    exact hnot.symm

/-- **A merge has the positions that either has.** -/
theorem merge_found {mergeTo : ResultPointsList} {parent : Recursion}
    (hlen : mergeTo.length = parent.positions.length) :
    foundAbove (Recursion.merge mergeTo parent).1 =
      List.zipWith (· || ·) (foundAbove mergeTo) (foundAbove parent.positions) := by
  rw [Recursion.merge]
  cases hstart : Recursion.startPos mergeTo parent.positions with
  | none =>
    refine List.ext_getElem (by simp [foundAbove, hlen]) fun j hj hj' => ?_
    simp only [foundAbove, Option.elim_none, List.getElem_map, List.getElem_zipWith]
    refine found_before_start (by simpa [foundAbove] using hj)
      (by simpa [foundAbove, hlen] using hj) ?_
    rw [hstart]
    exact fun start h => (by cases h)
  | some start =>
    refine List.ext_getElem (by simp [foundAbove, hlen]) fun j hj hj' => ?_
    have hm : j < mergeTo.length := by simpa [foundAbove] using hj
    have hold : j < parent.positions.length := by rwa [← hlen]
    simp only [foundAbove, Option.elim_some, List.getElem_map, List.getElem_zipWith,
      List.getElem_mapIdx]
    by_cases hle : start ≤ j
    · rw [if_pos ⟨hle, hold⟩, List.getD_eq_getElem?_getD, List.getElem?_eq_getElem hold,
        Option.getD_some]
      cases mergeTo[j].1 <;> rfl
    · rw [if_neg fun h => hle h.1]
      refine found_before_start hm hold fun start' h => ?_
      rw [hstart, Option.mem_def, Option.some.injEq] at h
      omega

/-! ## The components -/

/-- The positions that are kept from the components so far. -/
def kept (n : Nat) (recursion : Option Recursion) : ResultPointsList :=
  recursion.elim (List.replicate n (none, 0)) (·.positions)

/-- Positions are kept for the patterns that were found in one of the texts. -/
def Tracks (patterns : List StringSearch.Pattern) (done : List Str) (recursion : Option Recursion) :
    Prop :=
  foundAbove (kept patterns.length recursion) = patterns.map fun p => done.any (detected p)

theorem tracks_none (patterns : List StringSearch.Pattern) : Tracks patterns [] none := by
  simp [Tracks, kept, foundAbove]

theorem Tracks.increase {done : List Str} {recursion : Option Recursion}
    (h : Tracks patterns done recursion)
    (n : Nat) : Tracks patterns done (recursion.map (·.increase n)) := by
  cases recursion with
  | none => exact h
  | some r => exact h

/-- Points stand at the positions. -/
theorem foundAbove_toPointList (h : Settled patterns q) {ret : ResultPointsList}
    (hret : q.toPointList u aName = some ret) :
    ret.length = patterns.length ∧ foundAbove ret = foundIn q.lastIncludePositions := by
  have hpoints := Lib.forall₂_of_mapM hret
  have hlen : q.include_.patterns.length = q.lastIncludePositions.length := by
    rw [h.patterns_eq, h.length]
  refine ⟨?_, ?_⟩
  · rw [← hpoints.length_eq, List.length_zip, ← hlen, Nat.min_self, h.patterns_eq]
  · have hsame : List.Forall₂ (fun (i : StringSearch.Pattern × Option Nat) (x : Option Nat × Int) =>
        i.2.isSome = x.1.isSome) (q.include_.patterns.zip q.lastIncludePositions) ret := by
      refine hpoints.imp fun i x hx => ?_
      cases hi : i.2 with
      | none =>
        rw [hi] at hx
        obtain rfl := Option.some.inj hx
        rfl
      | some pos =>
        rw [hi] at hx
        obtain ⟨points, -, rfl⟩ := Option.map_eq_some_iff.mp hx
        rfl
    have heq : (q.include_.patterns.zip q.lastIncludePositions).map (fun i => i.2.isSome) =
        foundAbove ret := by
      rw [foundAbove, ← List.forall₂_eq_eq_eq, List.forall₂_map_left_iff,
        List.forall₂_map_right_iff]
      exact hsame
    have hsnd := List.map_snd_zip (le_of_eq hlen.symm)
    rw [← heq, foundIn]
    conv_rhs => rw [← hsnd]
    rw [List.map_map]
    rfl

/-- **What a new recursion keeps** is what is found in the name and what the one before has. -/
theorem foundAbove_newRecursion {r : Recursion} (h : Settled patterns q)
    (hlen : (kept patterns.length q.recursion).length = patterns.length)
    (hr : q.newRecursion u aName = some r) :
    foundAbove r.positions = List.zipWith (· || ·) (foundIn q.lastIncludePositions)
      (foundAbove (kept patterns.length q.recursion)) := by
  obtain ⟨ret, hret, rfl⟩ := Option.map_eq_some_iff.mp hr
  obtain ⟨hretlen, hpoints⟩ := foundAbove_toPointList h hret
  rw [← hpoints]
  cases hrec : q.recursion with
  | none =>
    have hnone : foundAbove (List.replicate patterns.length (none, 0)) =
        List.replicate (foundAbove ret).length false := by
      simp [foundAbove, hretlen]
    rw [Option.elim_none, kept, Option.elim_none, hnone]
    refine List.ext_getElem (by simp) fun j hj hj' => ?_
    simp
  | some parent =>
    rw [hrec, kept, Option.elim_some] at hlen
    refine (congrArg foundAbove ?_).trans (merge_found (hretlen.trans hlen.symm))
    rw [Option.elim_some]
    dsimp only
    split <;> rfl

theorem Tracks.length_kept {done : List Str} {recursion : Option Recursion}
    (h : Tracks patterns done recursion) : (kept patterns.length recursion).length =
    patterns.length := by
  have hlen := congrArg List.length h
  rwa [foundAbove, List.length_map, List.length_map] at hlen

theorem tracks_newRecursion {done : List Str} {r : Recursion} (h : Settled patterns q)
    (htracks : Tracks patterns done q.recursion)
    (hfound : foundIn q.lastIncludePositions = patterns.map (detected · aText))
    (hr : q.newRecursion u aName = some r) : Tracks patterns (done ++ [aText]) (some r) := by
  have hkept := foundAbove_newRecursion h htracks.length_kept hr
  rw [htracks, hfound, List.zipWith_map, List.zipWith_self] at hkept
  rw [Tracks, kept, Option.elim_some, hkept]
  refine List.map_congr_left fun p _ => ?_
  rw [List.any_append, List.any_cons, List.any_nil, Bool.or_false, Bool.or_comm]

/-- A text in which nothing is found changes nothing. -/
theorem Tracks.of_count_zero {done : List Str} {recursion : Option Recursion}
    (h : Tracks patterns done recursion) (hzero : patterns.countP (detected · aText) = 0) :
    Tracks patterns (done ++ [aText]) recursion := by
  rw [Tracks, h]
  refine List.map_congr_left fun p hp => ?_
  have hnot := List.countP_eq_zero.mp hzero p hp
  rw [Bool.not_eq_true] at hnot
  rw [List.any_append, List.any_cons, List.any_nil, hnot, Bool.or_false, Bool.or_false]

/-- What is complete with the positions of the last text. -/
theorem completes_eq (r : Recursion) (results_ : ResultList)
    (hlen : r.positions.length = results_.length) :
    r.completes results_ = (List.zipWith (· || ·) (foundAbove r.positions) (foundIn results_)).all
      id := by
  have hmap : (r.positions.zipIdx.map fun i => i.1.1.isSome || (results_.getD i.2 none).isSome) =
      List.zipWith (· || ·) (foundAbove r.positions) (foundIn results_) := by
    refine List.ext_getElem (by simp [foundAbove, foundIn, hlen]) fun j hj hj' => ?_
    have hjr : j < results_.length := by
      rw [List.length_map, List.length_zipIdx] at hj
      rwa [← hlen]
    simp [foundAbove, foundIn, List.getD_eq_getElem?_getD, List.getElem?_eq_getElem hjr]
  rw [← hmap, List.all_map]
  rfl

/-- **What is complete after the last text** are the patterns that were found in some text. -/
theorem positionsComplete_eq {done : List Str} (h : Settled patterns q)
    (htracks : Tracks patterns done q.recursion)
    (hfound : foundIn q.lastIncludePositions = patterns.map (detected · aText))
    (hcount : q.lastIncludeMatches = patterns.countP (detected · aText)) :
    q.positionsComplete = patterns.all fun p => (done ++ [aText]).any (detected p) := by
  have hall : (q.lastIncludeMatches == q.include_.count) = patterns.all (detected · aText) := by
    rw [hcount, count, h.patterns_eq, Bool.eq_iff_iff, beq_iff_eq, List.countP_eq_length,
      List.all_eq_true]
  have hsplit : ∀ p, (done ++ [aText]).any (detected p) =
      (done.any (detected p) || detected p aText) := by
    intro p
    rw [List.any_append, List.any_cons, List.any_nil, Bool.or_false]
  rw [SearchQuery.positionsComplete, hall]
  simp only [hsplit]
  cases hrec : q.recursion with
  | none =>
    -- nothing has been found before
    rw [hrec, Tracks] at htracks
    have hnot : ∀ p ∈ patterns, done.any (detected p) = false := by
      intro p hp
      have hmem := List.mem_map_of_mem (f := fun p => done.any (detected p)) hp
      rw [← htracks, kept, Option.elim_none, foundAbove, List.map_replicate] at hmem
      exact List.eq_of_mem_replicate hmem
    rw [Option.any_none, Bool.or_false, Bool.eq_iff_iff, List.all_eq_true, List.all_eq_true]
    exact forall₂_congr fun p hp => by rw [hnot p hp, Bool.false_or]
  | some r =>
    rw [hrec, Tracks, kept, Option.elim_some] at htracks
    have hlen : r.positions.length = q.lastIncludePositions.length := by
      have := congrArg List.length htracks
      rw [foundAbove, List.length_map, List.length_map] at this
      rw [h.length, this]
    rw [Option.any_some, completes_eq r _ hlen, htracks, hfound, List.zipWith_map,
      List.zipWith_self, List.all_map]
    rw [Bool.eq_iff_iff, Bool.or_eq_true]
    simp only [List.all_eq_true, Function.comp, id, Bool.or_eq_true]
    constructor
    · rintro (hlast | hboth) p hp
      · exact .inr (hlast p hp)
      · exact hboth p hp
    · exact fun hboth => .inr hboth

/-- **The loop over the components.** -/
theorem matchComponents_complete {done : List Str} (h : Settled patterns q)
    (htracks : Tracks patterns done q.recursion) (hne : sl ≠ [])
    (hq' : q.matchComponents locale u sl = some q') :
    q'.positionsComplete =
      patterns.all fun p => (done ++ sl.map (Text.toLower locale)).any (detected p) := by
  induction sl generalizing q done with
  | nil => exact absurd rfl hne
  | cons s sl ih =>
    cases sl with
    | nil =>
      have hmatch : q.matchInclude (Text.toLower locale s) true = some q' := hq'
      obtain ⟨hfound, hcount, hrec⟩ := h.found hmatch
      rw [← hrec] at htracks
      exact positionsComplete_eq (h.of_matchInclude hmatch).1 htracks hfound hcount
    | cons s' sl =>
      rw [matchComponents_cons] at hq'
      obtain ⟨q₂, hq₂, hq'⟩ := Option.bind_eq_some_iff.mp hq'
      obtain ⟨q₁, hq₁, hq₂⟩ := Option.bind_eq_some_iff.mp hq₂
      obtain ⟨hfound, hcount, hrec⟩ := h.found hq₁
      have h₁ := (h.of_matchInclude hq₁).1
      rw [← hrec] at htracks
      obtain ⟨h₂, htracks₂⟩ : Settled patterns q₂ ∧
          Tracks patterns (done ++ [Text.toLower locale s]) q₂.recursion := by
        rw [SearchQuery.keepMatches] at hq₂
        split at hq₂
        · obtain ⟨r, hr, rfl⟩ := Option.map_eq_some_iff.mp hq₂
          exact ⟨Settled.aboutMatches.setRecursion h₁ _, tracks_newRecursion h₁ htracks hfound hr⟩
        · next hzero =>
          obtain rfl := Option.some.inj hq₂
          exact ⟨h₁, htracks.of_count_zero (by omega)⟩
      have hrest := ih (Settled.aboutMatches.setRecursion h₂ _) (htracks₂.increase s.length)
        (List.cons_ne_nil s' sl) hq'
      rwa [List.append_assoc] at hrest

/-- **A path matches when each pattern is found in some component**, whatever the patterns are. -/
theorem matchesAdcPath_eq {aPath : Str} (h : Settled patterns q) (hrec : q.recursion = none)
    (hne : SearchQuery.components aPath ≠ [])
    (hret : q.matchesAdcPath locale u aPath = some (b, q')) :
    b = patterns.all fun p =>
      (SearchQuery.components aPath).any fun s => detected p (Text.toLower locale s) := by
  rw [SearchQuery.matchesAdcPath, if_neg (by rwa [List.isEmpty_iff])] at hret
  obtain ⟨q₁, hq₁, hret⟩ := Option.map_eq_some_iff.mp hret
  obtain ⟨rfl, rfl⟩ := Prod.mk.inj hret
  have htracks : Tracks patterns [] q.recursion := by
    rw [hrec]
    exact tracks_none patterns
  rw [matchComponents_complete h htracks hne hq₁, List.nil_append]
  simp only [List.any_map, Function.comp_def]

/-! ## Paths that match -/

/-- **The loop returns** when the patterns are found in the components. -/
theorem isSome_matchComponents (hu : u.Total) (h : Settled patterns q)
    (hne : ∀ p ∈ patterns, p.pattern ≠ [])
    (hfinds : ∀ s ∈ sl, ∀ p ∈ patterns, FindsIn p (Text.toLower locale s)) :
    (q.matchComponents locale u sl).isSome = true := by
  induction sl generalizing q with
  | nil => rfl
  | cons s sl ih =>
    obtain ⟨c, -, -, -, hmatch⟩ := h.matchInclude hne (hfinds s List.mem_cons_self) true
    have h₁ := (h.of_matchInclude hmatch).1
    cases sl with
    | nil =>
      rw [SearchQuery.matchComponents, hmatch]
      rfl
    | cons s' sl =>
      rw [matchComponents_cons, hmatch, Option.bind_some]
      have hkeep : Keeps (Settled patterns) _ u.Total _ :=
        keeps_keepMatches Settled.aboutMatches h₁ s
      obtain ⟨q₂, hq₂⟩ := Option.isSome_iff_exists.mp (hkeep.isSome hu)
      rw [hq₂, Option.bind_some]
      exact ih (Settled.aboutMatches.setRecursion (hkeep.ready q₂ hq₂).1 _)
        fun s hs => hfinds s (List.mem_cons_of_mem _ hs)

/-- A pattern that is searchable, or too long for the text. -/
def SearchableIn (p : StringSearch.Pattern) (aText : Str) : Prop :=
  Pattern.Searchable p.pattern p.plen ∨ aText.length < p.plen ∧ aText.length < p.pattern.length

theorem findsIn_of_searchableIn {terms : List Str} {p : StringSearch.Pattern}
    (hp : p ∈ (includeOf locale terms).patterns) (h : SearchableIn p aText) : FindsIn p aText := by
  rcases h with hs | ⟨hplen, hpattern⟩
  · obtain ⟨s, hs', rfl⟩ := mem_includeOf hp
    exact findsIn_of_searchable hs' hs aText
  · intro start
    rw [Pattern.matchLower, if_pos (by omega)]
    cases hfind : find aText p.pattern start with
    | none => rfl
    | some i =>
      have hroom := find_add_le hfind
      omega

theorem detected_iff {p : StringSearch.Pattern} (h : FindsIn p aText) :
    detected p aText = true ↔ p.pattern <:+: aText := by
  rw [detected, h, Option.join_some]
  exact Pattern.find_isSome_iff

/-- **A path matches exactly when each include pattern occurs in some component**, for patterns that
    are searchable or too long for the components. -/
theorem matchesAdcPath_iff (locale : Locale) (terms : List Str) {u₀ : OutOfRange}
    {ops : List Operation}
    (hinclude : q₀.include_ = includeOf locale terms) (hprepared : Prepared q₀)
    (hrun : run locale u₀ ops q₀ = some q) (hrec : q.recursion = none) (hu : u.Total) {aPath : Str}
    (hne : SearchQuery.components aPath ≠ [])
    (hs : ∀ p ∈ (includeOf locale terms).patterns, ∀ s ∈ SearchQuery.components aPath,
      SearchableIn p (Text.toLower locale s)) :
    ∃ b q', q.matchesAdcPath locale u aPath = some (b, q') ∧
      (b = true ↔ ∀ p ∈ (includeOf locale terms).patterns, ∃ s ∈ SearchQuery.components aPath,
        p.pattern <:+: Text.toLower locale s) := by
  have hsettled := hprepared.ready.toSettled.run hrun
  rw [hinclude] at hsettled
  have hfinds : ∀ s ∈ SearchQuery.components aPath, ∀ p ∈ (includeOf locale terms).patterns,
      FindsIn p (Text.toLower locale s) :=
    fun s hs' p hp => findsIn_of_searchableIn hp (hs p hp s hs')
  have hpatterns : ∀ p ∈ (includeOf locale terms).patterns, p.pattern ≠ [] := by
    intro p hp
    obtain ⟨s, hs', rfl⟩ := mem_includeOf hp
    exact Pattern.toLower_ne_nil hs'
  obtain ⟨q', hq'⟩ := Option.isSome_iff_exists.mp
    (isSome_matchComponents hu hsettled hpatterns hfinds)
  have hret : q.matchesAdcPath locale u aPath = some (q'.positionsComplete, q') := by
    rw [SearchQuery.matchesAdcPath, if_neg (by rwa [List.isEmpty_iff]), hq']
    rfl
  refine ⟨_, q', hret, ?_⟩
  rw [matchesAdcPath_eq hsettled hrec hne hret, List.all_eq_true]
  refine forall₂_congr fun p hp => ?_
  rw [List.any_eq_true]
  exact exists_congr fun s => and_congr_right fun hs' => detected_iff (hfinds s hs' p hp)

/-- The terms `b` and `a` in the path `a/b`. -/
theorem matchesAdcPath_two :
    let locale : Locale := ⟨id, fun s _ => s⟩
    let q : SearchQuery :=
      { include_ := includeOf locale [str "b", str "a"], lastIncludePositions := [none, none] }
    ∃ b q', q.matchesAdcPath locale ⟨some 0, some []⟩ (str "a/b") = some (b, q') ∧
      (b = true ↔ ∀ p ∈ (includeOf locale [str "b", str "a"]).patterns,
        ∃ s ∈ SearchQuery.components (str "a/b"), p.pattern <:+: Text.toLower locale s) := by
  intro locale q
  have hpatterns : (includeOf locale [str "b", str "a"]).patterns.map
    (fun p => (p.pattern, p.plen)) =
      [(str "b", 1), (str "a", 1)] := by decide +kernel
  refine @matchesAdcPath_iff ⟨some 0, some []⟩ q q locale [str "b", str "a"] ⟨some 0, some []⟩
    [] rfl
    ⟨rfl, rfl, rfl⟩ rfl rfl ⟨rfl, rfl⟩ (str "a/b") (by decide +kernel) fun p hp s _ => .inl ?_
  have hmem := List.mem_map_of_mem (f := fun p => (p.pattern, p.plen)) hp
  rw [hpatterns] at hmem
  rcases List.mem_cons.mp hmem with hp | hmem
  · obtain ⟨hq, hn⟩ := Prod.mk.inj hp
    rw [hq, hn]
    exact (Pattern.searchable_iff_of_short (by decide)).mpr (by decide)
  · obtain ⟨hq, hn⟩ := Prod.mk.inj (List.mem_singleton.mp hmem)
    rw [hq, hn]
    exact (Pattern.searchable_iff_of_short (by decide)).mpr (by decide)

/-- The term `a\0b` does not occur in the path `axx`, which matches. -/
theorem matchesAdcPath_null_byte : ¬ ∀ (locale : Locale) (terms : List Str) (u : OutOfRange)
    (q : SearchQuery), q.include_ = includeOf locale terms → Prepared q → q.recursion = none →
    terms ≠ [] → ∀ aPath, SearchQuery.components aPath ≠ [] →
      ∃ b q', q.matchesAdcPath locale u aPath = some (b, q') ∧
        (b = true ↔ ∀ p ∈ (includeOf locale terms).patterns, ∃ s ∈ SearchQuery.components aPath,
          p.pattern <:+: Text.toLower locale s) := by
  intro h
  let locale : Locale := ⟨id, fun s _ => s⟩
  let q : SearchQuery :=
    { include_ := includeOf locale [[0x61, 0, 0x62]], lastIncludePositions := [none] }
  obtain ⟨b, q', hret, hiff⟩ := h locale [[0x61, 0, 0x62]]
    ⟨some 0, some []⟩ q rfl ⟨rfl, rfl, rfl⟩ rfl
    (by decide) (str "axx") (by decide +kernel)
  have hmatches : (q.matchesAdcPath locale ⟨some 0, some []⟩ (str "axx")).map (·.1) =
      some true := by
    decide +kernel
  rw [hret, Option.map_some, Option.some.injEq] at hmatches
  exact absurd (hiff.mp hmatches) (by decide +kernel)

end Matching
end Airdcpp
