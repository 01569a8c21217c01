import Airdcpp.Lib.Agree
import Airdcpp.Search.SearchInstance
import Airdcpp.Share.ShareSearch
import Airdcpp.Util.PathUtil

/-!
# `Search/NameReads` — reading beside a match

The points of a match are for the separators beside it, which are read in a name that the caller
gives. It is the name that was matched, but not in lower case; for a shared root it is the name on
the disk instead of the virtual one; and for a result it is the name that its path ends with. So the
byte may be one that the name does not have. And a name that is to be matched exactly is compared
with the first include term, which there may not be.

What is read is in range when no pattern is found at a place that ends behind the name
(`runUses_in_range`).
-/

namespace Airdcpp
namespace Matching

open Lib StringSearch ShareDirectory

/-! ## Who counts points -/

/-- `SearchResult::getFileName` -/
def getFileName (r : SearchResult) : Str :=
  match r.type with
  | .file => PathUtil.getFileName r.path
  | .directory => PathUtil.getLastDir r.path

/-- `SearchResult::getRelevance`, but for the numbers. The recursion is forgotten at the end. -/
def getRelevance (locale : Locale) (u : OutOfRange) (r : SearchResult) (aQuery : SearchQuery) :
    Option SearchQuery :=
  (aQuery.matchesAdcPath locale u r.path).bind fun m =>
    if m.1 then
      (m.2.getResultPositions u (getFileName r)).map fun _ => { m.2 with recursion := none }
    else some { m.2 with recursion := none }

/-- `RelevanceSearch::match` -/
def matchItem (locale : Locale) (u : OutOfRange) (name : Str) (q : SearchQuery) :
    Option SearchQuery :=
  (q.matchesFileLower u (Text.toLower locale name) 0 0).bind fun m =>
    if m.1 then (m.2.getResultPositions u name).map fun _ => m.2 else some m.2

/-- `SearchQuery::matchesFile`, but for TTHs -/
def matchesFile (locale : Locale) (u : OutOfRange) (aName : Str) (aSize aDate : Int)
    (q : SearchQuery) :
    Option SearchQuery :=
  if q.itemType = ItemType.DIRECTORY then some q
  else (q.matchesFileLower u (Text.toLower locale aName) aSize aDate).map (·.2)

/-- What a query is used for. -/
inductive Use
  | getRelevance (r : SearchResult)
  | matchItem (name : Str)
  | matchesFile (aName : Str) (aSize aDate : Int)
  /-- `ShareTree::searchText` in the roots -/
  | searchText (roots : List ShareDirectory)

/-- A query by TTH does not come to a name: it is answered before. -/
def Use.apply (locale : Locale) (u : OutOfRange) (use : Use) (q : SearchQuery) :
    Option SearchQuery :=
  if q.root.isSome then some q
  else
    match use with
    | .getRelevance r => Matching.getRelevance locale u r q
    | .matchItem name => Matching.matchItem locale u name q
    | .matchesFile aName aSize aDate => Matching.matchesFile locale u aName aSize aDate q
    | .searchText roots => (searchAll u roots 0 ([], q)).map (·.2)

def runUses (locale : Locale) (u : OutOfRange) : List Use → SearchQuery → Option SearchQuery
  | [], q => some q
  | use :: uses, q => (use.apply locale u q).bind (runUses locale u uses)

/-! ## What is safe -/

/-- The positions of the patterns in a text. -/
def positions (patterns : List StringSearch.Pattern) (aText : Str) : ResultList :=
  ((StringSearch.mk patterns).matchLower aText true (List.replicate patterns.length none)).elim []
    (·.2)

/-- The bytes beside a match are in the name, if they are read. -/
structure Beside (p : StringSearch.Pattern) (aName : Str) (pos : Nat) : Prop where
  before : pos = 0 ∨ SearchQuery.isSeparator (p.pattern.headD 0) = true ∨ pos - 1 < aName.length
  behind : pos + p.size = aName.length ∨ SearchQuery.isSeparator (p.pattern.getLastD 0) = true ∨
    pos + p.size < aName.length

/-- The positions in the text have their bytes beside them in the name. -/
def Fits (patterns : List StringSearch.Pattern) (aText aName : Str) : Prop :=
  ∀ i ∈ patterns.zip (positions patterns aText), ∀ pos ∈ i.2, Beside i.1 aName pos

/-- There is a first term when names are to be matched exactly. -/
def HasFront (patterns : List StringSearch.Pattern) (matchType : MatchType) : Prop :=
  matchType = MATCH_NAME_EXACT → patterns ≠ []

/-- The virtual names in the tree fit in the names. -/
inductive NamesFit (patterns : List StringSearch.Pattern) : ShareDirectory → Prop
  | mk {d : ShareDirectory} (own : Fits patterns d.getVirtualNameLower d.realName.getLower)
    (inner : ∀ c ∈ d.directories, NamesFit patterns c) : NamesFit patterns d

/-- The components but the last fit in themselves, and the last one in the name. -/
structure PathFits (locale : Locale) (patterns : List StringSearch.Pattern) (r : SearchResult) :
    Prop where
  above : ∀ s ∈ (SearchQuery.components r.path).dropLast, Fits patterns (Text.toLower locale s) s
  last : ∀ s ∈ (SearchQuery.components r.path).getLast?,
    Fits patterns (Text.toLower locale s) (getFileName r)

/-- The use reads nothing out of range. -/
def Use.Safe (locale : Locale) (patterns : List StringSearch.Pattern) (matchType : MatchType) :
    Use → Prop
  | .getRelevance r => PathFits locale patterns r
  | .matchItem name => HasFront patterns matchType ∧ Fits patterns (Text.toLower locale name) name
  | .matchesFile _ _ _ => HasFront patterns matchType
  | .searchText roots => HasFront patterns matchType ∧ ∀ d ∈ roots, NamesFit patterns d

variable {locale : Locale} {u : OutOfRange} {patterns : List StringSearch.Pattern} {mt : MatchType}
  {p : StringSearch.Pattern} {q q' : SearchQuery} {aText aName : Str} {pos : Nat}

/-- What is true of a query that has not counted points yet. -/
structure Sound (patterns : List StringSearch.Pattern) (mt : MatchType) (q : SearchQuery) : Prop
    extends Settled patterns q where
  matchType_eq : q.matchType = mt

/-- The positions are those of the last text. -/
structure After (patterns : List StringSearch.Pattern) (mt : MatchType) (aText : Str)
    (q : SearchQuery) :
    Prop extends Sound patterns mt q where
  last : ∀ i ∈ patterns.zip q.lastIncludePositions, i.2.isSome = true →
    i ∈ patterns.zip (positions patterns aText)

/-! ## Positions -/

/-- What is placed has been found there. -/
theorem foundAt_of_place {prev : Option Nat} {fuel : Nat} {addPos r : Option Nat}
    (h : place p aText prev fuel addPos = some r) (hadd : ∀ a ∈ addPos, p.FoundAt aText a) :
    ∀ pos ∈ r, p.FoundAt aText pos := by
  induction fuel generalizing addPos with
  | zero => cases h
  | succ fuel ih =>
    rw [place, Option.bind_eq_some_iff] at h
    obtain ⟨curPos, hcur, h⟩ := h
    cases curPos with
    | none =>
      obtain rfl := Option.some.inj h
      exact hadd
    | some c =>
      have hc : ∀ a ∈ some c, p.FoundAt aText a := by
        intro a ha
        obtain rfl := Option.some.inj (Option.mem_def.mp ha)
        exact Pattern.found_of_matchLower hcur
      rw [Option.elim_some] at h
      split at h
      · exact ih h hc
      · obtain rfl := Option.some.inj h
        exact hc

theorem foundAt_of_positions {i : StringSearch.Pattern × Option Nat}
    (hi : i ∈ patterns.zip (positions patterns aText))
    (hpos : pos ∈ i.2) : i.1.FoundAt aText pos := by
  rw [positions] at hi
  cases hmatch : (StringSearch.mk patterns).matchLower aText true
      (List.replicate patterns.length none) with
  | none =>
    rw [hmatch, Option.elim_none, List.zip_nil_right] at hi
    cases hi
  | some r =>
    rw [hmatch, Option.elim_some] at hi
    rcases matchFrom_placed [] 0 hmatch with ⟨rs, rfl, hplaced⟩ | ⟨hres, -⟩
    · obtain ⟨prev, fuel, hplace⟩ := List.forall₂_zip hplaced hi
      exact foundAt_of_place hplace (fun a ha => by cases ha) pos hpos
    · cases hres

/-- **A name that is not shorter is long enough.** -/
theorem Fits.of_le (h : aText.length ≤ aName.length) : Fits patterns aText aName := by
  intro i hi pos hpos
  have hwindow : pos + i.1.size ≤ aText.length := (foundAt_of_positions hi hpos).window
  have hend := hwindow.trans h
  refine ⟨?_, ?_⟩
  · rcases Nat.eq_zero_or_pos pos with hzero | hpos
    · exact .inl hzero
    · exact .inr (.inr (by omega))
  · exact (Nat.eq_or_lt_of_le hend).imp_right .inr

theorem eq_positions {r : Nat × ResultList}
    (h : matchFrom aText true patterns 0 0 (List.replicate patterns.length none) = some r) :
    r.2 = positions patterns aText := by
  rw [positions]
  exact (congrArg (fun r => Option.elim r [] (·.2)) h).symm

/-- In resume mode, a match leaves the positions in the text. -/
theorem lastIncludePositions_eq (h : Settled patterns q)
    (hmatch : q.matchInclude aText true = some q') :
    q'.lastIncludePositions = positions patterns aText := by
  have hpatterns := h.patterns_eq
  subst hpatterns
  rw [SearchQuery.matchInclude, h.resetPositions] at hmatch
  obtain ⟨r, hr, rfl⟩ := Option.map_eq_some_iff.mp hmatch
  exact eq_positions hr

/-- **After a match** the positions are those of the text, or there are none. -/
theorem after_matchInclude (h : Sound patterns mt q) (aText : Str) (aResumeOnNoMatch : Bool) :
    Agree (After patterns mt aText) (q.matchInclude aText aResumeOnNoMatch)
      (q.matchInclude aText aResumeOnNoMatch) := by
  refine .of_holds fun q' hq' => ?_
  have hmatch := Option.mem_def.mp hq'
  have hsound : Sound patterns mt q' := by
    refine ⟨(h.toSettled.of_matchInclude hmatch).1, ?_⟩
    rw [SearchQuery.matchInclude] at hmatch
    obtain ⟨r, -, rfl⟩ := Option.map_eq_some_iff.mp hmatch
    exact h.matchType_eq
  refine ⟨hsound, fun i hi hsome => ?_⟩
  cases aResumeOnNoMatch with
  | true => exact lastIncludePositions_eq h.toSettled hmatch ▸ hi
  | false =>
    have hpatterns := h.patterns_eq
    subst hpatterns
    have hstopped := hmatch
    rw [SearchQuery.matchInclude, h.resetPositions] at hstopped
    obtain ⟨r, hr, rfl⟩ := Option.map_eq_some_iff.mp hstopped
    rcases matchFrom_resume [] 0 hr with hr' | rfl
    · exact eq_positions hr' ▸ hi
    · have hnone := List.eq_of_mem_replicate (List.of_mem_zip hi).2
      rw [hnone] at hsome
      cases hsome

/-! ## Points -/

theorem separatorPoints_isSome_iff {c : UInt8} {i : Nat} :
    (SearchQuery.separatorPoints OutOfRange.undefined aName c i).isSome = true ↔
      SearchQuery.isSeparator c = true ∨ i < aName.length := by
  rw [SearchQuery.separatorPoints, SearchQuery.readName]
  split
  · next hc => exact iff_of_true rfl (.inl hc)
  · next hc =>
    rw [Option.isSome_map, OutOfRange.undefined, Option.or_none,
      Option.isSome_iff_ne_none, ne_eq, List.getElem?_eq_none_iff, not_le]
    exact (or_iff_right hc).symm

/-- **Points are counted in range** when the bytes beside the match are in the name. -/
theorem pointsAt_isSome_iff :
    (SearchQuery.pointsAt OutOfRange.undefined p aName pos).isSome = true ↔ Beside p aName pos := by
  have hbefore : (if pos = 0 then some 20 else SearchQuery.separatorPoints OutOfRange.undefined
    aName
        (p.pattern.headD 0) (pos - 1)).isSome = true ↔
      pos = 0 ∨ SearchQuery.isSeparator (p.pattern.headD 0) = true ∨ pos - 1 < aName.length := by
    split
    · next hzero => exact iff_of_true rfl (.inl hzero)
    · next hzero => exact separatorPoints_isSome_iff.trans (or_iff_right hzero).symm
  have hbehind : (if pos + p.size = aName.length then some 20
        else SearchQuery.separatorPoints OutOfRange.undefined aName (p.pattern.getLastD 0)
          (pos + p.size)).isSome = true ↔
      pos + p.size = aName.length ∨ SearchQuery.isSeparator (p.pattern.getLastD 0) = true ∨
        pos + p.size < aName.length := by
    split
    · next hend => exact iff_of_true rfl (.inl hend)
    · next hend => exact separatorPoints_isSome_iff.trans (or_iff_right hend).symm
  rw [SearchQuery.pointsAt, Option.isSome_bind, Option.any_eq_true_iff_get]
  simp only [Option.isSome_map, exists_prop]
  rw [hbefore, hbehind]
  exact ⟨fun h => ⟨h.1, h.2⟩, fun h => ⟨h.before, h.behind⟩⟩

theorem separatorPoints_eq {c : UInt8} {i : Nat}
    (h : (SearchQuery.separatorPoints OutOfRange.undefined aName c i).isSome = true)
    (u : OutOfRange) :
    SearchQuery.separatorPoints u aName c i =
      SearchQuery.separatorPoints OutOfRange.undefined aName c i := by
  rw [SearchQuery.separatorPoints, SearchQuery.separatorPoints]
  rcases separatorPoints_isSome_iff.mp h with hc | hi
  · rw [if_pos hc, if_pos hc]
  · rw [SearchQuery.readName, SearchQuery.readName, List.getElem?_eq_getElem hi]
    rfl

theorem pointsAt_eq (h : Beside p aName pos) (u : OutOfRange) :
    SearchQuery.pointsAt u p aName pos = SearchQuery.pointsAt OutOfRange.undefined p aName pos := by
  rw [SearchQuery.pointsAt, SearchQuery.pointsAt]
  have hbefore : (if pos = 0 then some 20
      else SearchQuery.separatorPoints u aName (p.pattern.headD 0) (pos - 1)) =
      if pos = 0 then some 20
      else SearchQuery.separatorPoints OutOfRange.undefined aName (p.pattern.headD 0)
        (pos - 1) := by
    split
    · rfl
    · next hzero =>
      exact separatorPoints_eq (separatorPoints_isSome_iff.mpr (h.before.resolve_left hzero)) u
  have hbehind : (if pos + p.size = aName.length then some 20
      else SearchQuery.separatorPoints u aName (p.pattern.getLastD 0) (pos + p.size)) =
      if pos + p.size = aName.length then some 20
      else SearchQuery.separatorPoints OutOfRange.undefined aName (p.pattern.getLastD 0)
        (pos + p.size) := by
    split
    · rfl
    · next hend =>
      exact separatorPoints_eq (separatorPoints_isSome_iff.mpr (h.behind.resolve_left hend)) u
  rw [hbefore, hbehind]

/-- **The points of a match are counted in range exactly when the text fits in the name.** -/
theorem toPointList_isSome_iff (hpatterns : q.include_.patterns = patterns)
    (hlast : q.lastIncludePositions = positions patterns aText) :
    (q.toPointList OutOfRange.undefined aName).isSome = true ↔ Fits patterns aText aName := by
  rw [SearchQuery.toPointList, hpatterns, hlast]
  constructor
  · intro h i hi pos hpos
    obtain ⟨ret, hret⟩ := Option.isSome_iff_exists.mp h
    obtain ⟨j, hj, rfl⟩ := List.mem_iff_getElem.mp hi
    have hpoints := (List.forall₂_iff_get.mp (Lib.forall₂_of_mapM hret)).2 j hj
      ((Lib.forall₂_of_mapM hret).length_eq ▸ hj)
    rw [List.get_eq_getElem, Option.mem_def.mp hpos, Option.elim_some,
      Option.map_eq_some_iff] at hpoints
    obtain ⟨points, hpoints, -⟩ := hpoints
    exact pointsAt_isSome_iff.mp (Option.isSome_iff_exists.mpr ⟨points, hpoints⟩)
  · intro h
    refine Lib.isSome_mapM fun i hi => ?_
    cases hpos : i.2 with
    | none => rfl
    | some pos =>
      rw [Option.elim_some, Option.isSome_map]
      exact pointsAt_isSome_iff.mpr (h i hi pos hpos)

theorem toPointList_eq (h : After patterns mt aText q) (hfits : Fits patterns aText aName)
    (u : OutOfRange) : q.toPointList u aName = q.toPointList OutOfRange.undefined aName := by
  rw [SearchQuery.toPointList, SearchQuery.toPointList]
  refine mapM_congr fun i hi => ?_
  cases hpos : i.2 with
  | none => rfl
  | some pos =>
    rw [h.patterns_eq] at hi
    have hmem := h.last i hi (by rw [hpos]; rfl)
    rw [Option.elim_some, Option.elim_some, pointsAt_eq (hfits i hmem pos hpos) u]

theorem newRecursion_eq (h : After patterns mt aText q) (hfits : Fits patterns aText aName)
    (u : OutOfRange) : q.newRecursion u aName = q.newRecursion OutOfRange.undefined aName := by
  rw [SearchQuery.newRecursion, SearchQuery.newRecursion, toPointList_eq h hfits]

theorem getResultPositions_eq (h : After patterns mt aText q) (hfits : Fits patterns aText aName)
    (u : OutOfRange) :
    q.getResultPositions u aName = q.getResultPositions OutOfRange.undefined aName := by
  rw [SearchQuery.getResultPositions, SearchQuery.getResultPositions, toPointList_eq h hfits]

/-! ## Matches -/

theorem Sound.congr (h : Sound patterns mt q) (hinclude : q'.include_ = q.include_)
    (hpositions : q'.lastIncludePositions = q.lastIncludePositions)
    (hmatches : q'.lastIncludeMatches = q.lastIncludeMatches) (hcalls : q'.calls = q.calls)
    (htype : q'.matchType = q.matchType) : Sound patterns mt q' :=
  ⟨Settled.aboutMatches.congr q q' h.toSettled hinclude hpositions hmatches hcalls,
    htype.trans h.matchType_eq⟩

theorem Sound.setRecursion (h : Sound patterns mt q) (recursion : Option Recursion) :
    Sound patterns mt { q with recursion := recursion } := h.congr rfl rfl rfl rfl rfl

theorem After.hasExt (h : After patterns mt aText q) (name : Str) :
    After patterns mt aText (q.hasExt name).2 := by
  rw [SearchQuery.hasExt]
  split
  · exact h
  · dsimp only
    split
    · exact h
    · exact ⟨h.toSound.congr rfl rfl rfl rfl rfl, h.last⟩

/-- A file that matches has been matched by its name. -/
theorem agree_matchesFileLower (h : Sound patterns mt q) (hfront : HasFront patterns mt)
    (u : OutOfRange) (aName : Str) (aSize aDate : Int) :
    Agree (fun r => Sound patterns mt r.2 ∧ (r.1 = true → After patterns mt aName r.2))
      (q.matchesFileLower u aName aSize aDate)
      (q.matchesFileLower OutOfRange.undefined aName aSize aDate) := by
  have hno : Agree (fun r => Sound patterns mt r.2 ∧ (r.1 = true → After patterns mt aName r.2))
      (some (false, q)) (some (false, q)) := .some ⟨h, fun hr => (by cases hr)⟩
  have hfrontPattern : q.matchType = MATCH_NAME_EXACT →
      q.frontPattern u = q.frontPattern OutOfRange.undefined := by
    intro htype
    rw [SearchQuery.frontPattern, SearchQuery.frontPattern, h.patterns_eq]
    obtain ⟨p, ps, hps⟩ := List.exists_cons_of_ne_nil (hfront (h.matchType_eq ▸ htype))
    rw [hps]
    rfl
  rw [SearchQuery.matchesFileLower, SearchQuery.matchesFileLower]
  split
  · exact hno
  · have hexact : (if q.matchType = MATCH_NAME_EXACT then (q.frontPattern u).map (· == aName)
        else some true) = if q.matchType = MATCH_NAME_EXACT then
          (q.frontPattern OutOfRange.undefined).map (· == aName) else some true := by
      split
      · next htype => rw [hfrontPattern htype]
      · rfl
    rw [hexact]
    refine Agree.bind (P := fun _ => True) (.of_holds fun _ _ => trivial) fun exact _ => ?_
    split
    · refine (after_matchInclude h aName q.recursion.isSome).bind fun q hq => ?_
      split
      · have hext := hq.hasExt aName
        rw [SearchQuery.checkFile]
        split
        · exact (Agree.of_holds (P := fun _ => True) fun _ _ => trivial).map
            fun _ _ => ⟨hext.toSound, fun _ => hext⟩
        · exact .some ⟨hext.toSound, fun _ => hext⟩
      · exact .some ⟨hq.toSound, fun hr => (by cases hr)⟩
    · exact hno

/-! ## Paths -/

theorem agree_matchComponents {sl : List Str} (h : Sound patterns mt q)
    (hfits : ∀ s ∈ sl.dropLast, Fits patterns (Text.toLower locale s) s) (u : OutOfRange) :
    Agree (fun q' => Sound patterns mt q' ∧
        ∀ s ∈ sl.getLast?, After patterns mt (Text.toLower locale s) q')
      (q.matchComponents locale u sl) (q.matchComponents locale OutOfRange.undefined sl) := by
  induction sl generalizing q with
  | nil => exact .some ⟨h, fun s hs => (by cases hs)⟩
  | cons s sl ih =>
    cases sl with
    | nil =>
      refine (after_matchInclude h (Text.toLower locale s) true).imp fun q' hq' =>
        ⟨hq'.toSound, fun t ht => ?_⟩
      obtain rfl := Option.some.inj (Option.mem_def.mp ht)
      exact hq'
    | cons s' sl =>
      rw [matchComponents_cons, matchComponents_cons]
      refine Agree.bind (P := Sound patterns mt) ?_ fun q hq => ?_
      · refine (after_matchInclude h (Text.toLower locale s) true).bind fun q hq => ?_
        rw [SearchQuery.keepMatches, SearchQuery.keepMatches,
          newRecursion_eq hq (hfits s (by simp [List.dropLast]))]
        split
        · exact (Agree.of_holds (P := fun _ => True) fun _ _ => trivial).map
            fun r _ => hq.toSound.setRecursion _
        · exact .some hq.toSound
      · have hrest := ih (hq.setRecursion (q.recursion.map (·.increase s.length)))
          fun t ht => hfits t (List.mem_cons_of_mem s ht)
        exact hrest.imp fun q' hq' =>
          ⟨hq'.1, fun t ht => hq'.2 t (by rwa [List.getLast?_cons_cons] at ht)⟩

theorem agree_getRelevance {r : SearchResult} (h : Sound patterns mt q)
    (hfits : PathFits locale patterns r) (u : OutOfRange) :
    Agree (Sound patterns mt) (getRelevance locale u r q)
      (getRelevance locale OutOfRange.undefined r q) := by
  have hpath : Agree (fun m => Sound patterns mt m.2 ∧ (m.1 = true →
        ∃ s ∈ (SearchQuery.components r.path).getLast?,
          After patterns mt (Text.toLower locale s) m.2))
      (q.matchesAdcPath locale u r.path) (q.matchesAdcPath locale OutOfRange.undefined r.path) := by
    rw [SearchQuery.matchesAdcPath, SearchQuery.matchesAdcPath]
    split
    · exact .some ⟨h, fun hm => (by cases hm)⟩
    · next hne =>
      rw [List.isEmpty_iff] at hne
      have hlast := List.getLast?_eq_some_getLast hne
      exact (agree_matchComponents h hfits.above u).map fun q' hq' =>
        ⟨hq'.1, fun _ => ⟨_, hlast, hq'.2 _ hlast⟩⟩
  rw [getRelevance, getRelevance]
  refine hpath.bind fun m hm => ?_
  split
  · next hmatches =>
    obtain ⟨s, hs, hafter⟩ := hm.2 hmatches
    rw [getResultPositions_eq hafter (hfits.last s hs)]
    exact (Agree.of_holds (P := fun _ => True) fun _ _ => trivial).map
      fun _ _ => hm.1.setRecursion none
  · exact .some (hm.1.setRecursion none)

/-! ## The share -/

theorem agree_addResult {item : ShareDirectory ⊕ ShareFile} {aLevel : Int} {s : SearchState}
    (h : After patterns mt aText s.2) (hfits : Fits patterns aText aName) (u : OutOfRange) :
    Agree (fun s' : SearchState => s'.2 = s.2) (addResult u item aName aLevel s)
      (addResult OutOfRange.undefined item aName aLevel s) := by
  rw [addResult, addResult, getResultPositions_eq h hfits]
  exact (Agree.of_holds (P := fun _ => True) fun _ _ => trivial).map fun _ _ => rfl

theorem agree_matchFiles {aLevel : Int} {files : List ShareFile} {s : SearchState}
    (h : Sound patterns mt s.2) (hfront : HasFront patterns mt) (u : OutOfRange) :
    Agree (fun s' : SearchState => Sound patterns mt s'.2) (matchFiles u aLevel files s)
      (matchFiles OutOfRange.undefined aLevel files s) := by
  induction files generalizing s with
  | nil => exact .some h
  | cons f files ih =>
    rw [matchFiles, matchFiles]
    refine (agree_matchesFileLower h hfront u f.name.getLower f.size f.lastWrite).bind fun r hr =>
      ?_
    split
    · next hmatches =>
      have hafter := hr.2 hmatches
      refine (agree_addResult (s := (s.1, r.2)) hafter (.of_le le_rfl) u).bind fun s' hs' => ?_
      have hs'' : Sound patterns mt s'.2 := by
        rw [hs']
        exact hr.1
      split
      · exact .some hs''
      · exact ih hs''
    · exact ih (s := (s.1, r.2)) hr.1

theorem agree_matchDirectory {d : ShareDirectory} {aLevel : Int} {s : SearchState}
    (h : After patterns mt d.getVirtualNameLower s.2)
    (hfits : Fits patterns d.getVirtualNameLower d.realName.getLower) (u : OutOfRange) :
    Agree (fun s' : SearchState => Sound patterns mt s'.2) (matchDirectory u d aLevel s)
      (matchDirectory OutOfRange.undefined d aLevel s) := by
  rw [matchDirectory, matchDirectory]
  refine Agree.bind (P := fun s' : SearchState => s'.2 = s.2) ?_ fun s' hs' => ?_
  · split
    · exact agree_addResult h hfits u
    · exact .some rfl
  · have hafter : After patterns mt d.getVirtualNameLower s'.2 := by
      rw [hs']
      exact h
    split
    · rw [newRecursion_eq hafter (.of_le le_rfl)]
      exact (Agree.of_holds (P := fun _ => True) fun _ _ => trivial).map
        fun r _ => hafter.toSound.setRecursion _
    · exact .some hafter.toSound

theorem agree_searchOwn {d : ShareDirectory} {aLevel : Int} {s : SearchState}
    (h : Sound patterns mt s.2) (hfront : HasFront patterns mt)
    (hfits : Fits patterns d.getVirtualNameLower d.realName.getLower) (u : OutOfRange) :
    Agree (fun s' : SearchState => Sound patterns mt s'.2) (searchOwn u d aLevel s)
      (searchOwn OutOfRange.undefined d aLevel s) := by
  rw [searchOwn, searchOwn]
  have hname : Agree (fun r => Sound patterns mt r.2 ∧
        (r.1 = true → After patterns mt d.getVirtualNameLower r.2))
      (s.2.matchesAnyDirectoryLower d.getVirtualNameLower)
      (s.2.matchesAnyDirectoryLower d.getVirtualNameLower) := by
    rw [SearchQuery.matchesAnyDirectoryLower]
    split
    · exact .some ⟨h, fun hr => (by cases hr)⟩
    · exact (after_matchInclude h d.getVirtualNameLower true).map
        fun q hq => ⟨hq.toSound, fun _ => hq⟩
  refine hname.bind fun r hr => Agree.bind (P := fun s' : SearchState => Sound patterns mt s'.2) ?_
    fun s' hs' => ?_
  · split
    · next hmatches => exact agree_matchDirectory (s := (s.1, r.2)) (hr.2 hmatches) hfits u
    · exact .some hr.1
  · have hup := hs'.setRecursion (s'.2.recursion.map (·.increase d.getVirtualNameLower.length))
    dsimp only
    split
    · exact agree_matchFiles (s := (s'.1, _)) hup hfront u
    · exact .some hup

mutual

/-- **A search of the share** does not depend on undefined reads. -/
theorem agree_search : (d : ShareDirectory) → ∀ {aLevel : Int} {s : SearchState},
    Sound patterns mt s.2 → HasFront patterns mt → NamesFit patterns d → (u : OutOfRange) →
    Agree (fun s' : SearchState => Sound patterns mt s'.2) (search u d aLevel s)
      (search OutOfRange.undefined d aLevel s)
  | .mk realName virtualName lastWrite files directories, aLevel, s, h, hfront, hfits, u => by
    rw [search, search]
    refine Agree.bind (P := fun _ => True) (.of_holds fun _ _ => trivial) fun excluded _ => ?_
    split
    · exact .some h
    · cases hfits with
      | mk hown hinner =>
        refine ((agree_searchOwn h hfront hown u).bind fun s' hs' =>
          agree_searchAll directories hs' hfront hinner u).map fun s' hs' => hs'.setRecursion _

theorem agree_searchAll : (directories : List ShareDirectory) → ∀ {aLevel : Int} {s : SearchState},
    Sound patterns mt s.2 → HasFront patterns mt → (∀ d ∈ directories, NamesFit patterns d) →
    (u : OutOfRange) →
    Agree (fun s' : SearchState => Sound patterns mt s'.2) (searchAll u directories aLevel s)
      (searchAll OutOfRange.undefined directories aLevel s)
  | [], aLevel, s, h, _, _, u => .some h
  | d :: directories, aLevel, s, h, hfront, hfits, u => by
    rw [searchAll, searchAll]
    refine (agree_search d h hfront (hfits d List.mem_cons_self) u).bind fun s' hs' => ?_
    exact agree_searchAll directories hs' hfront (fun c hc => hfits c (List.mem_cons_of_mem d hc)) u

end

/-! ## Runs -/

theorem agree_apply {use : Use} (h : q.root.isSome = true ∨ Sound patterns mt q)
    (hsafe : use.Safe locale patterns mt) (u : OutOfRange) :
    Agree (fun q' => q'.root.isSome = true ∨ Sound patterns mt q') (use.apply locale u q)
      (use.apply locale OutOfRange.undefined q) := by
  rw [Use.apply.eq_def, Use.apply.eq_def]
  split
  · exact .some h
  · next hroot =>
    have hq := h.resolve_left hroot
    refine Agree.imp (P := Sound patterns mt) ?_ fun _ => .inr
    cases use with
    | getRelevance r => exact agree_getRelevance hq hsafe u
    | matchItem name =>
      refine (agree_matchesFileLower hq hsafe.1 u (Text.toLower locale name) 0 0).bind fun m hm =>
        ?_
      split
      · next hmatches =>
        rw [getResultPositions_eq (hm.2 hmatches) hsafe.2]
        exact (Agree.of_holds (P := fun _ => True) fun _ _ => trivial).map fun _ _ => hm.1
      · exact .some hm.1
    | matchesFile aName aSize aDate =>
      dsimp only
      rw [matchesFile, matchesFile]
      split
      · exact .some hq
      · exact (agree_matchesFileLower hq hsafe u (Text.toLower locale aName) aSize aDate).map
          fun m hm => hm.1
    | searchText roots =>
      exact (agree_searchAll roots (s := ([], q)) hq hsafe.1 hsafe.2 u).map fun s hs => hs

/-- A query of parameters that has no TTH is prepared. -/
theorem prepared_ofParams (locale : Locale) (params : List Str)
    (hroot : (SearchQuery.ofParams locale params).root = none) :
    Prepared (SearchQuery.ofParams locale params) := by
  have hfrom : ∀ (params : List Str) (q : SearchQuery), q.lastIncludeMatches = 0 → q.calls = [] →
      (SearchQuery.ofParamsFrom locale params q).root = none →
        Prepared (SearchQuery.ofParamsFrom locale params q) := by
    intro params
    induction params with
    | nil => exact fun q hmatches hcalls _ => ⟨rfl, hmatches, hcalls⟩
    | cons p params ih =>
      intro q hmatches hcalls hroot
      rw [SearchQuery.ofParamsFrom] at hroot ⊢
      split
      · next hlen =>
        rw [if_pos hlen] at hroot
        exact ih q hmatches hcalls hroot
      · next hlen =>
        rw [if_neg hlen] at hroot
        split
        · next htr =>
          rw [if_pos htr] at hroot
          cases hroot
        · next htr =>
          rw [if_neg htr] at hroot
          refine ih _ ?_ ?_ hroot
          · simp only [SearchQuery.addParam, apply_ite SearchQuery.lastIncludeMatches, hmatches,
              ite_self]
          · simp only [SearchQuery.addParam, apply_ite SearchQuery.calls, hcalls, ite_self]
  exact hfrom params {} rfl rfl hroot

/-- Uses that are safe do not depend on undefined reads. -/
theorem runUses_eq (locale : Locale) {q : SearchQuery} (hq : q.root = none → Prepared q)
    {uses : List Use}
    (hsafe : ∀ use ∈ uses, use.Safe locale q.include_.patterns q.matchType) (u : OutOfRange) :
    runUses locale u uses q = runUses locale OutOfRange.undefined uses q := by
  have hrun : ∀ (q₁ : SearchQuery),
      q₁.root.isSome = true ∨ Sound q.include_.patterns q.matchType q₁ →
        runUses locale u uses q₁ = runUses locale OutOfRange.undefined uses q₁ := by
    induction uses with
    | nil => exact fun _ _ => rfl
    | cons use uses ih =>
      intro q₁ h₁
      have hagree := agree_apply h₁ (hsafe use List.mem_cons_self) u
      rw [runUses, runUses, ← hagree.same]
      cases happly : use.apply locale u q₁ with
      | none => rfl
      | some q₂ =>
        exact ih (fun use huse => hsafe use (List.mem_cons_of_mem _ huse)) q₂
          (hagree.holds q₂ happly)
  refine hrun q ?_
  cases hroot : q.root with
  | some root => exact .inl rfl
  | none => exact .inr ⟨(hq hroot).ready.toSettled, rfl⟩

/-- The settled states, in the terms of one match. -/
theorem counted_iff (h : Settled patterns q) (hmatch : q.matchInclude aText true = some q') :
    (q'.toPointList OutOfRange.undefined aName).isSome = true ↔ Fits patterns aText aName := by
  exact toPointList_isSome_iff (h.of_matchInclude hmatch).1.patterns_eq
    (lastIncludePositions_eq h hmatch)

theorem frontPattern_isSome_iff :
    (q.frontPattern OutOfRange.undefined).isSome = true ↔ q.include_.patterns ≠ [] := by
  rw [SearchQuery.frontPattern, OutOfRange.undefined, Option.or_none, Option.isSome_map,
    List.isSome_head?]

/-- **Nothing is read out of range** in a run of safe uses: what undefined reads give does not
    matter. Points are counted in range exactly where the text fits in the name, and there is a
    first pattern to compare with exactly when there are patterns. -/
theorem reads_in_range (locale : Locale) {q : SearchQuery} (hq : q.root = none → Prepared q) :
    (∀ (q₁ q₂ : SearchQuery) (aText aName : Str), Settled q.include_.patterns q₁ →
        q₁.matchInclude aText true = some q₂ →
          ((q₂.toPointList OutOfRange.undefined aName).isSome = true ↔
            Fits q.include_.patterns aText aName)) ∧
      ((q.frontPattern OutOfRange.undefined).isSome = true ↔ q.include_.patterns ≠ []) ∧
      ∀ uses : List Use, (∀ use ∈ uses, use.Safe locale q.include_.patterns q.matchType) →
        ∀ u, runUses locale u uses q = runUses locale OutOfRange.undefined uses q :=
  ⟨fun _ _ _ _ h hmatch => counted_iff h hmatch, frontPattern_isSome_iff,
    fun _ hsafe u => runUses_eq locale hq hsafe u⟩

theorem reads_in_range_name :
    let locale : Locale := ⟨id, fun s _ => s⟩
    let q := SearchQuery.ofParams locale [str "ANabc"]
    runUses locale ⟨some 0, some []⟩ [.matchItem (str "xabc")] q =
      runUses locale OutOfRange.undefined [.matchItem (str "xabc")] q := by
  intro locale q
  have hpatterns : q.include_.patterns ≠ [] := List.ne_nil_of_length_pos (by decide +kernel)
  refine (reads_in_range locale (prepared_ofParams locale [str "ANabc"])).2.2
    [.matchItem (str "xabc")] (fun use huse => ?_) ⟨some 0, some []⟩
  obtain rfl := List.mem_singleton.mp huse
  exact ⟨fun _ => hpatterns, .of_le (by decide +kernel)⟩

/-- The lower case of U+023A has three bytes instead of two, so `ab` is found in the name behind its
    end; and names that are to be matched exactly need no term. -/
theorem reads_out_of_range :
    (¬ ∀ (locale : Locale) (params : List Str) (r : SearchResult) (u : OutOfRange),
      (getRelevance locale u r (SearchQuery.ofParams locale params)).isSome =
        (getRelevance locale OutOfRange.undefined r (SearchQuery.ofParams locale params)).isSome) ∧
      ¬ ∀ (locale : Locale) (params : List Str) (aName : Str) (u : OutOfRange),
        (matchesFile locale u aName 0 0 (SearchQuery.ofParams locale params)).isSome =
          (matchesFile locale OutOfRange.undefined aName 0 0
            (SearchQuery.ofParams locale params)).isSome := by
  constructor
  · intro h
    exact absurd (h ⟨fun c => if c = 0x23a then 0x2c65 else c, fun s _ => s⟩ [str "ANab"]
      { tth := Vector.replicate 24 0, path := [0xc8, 0xba] ++ str "ab",
        user := ⟨Vector.replicate 24 0, []⟩ } ⟨some 0, none⟩)
      (by decide +kernel)
  · intro h
    exact absurd (h ⟨id, fun s _ => s⟩ [str "MT2"] (str "ab") ⟨none, some []⟩) (by decide +kernel)

end Matching
end Airdcpp
