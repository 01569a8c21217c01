import Airdcpp.Lib.ListOps
import Airdcpp.Search.SearchQuery

/-!
# `Search/MatchPositions` — positions and counts over a run of matches

The positions of the include patterns lie in one list that each match writes over. It is made empty
before a match when the match before has counted something, so the list is empty then if a match
that counts nothing leaves nothing in it (`Ready`). A run keeps that, and each call of
`StringSearch::matchLower` in it returns a number and positions that go together (`Consistent`),
exactly when the patterns are searchable (`run_consistent_iff`).
-/

namespace Airdcpp
namespace StringSearch

variable {aText q : Str} {p : Pattern} {patterns ps : List Pattern} {prev r : Option Nat}
  {pre rs : ResultList} {start i j found : Nat}

/-! ## One pattern -/

theorem find_first (h : find aText q start = some i) :
    start ≤ i ∧ q <+: aText.drop i ∧ ∀ j, start ≤ j → j < i → ¬ q <+: aText.drop j := by
  obtain ⟨hfound, -, hfirst⟩ := List.find?_range'_eq_some.mp h
  refine ⟨(find_eq_some h).1, List.isPrefixOf_iff_prefix.mp hfound, fun j hj hji => ?_⟩
  have hnot := hfirst j hj hji
  rwa [Bool.not_eq_true', ← Bool.not_eq_true, List.isPrefixOf_iff_prefix] at hnot

theorem not_prefix_of_find (hq : q ≠ []) (h : find aText q start = none) (hj : start ≤ j) :
    ¬ q <+: aText.drop j := by
  intro hpre
  have hroom := hpre.length_le
  have hpos : 0 < q.length := List.length_pos_iff.mpr hq
  rw [List.length_drop] at hroom
  have hnot := List.find?_eq_none.mp h j (by rw [List.mem_range'_1]; omega)
  exact hnot (List.isPrefixOf_iff_prefix.mpr hpre)

/-- The pattern is at the position: the first from the position of the pattern before on, if there
    is one. -/
structure Placed (aText q : Str) (prev : Option Nat) (pos : Nat) : Prop where
  occurs : q <+: aText.drop pos
  first : ∀ i, find aText q (prev.getD 0) = some i → pos = i

theorem Placed.isInfix {pos : Nat} (h : Placed aText q prev pos) : q <:+: aText :=
  h.occurs.isInfix.trans (List.drop_suffix pos aText).isInfix

/-- The pattern is found in the text where it occurs. -/
def FindsIn (p : Pattern) (aText : Str) : Prop :=
  ∀ start, p.matchLower aText start = some (find aText p.pattern start)

/-- The loop over the positions of a pattern: those up to `addPos` are before that of the pattern
    before. -/
theorem place_from (hne : p.pattern ≠ []) (hp : FindsIn p aText) (fuel : Nat) (addPos : Option Nat)
    (hfuel : aText.length + 1 < fuel + addPos.elim 0 (· + 1))
    (hadd : ∀ a ∈ addPos, p.pattern <+: aText.drop a ∧ ∃ v ∈ prev, a < v) :
    ∃ r, place p aText prev fuel addPos = some r ∧
      (r = none → addPos = none ∧ find aText p.pattern 0 = none) ∧
      ∀ pos ∈ r, Placed aText p.pattern prev pos := by
  induction fuel generalizing addPos with
  | zero =>
    cases addPos with
    | none => exact absurd hfuel (by simp)
    | some a =>
      obtain ⟨hpre, -⟩ := hadd a rfl
      have hroom := hpre.length_le
      have hpos : 0 < p.pattern.length := List.length_pos_iff.mpr hne
      rw [List.length_drop] at hroom
      have hlt : aText.length + 1 < 0 + (a + 1) := hfuel
      omega
  | succ fuel ih =>
    rw [place, hp, Option.bind_some]
    cases hfind : find aText p.pattern (addPos.elim 0 (· + 1)) with
    | none =>
      refine ⟨addPos, rfl, fun hnone => ⟨hnone, by rwa [hnone] at hfind⟩, fun a ha => ?_⟩
      obtain ⟨hpre, v, hv, hlt⟩ := hadd a ha
      refine ⟨hpre, fun i hi => ?_⟩
      obtain rfl := Option.mem_def.mp ha
      obtain rfl := Option.mem_def.mp hv
      obtain ⟨hle, hi, -⟩ := find_first hi
      have hle' : v ≤ i := hle
      exact absurd hi (not_prefix_of_find hne hfind (show a + 1 ≤ i by omega))
    | some c =>
      obtain ⟨hstart, hc, hfirst⟩ := find_first hfind
      rw [Option.elim_some]
      split
      · next hbefore =>
        rw [Option.any_eq_true_iff_get] at hbefore
        obtain ⟨hsome, hlt⟩ := hbefore
        obtain ⟨r, hr, hnone, hplaced⟩ := ih (some c)
          (by rw [Option.elim_some]; omega)
          (fun a ha => by
            obtain rfl := Option.some.inj (Option.mem_def.mp ha)
            exact ⟨hc, prev.get hsome, Option.get_mem hsome, by simpa using hlt⟩)
        exact ⟨r, hr, fun h => absurd (hnone h).1 (by simp), hplaced⟩
      · next hnot =>
        refine ⟨some c, rfl, fun h => (by cases h), fun a ha => ?_⟩
        obtain rfl := Option.some.inj ha
        refine ⟨hc, fun i hi => ?_⟩
        obtain ⟨hle, hpre, hfirst'⟩ := find_first hi
        have hbefore : prev.getD 0 ≤ c := by
          cases prev with
          | none => exact Nat.zero_le c
          | some v => simpa using hnot
        have hstart' : addPos.elim 0 (· + 1) ≤ prev.getD 0 := by
          cases addPos with
          | none => exact Nat.zero_le _
          | some a =>
            obtain ⟨-, v, hv, hlt⟩ := hadd a rfl
            obtain rfl := Option.mem_def.mp hv
            exact hlt
        rcases Nat.lt_trichotomy c i with hlt | rfl | hlt
        · exact absurd hc (hfirst' c hbefore hlt)
        · rfl
        · exact absurd hpre (hfirst i (hstart'.trans hle) hlt)

/-- **A pattern is placed** where it occurs, and nowhere when it does not. -/
theorem place_spec (hne : p.pattern ≠ []) (hp : FindsIn p aText) (prev : Option Nat) :
    ∃ r, place p aText prev (aText.length + 2) none = some r ∧
      (r.isSome = true ↔ p.pattern <:+: aText) ∧ ∀ pos ∈ r, Placed aText p.pattern prev pos := by
  obtain ⟨r, hr, hnone, hplaced⟩ := @place_from aText p prev hne hp (aText.length + 2) none
    (by rw [Option.elim_none]; omega) (fun a ha => by cases ha)
  refine ⟨r, hr, ⟨fun hsome => ?_, fun hin => ?_⟩, hplaced⟩
  · obtain ⟨pos, hpos⟩ := Option.isSome_iff_exists.mp hsome
    exact (hplaced pos hpos).isInfix
  · by_contra hnot
    exact find_eq_none (hnone (Option.not_isSome_iff_eq_none.mp hnot)).2 hin

/-! ## All patterns -/

/-- The positions for the patterns, the first of which comes behind one that is placed at `prev`. -/
inductive Places (aText : Str) : Option Nat → List Pattern → ResultList → Prop
  | nil (prev : Option Nat) : Places aText prev [] []
  | cons {prev r : Option Nat} {p : Pattern} {ps : List Pattern} {rs : ResultList}
      (occurs : r.isSome = true ↔ p.pattern <:+: aText)
      (placed : ∀ pos ∈ r, Placed aText p.pattern prev pos) (rest : Places aText r ps rs) :
      Places aText prev (p :: ps) (r :: rs)

/-- The position of the pattern before. -/
def prevPos (results_ : ResultList) (listPos : Nat) : Option Nat :=
  if 0 < listPos then results_.getD (listPos - 1) none else none

theorem Places.length_eq (h : Places aText prev ps rs) : rs.length = ps.length := by
  induction h with
  | nil => rfl
  | cons _ _ _ ih => rw [List.length_cons, List.length_cons, ih]

theorem Places.countP_eq (h : Places aText prev ps rs) :
    rs.countP Option.isSome = ps.countP fun p => decide (p.pattern <:+: aText) := by
  induction h with
  | nil => rfl
  | cons hfound _ _ ih => simp only [List.countP_cons, ih, hfound, decide_eq_true_eq]

theorem Places.placed_at (h : Places aText prev ps rs) (hp : ps[j]? = some p) {pos : Nat}
    (hpos : rs[j]? = some (some pos)) :
    Placed aText p.pattern (if j = 0 then prev else rs.getD (j - 1) none) pos := by
  induction h generalizing j with
  | nil => cases hp
  | @cons prev p' ps r rs _ hplaced _ ih =>
    cases j with
    | zero =>
      obtain rfl := Option.some.inj hp
      exact hplaced pos (Option.some.inj hpos)
    | succ j =>
      have hrest := ih hp hpos
      cases j with
      | zero => exact hrest
      | succ j => exact hrest

/-- **The loop over the patterns.** The list has `pre` for those before, and is empty from there
    on. -/
theorem matchFrom_spec {aResumeOnNoMatch : Bool} (hne : ∀ p ∈ ps, p.pattern ≠ [])
    (hps : ∀ p ∈ ps, FindsIn p aText) (pre : ResultList) (found : Nat) :
    ∃ out, matchFrom aText aResumeOnNoMatch ps pre.length found
        (pre ++ List.replicate ps.length none) = some out ∧
      ((∃ rs, Places aText (prevPos pre pre.length) ps rs ∧
          out = (found + rs.countP Option.isSome, pre ++ rs) ∧
          (aResumeOnNoMatch = false → ∀ p ∈ ps, p.pattern <:+: aText)) ∨
        (aResumeOnNoMatch = false ∧ (∃ p ∈ ps, ¬ p.pattern <:+: aText) ∧
          out = (0, List.replicate (pre.length + ps.length) none))) := by
  induction ps generalizing pre found with
  | nil =>
    refine ⟨_, rfl, .inl ⟨[], .nil _, by simp, fun _ p hp => absurd hp List.not_mem_nil⟩⟩
  | cons p ps ih =>
    obtain ⟨r, hr, hfound, hplaced⟩ := place_spec (hne p List.mem_cons_self)
      (hps p List.mem_cons_self) (prevPos pre pre.length)
    have hprev : (if 0 < pre.length then
        (pre ++ List.replicate (p :: ps).length none).getD (pre.length - 1) none else none) =
        prevPos pre pre.length := by
      rw [prevPos]
      split
      · next hpos =>
        rw [List.getD_eq_getElem?_getD, List.getD_eq_getElem?_getD,
          List.getElem?_append_left (by omega)]
      · rfl
    have hlast : prevPos (pre ++ [r]) (pre ++ [r]).length = r := by
      simp [prevPos]
    have hset : (pre ++ List.replicate (p :: ps).length none).set pre.length r =
        pre ++ [r] ++ List.replicate ps.length none := by
      simp [List.replicate_succ, List.set_append_right]
    have hlen : (pre ++ [r]).length = pre.length + 1 := by simp
    obtain ⟨out, hout, hcases⟩ := ih (fun p hp => hne p (List.mem_cons_of_mem _ hp))
      (fun p hp => hps p (List.mem_cons_of_mem _ hp)) (pre ++ [r])
        (found + if r.isSome then 1 else 0)
    rw [hlast, hlen] at hcases
    rw [hlen] at hout
    have hgo : (r.isSome = true ∨ aResumeOnNoMatch = true) →
        (∃ rs, Places aText (prevPos pre pre.length) (p :: ps) rs ∧
          out = (found + rs.countP Option.isSome, pre ++ rs) ∧
          (aResumeOnNoMatch = false → ∀ x ∈ p :: ps, x.pattern <:+: aText)) ∨
        (aResumeOnNoMatch = false ∧ (∃ x ∈ p :: ps, ¬ x.pattern <:+: aText) ∧
          out = (0, List.replicate (pre.length + (p :: ps).length) none)) := by
      intro hor
      rcases hcases with ⟨rs, hplaces, rfl, hall⟩ | ⟨hres, ⟨p', hp', hnot⟩, rfl⟩
      · refine .inl ⟨r :: rs, .cons hfound hplaced hplaces, ?_, fun hres => ?_⟩
        · rw [List.countP_cons, List.append_assoc, List.singleton_append, Nat.add_assoc,
            Nat.add_comm (rs.countP _)]
        · refine List.forall_mem_cons.mpr ⟨hfound.mp (hor.resolve_right ?_), hall hres⟩
          rw [hres]
          decide
      · refine .inr ⟨hres, ⟨p', List.mem_cons_of_mem p hp', hnot⟩, ?_⟩
        rw [List.length_cons, Nat.add_assoc, Nat.add_comm 1]
    rw [matchFrom, hprev, hr, Option.bind_some]
    by_cases hsome : r.isSome = true
    · rw [if_pos hsome] at hout ⊢
      rw [hset]
      exact ⟨out, hout, hgo (.inl hsome)⟩
    · have hnone : r = none := Option.not_isSome_iff_eq_none.mp hsome
      rw [if_neg hsome] at hout ⊢
      cases hres : aResumeOnNoMatch with
      | true =>
        rw [if_pos rfl]
        refine ⟨out, ?_, hres ▸ hgo (.inr hres)⟩
        rw [hnone, hres] at hout
        rwa [List.length_cons, List.replicate_succ, List.append_cons]
      | false =>
        refine ⟨_, rfl, .inr ⟨rfl, ⟨p, List.mem_cons_self, fun hin => hsome (hfound.mpr hin)⟩, ?_⟩⟩
        simp

/-! ## What a loop that has returned has placed -/

theorem isSome_of_place {fuel : Nat} {addPos : Option Nat}
    (h : place p aText prev fuel addPos = some r)
    (hsome : addPos.isSome = true) : r.isSome = true := by
  induction fuel generalizing addPos with
  | zero => cases h
  | succ fuel ih =>
    rw [place, Option.bind_eq_some_iff] at h
    obtain ⟨curPos, -, h⟩ := h
    cases curPos with
    | none =>
      obtain rfl := Option.some.inj h
      exact hsome
    | some c =>
      rw [Option.elim_some] at h
      split at h
      · exact ih h rfl
      · obtain rfl := Option.some.inj h
        rfl

/-- A pattern is placed when its first search finds something. -/
theorem matchLower_of_place {fuel : Nat} (h : place p aText prev fuel none = some r) :
    ∃ r', p.matchLower aText 0 = some r' ∧ (r'.isSome = true ↔ r.isSome = true) := by
  cases fuel with
  | zero => cases h
  | succ fuel =>
    rw [place, Option.bind_eq_some_iff] at h
    obtain ⟨r', hr', h⟩ := h
    refine ⟨r', hr', ?_⟩
    cases r' with
    | none =>
      obtain rfl := Option.some.inj h
      rfl
    | some c =>
      refine iff_of_true rfl ?_
      rw [Option.elim_some] at h
      split at h
      · exact isSome_of_place h rfl
      · obtain rfl := Option.some.inj h
        rfl

/-- A loop that has returned has placed each pattern and counted those that are somewhere, or it has
    stopped at one that is nowhere and left nothing. -/
theorem matchFrom_placed {aResumeOnNoMatch : Bool} {out : Nat × ResultList} (pre : ResultList)
    (found : Nat)
    (h : matchFrom aText aResumeOnNoMatch ps pre.length found
      (pre ++ List.replicate ps.length none) = some out) :
    (∃ rs, out = (found + rs.countP Option.isSome, pre ++ rs) ∧
      List.Forall₂ (fun p r => ∃ prev fuel, place p aText prev fuel none = some r) ps rs) ∨
    (aResumeOnNoMatch = false ∧ out = (0, List.replicate (pre.length + ps.length) none)) := by
  induction ps generalizing pre found with
  | nil =>
    obtain rfl := Option.some.inj h
    exact .inl ⟨[], by simp, .nil⟩
  | cons p ps ih =>
    rw [matchFrom, Option.bind_eq_some_iff] at h
    obtain ⟨r, hr, h⟩ := h
    have hset : (pre ++ List.replicate (p :: ps).length none).set pre.length r =
        pre ++ [r] ++ List.replicate ps.length none := by
      simp [List.replicate_succ, List.set_append_right]
    have hlen : (pre ++ [r]).length = pre.length + 1 := by simp
    have hgo : matchFrom aText aResumeOnNoMatch ps (pre ++ [r]).length
        (found + if r.isSome then 1 else 0)
          (pre ++ [r] ++ List.replicate ps.length none) = some out →
        (∃ rs, out = (found + rs.countP Option.isSome, pre ++ rs) ∧
          List.Forall₂ (fun p r => ∃ prev fuel, place p aText prev fuel none = some r)
            (p :: ps) rs) ∨
        (aResumeOnNoMatch = false ∧
          out = (0, List.replicate (pre.length + (p :: ps).length) none)) := by
      intro hrest
      rcases ih (pre ++ [r]) _ hrest with ⟨rs, rfl, hall⟩ | ⟨hres, rfl⟩
      · refine .inl ⟨r :: rs, ?_, .cons ⟨_, _, hr⟩ hall⟩
        rw [List.countP_cons, List.append_assoc, List.singleton_append, Nat.add_assoc,
          Nat.add_comm (rs.countP _)]
      · refine .inr ⟨hres, ?_⟩
        rw [hlen, List.length_cons, Nat.add_assoc, Nat.add_comm 1]
    rw [hlen] at hgo
    by_cases hsome : r.isSome = true
    · rw [if_pos hsome, hset] at h
      rw [if_pos hsome] at hgo
      exact hgo h
    · have hnone : r = none := Option.not_isSome_iff_eq_none.mp hsome
      rw [if_neg hsome] at h hgo
      cases aResumeOnNoMatch with
      | true =>
        rw [if_pos rfl, List.length_cons, List.replicate_succ, List.append_cons] at h
        rw [hnone] at hgo
        exact hgo h
      | false =>
        obtain rfl := Option.some.inj h
        exact .inr ⟨rfl, by simp⟩

/-- A loop that has not stopped at a pattern has done the same as in resume mode. -/
theorem matchFrom_resume {out : Nat × ResultList} (pre : ResultList) (found : Nat)
    (h : matchFrom aText false ps pre.length found
      (pre ++ List.replicate ps.length none) = some out) :
    matchFrom aText true ps pre.length found (pre ++ List.replicate ps.length none) = some out ∨
      out = (0, List.replicate (pre.length + ps.length) none) := by
  induction ps generalizing pre found with
  | nil => exact .inl h
  | cons p ps ih =>
    rw [matchFrom, Option.bind_eq_some_iff] at h
    obtain ⟨r, hr, h⟩ := h
    have hset : (pre ++ List.replicate (p :: ps).length none).set pre.length r =
        pre ++ [r] ++ List.replicate ps.length none := by
      simp [List.replicate_succ, List.set_append_right]
    have hlen : (pre ++ [r]).length = pre.length + 1 := by simp
    rw [matchFrom, hr, Option.bind_some]
    by_cases hsome : r.isSome = true
    · rw [if_pos hsome, hset] at h ⊢
      rw [← hlen] at h ⊢
      refine (ih (pre ++ [r]) _ h).imp_right fun hout => ?_
      rw [hout, hlen, List.length_cons, Nat.add_assoc, Nat.add_comm 1]
    · rw [if_neg hsome, if_neg Bool.false_ne_true] at h
      obtain rfl := Option.some.inj h
      exact .inr (by simp)

end StringSearch

namespace Matching

open StringSearch

variable {locale : Locale} {u : OutOfRange} {patterns : List StringSearch.Pattern}
  {q q' : SearchQuery} {c : Call} {aText : Str} {aResumeOnNoMatch : Bool}

/-! ## One call -/

/-- What a call has returned goes together with the positions it has left. -/
structure Consistent (patterns : List StringSearch.Pattern) (c : Call) : Prop where
  length : c.results_.length = patterns.length
  count : c.returned = c.results_.countP Option.isSome
  resume : c.aResumeOnNoMatch = true →
    c.returned = patterns.countP fun p => decide (p.pattern <:+: c.aText)
  all : c.aResumeOnNoMatch = false →
    c.returned = if ∀ p ∈ patterns, p.pattern <:+: c.aText then patterns.length else 0
  placed : ∀ j p pos, patterns[j]? = some p → c.results_[j]? = some (some pos) →
    Placed c.aText p.pattern (prevPos c.results_ j) pos

theorem Consistent.empty (h : Consistent patterns c) (h0 : c.returned = 0) :
    c.results_ = List.replicate patterns.length none := by
  rw [List.eq_replicate_iff]
  refine ⟨h.length, fun r hr => ?_⟩
  have hcount := h.count
  rw [h0, eq_comm, List.countP_eq_zero] at hcount
  exact Option.not_isSome_iff_eq_none.mp (hcount r hr)

/-- As many are found as occur, and those that are found occur. -/
theorem occurs_of_countP {P : StringSearch.Pattern → Bool} {ps : List StringSearch.Pattern}
    {rs : ResultList} (h : List.Forall₂ (fun p r => r.isSome = true → P p = true) ps rs) :
    rs.countP Option.isSome ≤ ps.countP P ∧ (ps.countP P ≤ rs.countP Option.isSome →
      List.Forall₂ (fun p r => P p = true → r.isSome = true) ps rs) := by
  induction h with
  | nil => exact ⟨le_rfl, fun _ => .nil⟩
  | @cons p r ps rs hp _ ih =>
    obtain ⟨hle, hall⟩ := ih
    rw [List.countP_cons, List.countP_cons]
    cases hr : r.isSome with
    | true =>
      rw [hp hr]
      simp only [if_true]
      exact ⟨Nat.succ_le_succ hle, fun h => .cons (fun _ => hr) (hall (Nat.le_of_succ_le_succ h))⟩
    | false =>
      rw [if_neg Bool.false_ne_true]
      refine ⟨by omega, fun h => .cons (fun hPp => ?_) (hall (by omega))⟩
      rw [if_pos hPp] at h
      omega

/-- In resume mode, the patterns that have a position are those that occur. -/
theorem Consistent.occurs (h : Consistent patterns c) (hres : c.aResumeOnNoMatch = true) :
    List.Forall₂ (fun p r => r.isSome = true ↔ p.pattern <:+: c.aText) patterns c.results_ := by
  have hfound : List.Forall₂ (fun p r => r.isSome = true → decide (p.pattern <:+: c.aText) = true)
      patterns c.results_ := by
    refine List.forall₂_iff_get.mpr ⟨h.length.symm, fun j hj hj' hsome => ?_⟩
    obtain ⟨pos, hpos⟩ := Option.isSome_iff_exists.mp hsome
    refine decide_eq_true (h.placed j _ pos (List.getElem?_eq_getElem hj) ?_).isInfix
    rw [List.getElem?_eq_getElem hj']
    exact congrArg some hpos
  have hall := (occurs_of_countP hfound).2 (le_of_eq ((h.resume hres).symm.trans h.count))
  refine List.forall₂_iff_get.mpr ⟨h.length.symm, fun j hj hj' => ⟨fun hsome => ?_, fun hin => ?_⟩⟩
  · exact of_decide_eq_true ((List.forall₂_iff_get.mp hfound).2 j hj hj' hsome)
  · exact (List.forall₂_iff_get.mp hall).2 j hj hj' (decide_eq_true hin)

/-- **A call that begins with an empty list is consistent.** -/
theorem matchLower_consistent {s : StringSearch} (hne : ∀ p ∈ s.patterns, p.pattern ≠ [])
    (hfinds : ∀ p ∈ s.patterns, FindsIn p aText) (aResumeOnNoMatch : Bool) :
    ∃ r, s.matchLower aText aResumeOnNoMatch (List.replicate s.count none) = some r ∧
      Consistent s.patterns ⟨aText, aResumeOnNoMatch, r.1, r.2⟩ := by
  obtain ⟨r, hr, hcases⟩ := @matchFrom_spec aText s.patterns aResumeOnNoMatch hne hfinds [] 0
  refine ⟨r, hr, ?_⟩
  rcases hcases with ⟨rs, hplaces, rfl, hall⟩ | ⟨hres, ⟨p, hp, hnot⟩, rfl⟩
  · rw [Nat.zero_add, List.nil_append]
    refine ⟨hplaces.length_eq, rfl, fun _ => hplaces.countP_eq, fun hres => ?_, ?_⟩
    · rw [if_pos (hall hres)]
      exact hplaces.countP_eq.trans (List.countP_eq_length.mpr fun p hp => decide_eq_true
        (hall hres p hp))
    · intro j p pos hp hpos
      have hplaced := hplaces.placed_at hp hpos
      cases j with
      | zero => exact hplaced
      | succ j => exact hplaced
  · rw [List.length_nil, Nat.zero_add]
    refine ⟨List.length_replicate .., ?_, fun h => ?_, fun _ => ?_, ?_⟩
    · refine (List.countP_eq_zero.mpr fun r hr => ?_).symm
      rw [List.eq_of_mem_replicate hr]
      decide
    · rw [show aResumeOnNoMatch = true from h] at hres
      cases hres
    · rw [if_neg fun hall => hnot (hall p hp)]
    · intro j p pos _ hpos
      have hmem := List.eq_of_mem_replicate (List.mem_of_getElem? hpos)
      cases hmem

/-! ## Runs -/

/-- What is done with a query. `setRecursion` sets the pointer. -/
inductive Operation
  | matchesAnyDirectoryLower (aName : Str)
  | matchesFileLower (aName : Str) (aSize aDate : Int)
  | matchesAdcPath (aPath : Str)
  | setRecursion (recursion : Option Recursion)

def Operation.apply (locale : Locale) (u : OutOfRange) :
    Operation → SearchQuery → Option SearchQuery
  | .matchesAnyDirectoryLower aName, q => (q.matchesAnyDirectoryLower aName).map (·.2)
  | .matchesFileLower aName aSize aDate, q => (q.matchesFileLower u aName aSize aDate).map (·.2)
  | .matchesAdcPath aPath, q => (q.matchesAdcPath locale u aPath).map (·.2)
  | .setRecursion recursion, q => some { q with recursion := recursion }

def run (locale : Locale) (u : OutOfRange) : List Operation → SearchQuery → Option SearchQuery
  | [], q => some q
  | op :: ops, q => (op.apply locale u q).bind (run locale u ops)

/-- What is true of the positions between two operations. -/
structure Settled (patterns : List StringSearch.Pattern) (q : SearchQuery) : Prop where
  patterns_eq : q.include_.patterns = patterns
  length : q.lastIncludePositions.length = patterns.length
  empty : q.lastIncludeMatches = 0 → q.lastIncludePositions = List.replicate patterns.length none

/-- And all calls were consistent. -/
structure Ready (patterns : List StringSearch.Pattern) (q : SearchQuery) : Prop extends
    Settled patterns q where
  calls : ∀ c ∈ q.calls, Consistent patterns c

theorem Settled.resetPositions (h : Settled patterns q) :
    q.resetPositions.lastIncludePositions = List.replicate q.include_.count none := by
  rw [count, h.patterns_eq, SearchQuery.resetPositions]
  split
  · rw [h.length]
  · next hzero => exact h.empty (Nat.eq_zero_of_not_pos hzero)

/-- **A match settles the positions**, whatever the patterns are. -/
theorem Settled.of_matchInclude (h : Settled patterns q)
    (hmatch : q.matchInclude aText aResumeOnNoMatch = some q') :
    Settled patterns q' ∧ q'.exclude = q.exclude := by
  have hpatterns := h.patterns_eq
  subst hpatterns
  rw [SearchQuery.matchInclude, h.resetPositions] at hmatch
  obtain ⟨r, hr, rfl⟩ := Option.map_eq_some_iff.mp hmatch
  refine ⟨⟨rfl, ?_, fun h0 => ?_⟩, rfl⟩
  · rcases matchFrom_placed [] 0 hr with ⟨rs, rfl, hplaced⟩ | ⟨-, rfl⟩
    · exact hplaced.length_eq.symm
    · simp
  · rcases matchFrom_placed [] 0 hr with ⟨rs, rfl, hplaced⟩ | ⟨-, rfl⟩
    · have hcount : 0 + rs.countP Option.isSome = 0 := h0
      rw [Nat.zero_add, List.countP_eq_zero] at hcount
      rw [List.eq_replicate_iff]
      exact ⟨hplaced.length_eq.symm, fun r hr => Option.not_isSome_iff_eq_none.mp (hcount r hr)⟩
    · simp

/-- **A match is consistent** when the patterns are found in the text. -/
theorem Settled.matchInclude (h : Settled patterns q) (hne : ∀ p ∈ patterns, p.pattern ≠ [])
    (hfinds : ∀ p ∈ patterns, FindsIn p aText) (aResumeOnNoMatch : Bool) :
    ∃ c : Call, Consistent patterns c ∧ c.aText = aText ∧ c.aResumeOnNoMatch = aResumeOnNoMatch ∧
      q.matchInclude aText aResumeOnNoMatch = some { q with
        lastIncludeMatches := c.returned
        lastIncludePositions := c.results_
        calls := q.calls ++ [c] } := by
  have hpatterns := h.patterns_eq
  subst hpatterns
  obtain ⟨r, hr, hc⟩ := matchLower_consistent hne hfinds aResumeOnNoMatch
  rw [SearchQuery.matchInclude, h.resetPositions, hr]
  exact ⟨_, hc, rfl, rfl, rfl⟩

/-- What one part of an operation does: it keeps the invariant and what is excluded, and it returns
    if `ok`. -/
structure Keeps (I : SearchQuery → Prop) (exclude : StringSearch) (ok : Prop)
    (x : Option SearchQuery) : Prop where
  ready : ∀ q ∈ x, I q ∧ q.exclude = exclude
  isSome : ok → x.isSome = true

variable {I : SearchQuery → Prop} {exclude : StringSearch} {ok ok' ret : Prop}
  {x : Option SearchQuery}

theorem Keeps.some (h : I q) : Keeps I q.exclude ok (some q) := by
  refine ⟨fun q' hq' => ?_, fun _ => rfl⟩
  obtain rfl := Option.some.inj (Option.mem_def.mp hq')
  exact ⟨h, rfl⟩

theorem Keeps.congr {exclude' : StringSearch} (h : Keeps I exclude ok x)
    (he : exclude = exclude') : Keeps I exclude' ok x := he ▸ h

theorem Keeps.imp (h : Keeps I exclude ok x) (himp : ok' → ok) : Keeps I exclude ok' x :=
  ⟨h.ready, fun hok => h.isSome (himp hok)⟩

/-- What comes next keeps it for what comes first. -/
theorem Keeps.bind {f : SearchQuery → Option SearchQuery} (hx : Keeps I exclude ok x)
    (hf : ∀ q, I q → q.exclude = exclude → Keeps I exclude ok (f q)) :
    Keeps I exclude ok (x.bind f) := by
  refine ⟨fun q' hq' => ?_, fun hok => ?_⟩
  · obtain ⟨q, hq, hq'⟩ := Option.bind_eq_some_iff.mp (Option.mem_def.mp hq')
    obtain ⟨hready, hexclude⟩ := hx.ready q hq
    exact (hf q hready hexclude).ready q' hq'
  · obtain ⟨q, hq⟩ := Option.isSome_iff_exists.mp (hx.isSome hok)
    obtain ⟨hready, hexclude⟩ := hx.ready q hq
    rw [hq, Option.bind_some]
    exact (hf q hready hexclude).isSome hok

/-- Points are counted if undefined reads give something. -/
theorem isSome_toPointList (hu : u.Total) (q : SearchQuery) (aName : Str) :
    (q.toPointList u aName).isSome = true := by
  have hread : ∀ i, (SearchQuery.readName u aName i).isSome = true := by
    intro i
    rw [SearchQuery.readName, Option.isSome_or, hu.byte, Bool.or_true]
  have hseparator : ∀ c i, (SearchQuery.separatorPoints u aName c i).isSome = true := by
    intro c i
    rw [SearchQuery.separatorPoints]
    split
    · rfl
    · rw [Option.isSome_map, hread]
  refine Lib.isSome_mapM fun i _ => ?_
  cases i.2 with
  | none => rfl
  | some pos =>
    rw [Option.elim_some, Option.isSome_map, SearchQuery.pointsAt]
    have hbefore : (if pos = 0 then Option.some (20 : Int)
        else SearchQuery.separatorPoints u aName (i.1.pattern.headD 0) (pos - 1)).isSome =
          true := by
      split
      · rfl
      · exact hseparator _ _
    obtain ⟨before, hbefore⟩ := Option.isSome_iff_exists.mp hbefore
    rw [hbefore, Option.bind_some, Option.isSome_map]
    split
    · rfl
    · exact hseparator _ _

theorem matchComponents_cons (s s' : Str) (sl : List Str) :
    q.matchComponents locale u (s :: s' :: sl) =
      ((q.matchInclude (Text.toLower locale s) true).bind fun q => q.keepMatches u s).bind fun q =>
        SearchQuery.matchComponents locale u (s' :: sl)
          { q with recursion := q.recursion.map (·.increase s.length) } :=
  rfl

/-- What an invariant may be about: the patterns, what a match leaves, and the calls. -/
structure AboutMatches (I : SearchQuery → Prop) : Prop where
  congr : ∀ q q' : SearchQuery, I q → q'.include_ = q.include_ →
    q'.lastIncludePositions = q.lastIncludePositions →
      q'.lastIncludeMatches = q.lastIncludeMatches →
    q'.calls = q.calls → I q'

theorem Settled.aboutMatches : AboutMatches (Settled patterns) := by
  refine ⟨fun q q' h hinclude hpositions hmatches _ => ⟨?_, ?_, ?_⟩⟩
  · rw [hinclude, h.patterns_eq]
  · rw [hpositions, h.length]
  · rw [hpositions, hmatches]
    exact h.empty

theorem Ready.aboutMatches : AboutMatches (Ready patterns) := by
  refine ⟨fun q q' h hinclude hpositions hmatches hcalls => ⟨?_, ?_⟩⟩
  · exact Settled.aboutMatches.congr q q' h.toSettled hinclude hpositions hmatches hcalls
  · rw [hcalls]
    exact h.calls

/-! An invariant that each match keeps, and what a run does with it. A match returns if `ret`. -/

section Operations

variable (hI : AboutMatches I)
  (hmatch : ∀ q, I q → ∀ aText aResumeOnNoMatch,
    Keeps I q.exclude ret (q.matchInclude aText aResumeOnNoMatch))

include hI

theorem AboutMatches.setRecursion (h : I q) (recursion : Option Recursion) :
    I { q with recursion := recursion } := hI.congr q _ h rfl rfl rfl rfl

theorem AboutMatches.hasExt (h : I q) (name : Str) :
    I (q.hasExt name).2 ∧ (q.hasExt name).2.exclude = q.exclude := by
  rw [SearchQuery.hasExt]
  split
  · exact ⟨h, rfl⟩
  · dsimp only
    split
    · exact ⟨h, rfl⟩
    · exact ⟨hI.congr q _ h rfl rfl rfl rfl, rfl⟩

theorem keeps_checkFile (h : I q) (aName : Str) :
    Keeps I q.exclude (∀ aText, (q.exclude.match_any_lower aText).isSome = true)
      ((q.checkFile aName).map (·.2)) := by
  obtain ⟨hready, hexclude⟩ := hI.hasExt h aName
  rw [SearchQuery.checkFile]
  split
  · refine ⟨fun q' hq' => ?_, fun hok => ?_⟩
    · rw [Option.map_map] at hq'
      obtain ⟨b, -, rfl⟩ := Option.map_eq_some_iff.mp (Option.mem_def.mp hq')
      exact ⟨hready, hexclude⟩
    · rw [Option.isSome_map, Option.isSome_map, SearchQuery.isExcludedLower, hexclude]
      exact hok aName
  · exact (Keeps.some hready).congr hexclude

theorem keeps_keepMatches (h : I q) (s : Str) : Keeps I q.exclude u.Total (q.keepMatches u s) := by
  rw [SearchQuery.keepMatches]
  split
  · refine ⟨fun q' hq' => ?_, fun hu => ?_⟩
    · obtain ⟨r, -, rfl⟩ := Option.map_eq_some_iff.mp (Option.mem_def.mp hq')
      exact ⟨hI.setRecursion h _, rfl⟩
    · rw [Option.isSome_map, SearchQuery.newRecursion, Option.isSome_map]
      exact isSome_toPointList hu q s
  · exact Keeps.some h

include hmatch

theorem keeps_matchComponents (h : I q) (sl : List Str) :
    Keeps I q.exclude (ret ∧ u.Total) (q.matchComponents locale u sl) := by
  induction sl generalizing q with
  | nil => exact Keeps.some h
  | cons s sl ih =>
    cases sl with
    | nil => exact (hmatch q h _ true).imp And.left
    | cons s' sl =>
      rw [matchComponents_cons]
      refine (((hmatch q h (Text.toLower locale s) true).imp And.left).bind ?_).bind ?_
      · exact fun q h he => ((keeps_keepMatches hI h s).imp And.right).congr he
      · exact fun q h he => (ih (hI.setRecursion h _)).congr he

theorem keeps_matchesFileLower (h : I q) (aName : Str) (aSize aDate : Int) :
    Keeps I q.exclude (ret ∧ u.Total ∧ ∀ aText, (q.exclude.match_any_lower aText).isSome = true)
      ((q.matchesFileLower u aName aSize aDate).map (·.2)) := by
  rw [SearchQuery.matchesFileLower]
  split
  · exact Keeps.some h
  · rw [Option.map_bind]
    cases hexact : (if q.matchType = MATCH_NAME_EXACT then (q.frontPattern u).map (· == aName)
        else Option.some true) with
    | none =>
      refine ⟨fun q' hq' => (by cases hq'), fun hok => ?_⟩
      split at hexact
      · rw [Option.map_eq_none_iff, SearchQuery.frontPattern, Option.or_eq_none_iff] at hexact
        have hfront := hok.2.1.front
        rw [hexact.2] at hfront
        cases hfront
      · cases hexact
    | some exact =>
      rw [Option.bind_some]
      dsimp only [Function.comp]
      split
      · rw [Option.map_bind]
        refine ((hmatch q h aName q.recursion.isSome).imp And.left).bind fun q₁ h₁ he₁ => ?_
        dsimp only [Function.comp]
        split
        · have hcheck := (keeps_checkFile hI h₁ aName).congr he₁
          rw [he₁] at hcheck
          exact hcheck.imp fun hok => hok.2.2
        · exact (Keeps.some h₁).congr he₁
      · exact Keeps.some h

/-- **An operation keeps the invariant.** It returns if undefined reads give something and searches
    for what is excluded return. -/
theorem keeps_apply (h : I q) (op : Operation) :
    Keeps I q.exclude (ret ∧ u.Total ∧ ∀ aText, (q.exclude.match_any_lower aText).isSome = true)
      (op.apply locale u q) := by
  cases op with
  | matchesAnyDirectoryLower aName =>
    rw [Operation.apply, SearchQuery.matchesAnyDirectoryLower]
    split
    · exact Keeps.some h
    · rw [Option.map_map, Function.comp_def, Option.map_id']
      exact (hmatch q h aName true).imp And.left
  | matchesFileLower aName aSize aDate => exact keeps_matchesFileLower hI hmatch h aName aSize aDate
  | matchesAdcPath aPath =>
    rw [Operation.apply, SearchQuery.matchesAdcPath]
    split
    · exact Keeps.some h
    · rw [Option.map_map, Function.comp_def, Option.map_id']
      exact (keeps_matchComponents hI hmatch h _).imp fun hok => ⟨hok.1, hok.2.1⟩
  | setRecursion recursion => exact Keeps.some (hI.setRecursion h recursion)

/-- **A run keeps the invariant.** -/
theorem keeps_run (h : I q) (ops : List Operation) :
    Keeps I q.exclude (ret ∧ u.Total ∧ ∀ aText, (q.exclude.match_any_lower aText).isSome = true)
      (run locale u ops q) := by
  induction ops generalizing q with
  | nil => exact Keeps.some h
  | cons op ops ih =>
    refine (keeps_apply hI hmatch h op).bind fun q₁ h₁ he₁ => ?_
    have hrest := (ih h₁).congr he₁
    rwa [he₁] at hrest

end Operations

/-- **The positions are settled between two operations**, whatever the patterns are. -/
theorem Settled.run (h : Settled patterns q) {ops : List Operation}
    (hrun : run locale u ops q = some q') : Settled patterns q' := by
  have hmatch : ∀ q, Settled patterns q → ∀ aText aResumeOnNoMatch,
      Keeps (Settled patterns) q.exclude False (q.matchInclude aText aResumeOnNoMatch) :=
    fun q h aText aResumeOnNoMatch =>
      ⟨fun q' hq' => h.of_matchInclude (Option.mem_def.mp hq'), False.elim⟩
  exact ((keeps_run Settled.aboutMatches hmatch h ops).ready q' hrun).1

/-- **Calls are consistent** when the patterns are found in all texts. -/
theorem Ready.keeps_matchInclude (hne : ∀ p ∈ patterns, p.pattern ≠ [])
    (hfinds : ∀ p ∈ patterns, ∀ aText, FindsIn p aText) (h : Ready patterns q) (aText : Str)
    (aResumeOnNoMatch : Bool) :
    Keeps (Ready patterns) q.exclude True (q.matchInclude aText aResumeOnNoMatch) := by
  obtain ⟨c, hc, -, -, hq'⟩ :=
    h.toSettled.matchInclude hne (fun p hp => hfinds p hp aText) aResumeOnNoMatch
  rw [hq']
  refine ⟨fun q' hmem => ?_, fun _ => rfl⟩
  obtain rfl := Option.some.inj (Option.mem_def.mp hmem)
  refine ⟨⟨⟨h.patterns_eq, hc.length, hc.empty⟩, fun c' hmem => ?_⟩, rfl⟩
  rcases List.mem_append.mp hmem with hmem | hmem
  · exact h.calls c' hmem
  · rwa [List.mem_singleton.mp hmem]

/-! ## When runs are consistent -/

/-- The patterns for the terms. -/
def includeOf (locale : Locale) (terms : List Str) : StringSearch :=
  terms.foldl (fun s i => s.addString locale i) {}

/-- A query before its first operation. -/
structure Prepared (q : SearchQuery) : Prop where
  positions : q.lastIncludePositions = List.replicate q.include_.count none
  matches_ : q.lastIncludeMatches = 0
  calls : q.calls = []

/-- Each call in a run is consistent; and the run returns if undefined reads give something and
    searches for what is excluded return. -/
structure RunsWell (locale : Locale) (u : OutOfRange) (ops : List Operation) (q : SearchQuery) :
    Prop where
  consistent : ∀ q' ∈ run locale u ops q, ∀ c ∈ q'.calls, Consistent q.include_.patterns c
  returns : u.Total → (∀ aText, (q.exclude.match_any_lower aText).isSome = true) →
    (run locale u ops q).isSome = true

theorem Prepared.ready (h : Prepared q) : Ready q.include_.patterns q := by
  refine ⟨⟨rfl, ?_, fun _ => h.positions⟩, fun c hc => ?_⟩
  · rw [h.positions]
    exact List.length_replicate ..
  · rw [h.calls] at hc
    exact absurd hc List.not_mem_nil

theorem mem_includeOf {terms : List Str} {p : StringSearch.Pattern}
    (hp : p ∈ (includeOf locale terms).patterns) : ∃ s ≠ [], p = Pattern.new locale s := by
  have hfold : ∀ (terms : List Str) (s : StringSearch),
      p ∈ (terms.foldl (fun s i => s.addString locale i) s).patterns →
        p ∈ s.patterns ∨ ∃ s ≠ [], p = Pattern.new locale s := by
    intro terms
    induction terms with
    | nil => exact fun s h => .inl h
    | cons i terms ih =>
      intro s h
      rcases ih _ h with h | h
      · simp only [addString] at h
        split at h
        · exact .inl h
        · next hne =>
          rcases List.mem_append.mp h with h | h
          · exact .inl h
          · refine .inr ⟨_, Pattern.toLower_ne_nil ?_, List.mem_singleton.mp h⟩
            rwa [List.isEmpty_iff] at hne
      · exact .inr h
  exact (hfold terms {} hp).resolve_left List.not_mem_nil

/-- A searchable pattern of a term is found where it occurs. -/
theorem findsIn_of_searchable {s : Str} (hs : s ≠ [])
    (h : Pattern.Searchable (Pattern.new locale s).pattern (Pattern.new locale s).plen)
    (aText : Str) : FindsIn (Pattern.new locale s) aText :=
  fun start => Pattern.matchLower_of_searchable Pattern.new_delta1 h (List.length_pos_iff.mpr hs)
    aText start

/-- **A pattern is detected** when calls in resume mode are consistent. -/
theorem detects_of_consistent {s : StringSearch}
    (h : ∀ aText, ∃ r, s.matchLower aText true (List.replicate s.count none) = some r ∧
      Consistent s.patterns ⟨aText, true, r.1, r.2⟩) :
    ∀ p ∈ s.patterns, p.Detects := by
  intro p hp aText
  obtain ⟨r, hr, hc⟩ := h aText
  obtain ⟨rs, hrs, hplaced⟩ := (matchFrom_placed [] 0 hr).resolve_right fun h => (by cases h.1)
  have hoccurs := hc.occurs rfl
  rw [hrs, List.nil_append] at hoccurs
  obtain ⟨j, hj, rfl⟩ := List.getElem_of_mem hp
  have hj' : j < rs.length := by rwa [← hplaced.length_eq]
  obtain ⟨prev, fuel, hplace⟩ := (List.forall₂_iff_get.mp hplaced).2 j hj hj'
  obtain ⟨r', hr', hiff⟩ := matchLower_of_place hplace
  exact ⟨r', Pattern.matchLower_eq_some_iff.mp hr',
    hiff.trans ((List.forall₂_iff_get.mp hoccurs).2 j hj hj')⟩

/-- **Runs are consistent exactly when the patterns are searchable.** -/
theorem run_consistent_iff (locale : Locale) (terms : List Str) :
    (∀ q : SearchQuery, q.include_ = includeOf locale terms → Prepared q →
      ∀ u ops, RunsWell locale u ops q) ↔
    ∀ p ∈ (includeOf locale terms).patterns, Pattern.Searchable p.pattern p.plen := by
  constructor
  · intro h p hp
    obtain ⟨s, hs, rfl⟩ := mem_includeOf hp
    refine Pattern.searchable_of_detects Pattern.new_delta1 (Pattern.toLower_ne_nil hs)
      (detects_of_consistent (fun aText => ?_) _ hp)
    have hrun := h { include_ := includeOf locale terms
                     lastIncludePositions := List.replicate (includeOf locale terms).count none }
      rfl ⟨rfl, rfl, rfl⟩ ⟨some 0, some []⟩ [.matchesAnyDirectoryLower aText]
    obtain ⟨q', hq'⟩ := Option.isSome_iff_exists.mp (hrun.returns ⟨rfl, rfl⟩ fun _ => rfl)
    have hcalls := hrun.consistent q' hq'
    obtain ⟨q₁, hq₁, hq'⟩ := Option.bind_eq_some_iff.mp hq'
    obtain rfl := Option.some.inj hq'
    obtain ⟨r₁, hr₁, rfl⟩ := Option.map_eq_some_iff.mp hq₁
    obtain ⟨q₂, hq₂, rfl⟩ := Option.map_eq_some_iff.mp hr₁
    obtain ⟨r, hr, rfl⟩ := Option.map_eq_some_iff.mp hq₂
    exact ⟨r, hr, hcalls _ (List.mem_append_right _ (List.mem_singleton.mpr rfl))⟩
  · intro hs q hq hprepared u ops
    have hne : ∀ p ∈ q.include_.patterns, p.pattern ≠ [] := by
      intro p hp
      obtain ⟨s, hne, rfl⟩ := mem_includeOf (hq ▸ hp)
      exact Pattern.toLower_ne_nil hne
    have hfinds : ∀ p ∈ q.include_.patterns, ∀ aText, FindsIn p aText := by
      intro p hp
      rw [hq] at hp
      obtain ⟨s, hne, rfl⟩ := mem_includeOf hp
      exact findsIn_of_searchable hne (hs _ hp)
    have hkeeps := @keeps_run locale u q _ True Ready.aboutMatches
      (fun q h => h.keeps_matchInclude hne hfinds) hprepared.ready ops
    exact ⟨fun q' hq' => (hkeeps.ready q' hq').1.calls,
      fun hu he => hkeeps.isSome ⟨trivial, hu, he⟩⟩

/-- The term `a\0b` is counted in the name `axx`. -/
theorem run_null_byte : ¬ ∀ (locale : Locale) (terms : List Str) (q : SearchQuery),
    q.include_ = includeOf locale terms → Prepared q → ∀ u ops, RunsWell locale u ops q := by
  intro h
  let locale : Locale := ⟨id, fun s _ => s⟩
  let q : SearchQuery :=
    { include_ := includeOf locale [[0x61, 0, 0x62]], lastIncludePositions := [none] }
  have hrun := h locale [[0x61, 0, 0x62]] q rfl ⟨rfl, rfl, rfl⟩ ⟨some 0, some []⟩
    [.matchesAnyDirectoryLower (str "axx")]
  have hcalls : (run locale ⟨some 0, some []⟩ [.matchesAnyDirectoryLower (str "axx")] q).map
    (·.calls) =
      some [⟨str "axx", true, 1, [some 0]⟩] := by decide +kernel
  obtain ⟨q', hq', hc⟩ := Option.map_eq_some_iff.mp hcalls
  have hconsistent := hrun.consistent q' hq' ⟨str "axx", true, 1, [some 0]⟩ (by rw [hc]; simp)
  exact absurd (hconsistent.resume rfl) (by decide +kernel)

end Matching
end Airdcpp
