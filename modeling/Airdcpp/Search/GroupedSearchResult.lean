import Airdcpp.Lib.StrictWeak
import Airdcpp.Search.SearchInstance

/-!
# `Search/GroupedSearchResult` — the oldest date of a group

The results of a group stand in the order they arrived in. A client that tells no date leaves it at
0, and a date that is 0 is never smaller than another (`DateOrder`). Nothing is smaller than it
either, since the other date has to be below it: `min_element` then stays at a result without a date
when it starts there.

So the answer is the oldest known date when the first result has a date, or when none has one
(`getOldestDate_iff`). The comparison itself sorts results without a date last only where there is
nothing to sort.
-/

namespace Airdcpp

open Lib

namespace SearchResult

/-- "The oldest date will go first (min element). Results without a date will go last." -/
def DateOrder (a b : SearchResult) : Bool := decide (0 < a.date) && decide (a.date < b.date)

theorem dateOrder_iff {a b : SearchResult} :
    DateOrder a b = true ↔ 0 < a.date ∧ a.date < b.date := by simp [DateOrder]

/-- Nothing goes before a result without a date. -/
theorem dateOrder_unknown {a b : SearchResult} (hb : b.date = 0) : DateOrder a b = false := by
  rw [← Bool.not_eq_true, dateOrder_iff]
  omega

end SearchResult

namespace GroupedSearchResult

open SearchResult

/-- `none` is the end of an empty list. -/
def getOldestDate (g : GroupedSearchResult) : Option Int :=
  (minElement DateOrder g.children).map SearchResult.date

/-- The smallest date that is known, 0 if there is none. -/
def IsOldestDate (children : List SearchResult) (d : Int) : Prop :=
  (0 < d ∧ (∃ c ∈ children, c.date = d) ∧ ∀ c ∈ children, 0 < c.date → d ≤ c.date) ∨
    d = 0 ∧ ∀ c ∈ children, ¬ 0 < c.date

/-- The comparison sorts the results, and those without a date come after the others. -/
def UnknownLast (children : List SearchResult) : Prop :=
  StrictWeakOn {c | c ∈ children} (fun a b => DateOrder a b = true) ∧
    ∀ a ∈ children, ∀ b ∈ children, 0 < a.date → b.date = 0 → DateOrder a b = true

variable {g : GroupedSearchResult} {r : SearchResult} {rs : List SearchResult}

/-! ## Where the search starts -/

/-- A first result without a date stays. -/
theorem minFrom_unknown (hr : r.date = 0) : minFrom DateOrder r rs = r :=
  minFrom_eq_self fun _ _ => dateOrder_unknown hr

/-- From a known date the search only goes to older ones that are known. -/
theorem minFrom_known (hr : 0 < r.date) :
    0 < (minFrom DateOrder r rs).date ∧
      ∀ c ∈ r :: rs, 0 < c.date → (minFrom DateOrder r rs).date ≤ c.date := by
  induction rs generalizing r with
  | nil =>
    refine ⟨hr, fun c hc _ => ?_⟩
    rw [List.mem_singleton.mp hc]
    exact Int.le_refl r.date
  | cons x xs ih =>
    rw [minFrom]
    cases hless : DateOrder x r with
    | true =>
      obtain ⟨hx, hlt⟩ := dateOrder_iff.mp hless
      obtain ⟨hpos, hmin⟩ := ih hx
      refine ⟨hpos, fun c hc hknown => ?_⟩
      rcases List.mem_cons.mp hc with rfl | hc
      · exact Int.le_trans (hmin x List.mem_cons_self hx) (Int.le_of_lt hlt)
      · exact hmin c hc hknown
    | false =>
      obtain ⟨hpos, hmin⟩ := ih hr
      refine ⟨hpos, fun c hc hknown => ?_⟩
      rcases List.mem_cons.mp hc with rfl | hc
      · exact hmin c List.mem_cons_self hknown
      rcases List.mem_cons.mp hc with rfl | hc
      · have hle : r.date ≤ c.date := by
          rw [← Bool.not_eq_true, dateOrder_iff] at hless
          exact Int.not_lt.mp fun hlt => hless ⟨hknown, hlt⟩
        exact Int.le_trans (hmin r List.mem_cons_self hr) hle
      · exact hmin c (List.mem_cons_of_mem r hc) hknown

theorem getOldestDate_cons (hchildren : g.children = r :: rs) :
    g.getOldestDate = some (minFrom DateOrder r rs).date := by
  rw [getOldestDate, hchildren, minElement, Option.map_some]

/-- **The result is the oldest date** exactly when the first result has one, or none has. -/
theorem isOldestDate_minFrom_iff (hdates : ∀ c ∈ r :: rs, 0 ≤ c.date) :
    IsOldestDate (r :: rs) (minFrom DateOrder r rs).date ↔
      0 < r.date ∨ ∀ c ∈ r :: rs, c.date = 0 := by
  rcases (hdates r List.mem_cons_self).eq_or_lt with hr | hr
  · rw [minFrom_unknown hr.symm, ← hr]
    simp only [IsOldestDate, lt_irrefl, false_and, false_or, true_and]
    refine forall₂_congr fun c hc => ?_
    have := hdates c hc
    omega
  · obtain ⟨hpos, hmin⟩ := @minFrom_known r rs hr
    exact iff_of_true (.inl ⟨hpos, ⟨_, minFrom_mem, rfl⟩, hmin⟩) (.inl hr)

/-! ## The comparison as an order -/

/-- **The comparison puts results without a date last** exactly when all have one or none has. -/
theorem unknownLast_iff {children : List SearchResult} (hdates : ∀ c ∈ children, 0 ≤ c.date) :
    UnknownLast children ↔
      (∀ c ∈ children, 0 < c.date) ∨ ∀ c ∈ children, c.date = 0 := by
  constructor
  · rintro ⟨-, hlast⟩
    by_contra hmixed
    push Not at hmixed
    obtain ⟨⟨b, hb, hunknown⟩, a, ha, hknown⟩ := hmixed
    have hb0 : b.date = 0 := le_antisymm hunknown (hdates b hb)
    have hpos : 0 < a.date := lt_of_le_of_ne (hdates a ha) (Ne.symm hknown)
    exact absurd (hlast a ha b hb hpos hb0) (by simp [dateOrder_unknown hb0])
  · intro h
    refine ⟨strictWeakOn_of_key SearchResult.date fun a ha b hb => ?_, fun a ha b hb hpos h0 => ?_⟩
    · rw [dateOrder_iff]
      rcases h with h | h
      · exact and_iff_right (h a ha)
      · rw [h a ha, h b hb]
        simp
    · rcases h with h | h
      · exact absurd (h b hb) (by omega)
      · exact absurd (h a ha) (by omega)

/-! ## The oldest date -/

/-- **`getOldestDate` returns the oldest known date exactly when the result that arrived first has a
    date, or no result has one**; the comparison is the order it is meant to be exactly when all
    results have a date, or none has. -/
theorem getOldestDate_iff (hchildren : g.children = r :: rs)
    (hdates : ∀ c ∈ g.children, 0 ≤ c.date) :
    ((∃ d, g.getOldestDate = some d ∧ IsOldestDate g.children d) ↔
      0 < r.date ∨ ∀ c ∈ g.children, c.date = 0) ∧
    (UnknownLast g.children ↔
      (∀ c ∈ g.children, 0 < c.date) ∨ ∀ c ∈ g.children, c.date = 0) := by
  refine ⟨?_, unknownLast_iff hdates⟩
  rw [hchildren] at hdates ⊢
  rw [← isOldestDate_minFrom_iff hdates]
  constructor
  · rintro ⟨d, hd, holdest⟩
    rw [getOldestDate_cons hchildren, Option.some.injEq] at hd
    rwa [hd]
  · exact fun h => ⟨_, getOldestDate_cons hchildren, h⟩

/-- A result of the user with the number, with the date. -/
def datedResult (user : UInt8) (date : Int) : SearchResult :=
  { tth := Vector.replicate 24 1, user := ⟨Vector.replicate 24 user, []⟩, date := date }

theorem getOldestDate_three :
    ∃ d, (⟨Vector.replicate 24 1, [datedResult 1 30, datedResult 2 0, datedResult 3 20]⟩ :
        GroupedSearchResult).getOldestDate = some d ∧
      IsOldestDate [datedResult 1 30, datedResult 2 0, datedResult 3 20] d :=
  (getOldestDate_iff (g := ⟨Vector.replicate 24 1,
    [datedResult 1 30, datedResult 2 0, datedResult 3 20]⟩) rfl (by decide)).1.mpr
    (.inl (by decide))

/-- The first result has no date, the second has. -/
theorem getOldestDate_unknown_first :
    ¬ ∀ g : GroupedSearchResult, g.children ≠ [] → (∀ c ∈ g.children, 0 ≤ c.date) →
      ∃ d, g.getOldestDate = some d ∧ IsOldestDate g.children d := by
  intro h
  obtain ⟨d, hd, holdest⟩ :=
    h ⟨Vector.replicate 24 1, [datedResult 1 0, datedResult 2 5]⟩ (by decide) (by decide)
  have hzero : d = 0 := by
    rw [getOldestDate_cons rfl, minFrom_unknown rfl, Option.some.injEq] at hd
    exact hd.symm
  rcases holdest with ⟨hpos, -⟩ | ⟨-, hnone⟩
  · omega
  · exact hnone (datedResult 2 5) (by simp) (by decide)

end GroupedSearchResult
end Airdcpp
