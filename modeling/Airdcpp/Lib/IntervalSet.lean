import Mathlib

/-!
# `Lib/IntervalSet` — lists of half-open intervals, and the points they cover

Any type `ι` with two ends `lo hi : ι → β` in a linear order is a type of half-open intervals.
`covered` is what a list of them means; `Canonical` is the one shape every covered set has at
most one list in: intervals that are non-empty, in order, and neither overlap nor touch.

Three facts carry the callers. `Canonical.subset_iff` says that a range is covered by one interval
of a canonical list or not at all. `Canonical.replace` is the shape half of *replacing a run of
neighbours by one interval*: canonicity is decided at the two ends of the new interval.
`Canonical.covers_iff` is why canonicity is worth keeping: a canonical list inside
`[a, b)` covers all of it exactly when it is the single interval `[a, b)`, so a test for
completeness need only look at one element.
-/

namespace Airdcpp
namespace Lib

section Intervals

variable {ι β : Type*} [LinearOrder β] (lo hi : ι → β)

/-- The points some interval of the list contains. -/
def covered (l : List ι) : Set β := {x | ∃ i ∈ l, lo i ≤ x ∧ x < hi i}

/-- Non-empty intervals in order, with a gap between any two of them. -/
structure Canonical (l : List ι) : Prop where
  pos : ∀ i ∈ l, lo i < hi i
  gap : l.Pairwise fun i j => hi i < lo j

variable {lo hi}

/-! ## The covered set of a list, part by part -/

@[simp] theorem covered_nil : covered lo hi ([] : List ι) = ∅ := by
  ext x; simp [covered]

theorem covered_append (l r : List ι) :
    covered lo hi (l ++ r) = covered lo hi l ∪ covered lo hi r := by
  ext x
  simp only [covered, List.mem_append, Set.mem_ofPred_eq, Set.mem_union]
  constructor
  · rintro ⟨i, hi | hi, h⟩
    · exact Or.inl ⟨i, hi, h⟩
    · exact Or.inr ⟨i, hi, h⟩
  · rintro (⟨i, hi, h⟩ | ⟨i, hi, h⟩)
    · exact ⟨i, Or.inl hi, h⟩
    · exact ⟨i, Or.inr hi, h⟩

theorem covered_cons (i : ι) (l : List ι) :
    covered lo hi (i :: l) = Set.Ico (lo i) (hi i) ∪ covered lo hi l := by
  ext x
  simp [covered, Set.mem_Ico]

theorem covered_singleton (i : ι) : covered lo hi [i] = Set.Ico (lo i) (hi i) := by
  rw [covered_cons, covered_nil, Set.union_empty]

/-- A point that no interval of the list reaches up to is not covered. -/
theorem notMem_covered_of_hi_le {l : List ι} {x : β} (h : ∀ i ∈ l, hi i ≤ x) :
    x ∉ covered lo hi l := by
  rintro ⟨i, hi', _, hlt⟩
  exact absurd hlt (not_lt.mpr (h i hi'))

/-- A point in front of every interval of the list is not covered. -/
theorem notMem_covered_of_lt_lo {l : List ι} {x : β} (h : ∀ i ∈ l, x < lo i) :
    x ∉ covered lo hi l := by
  rintro ⟨i, hi', hle, _⟩
  exact absurd hle (not_le.mpr (h i hi'))

/-! ## Canonical lists -/

theorem Canonical.nil : Canonical lo hi ([] : List ι) :=
  ⟨by simp, List.Pairwise.nil⟩

theorem canonical_append {l r : List ι} : Canonical lo hi (l ++ r) ↔
    Canonical lo hi l ∧ Canonical lo hi r ∧ ∀ i ∈ l, ∀ j ∈ r, hi i < lo j := by
  constructor
  · rintro ⟨hpos, hgap⟩
    obtain ⟨hl, hr, hlr⟩ := List.pairwise_append.mp hgap
    exact ⟨⟨fun i hi => hpos i (by simp [hi]), hl⟩, ⟨fun i hi => hpos i (by simp [hi]), hr⟩, hlr⟩
  · rintro ⟨⟨hpl, hgl⟩, ⟨hpr, hgr⟩, hlr⟩
    refine ⟨fun i hi => ?_, List.pairwise_append.mpr ⟨hgl, hgr, hlr⟩⟩
    rcases List.mem_append.mp hi with h | h
    · exact hpl i h
    · exact hpr i h

theorem canonical_cons {i : ι} {l : List ι} : Canonical lo hi (i :: l) ↔
    lo i < hi i ∧ Canonical lo hi l ∧ ∀ j ∈ l, hi i < lo j := by
  constructor
  · rintro ⟨hpos, hgap⟩
    obtain ⟨hi', hl⟩ := List.pairwise_cons.mp hgap
    exact ⟨hpos i (by simp), ⟨fun j hj => hpos j (by simp [hj]), hl⟩, hi'⟩
  · rintro ⟨hi', ⟨hpos, hgap⟩, hlt⟩
    refine ⟨fun j hj => ?_, List.pairwise_cons.mpr ⟨hlt, hgap⟩⟩
    rcases List.mem_cons.mp hj with rfl | h
    · exact hi'
    · exact hpos j h

/-- Two different intervals of a canonical list lie apart. -/
theorem Canonical.apart {l : List ι} (h : Canonical lo hi l) {i j : ι} (hi' : i ∈ l) (hj : j ∈ l)
    (hne : i ≠ j) : hi i < lo j ∨ hi j < lo i := by
  obtain ⟨l₁, l₂, rfl⟩ := List.append_of_mem hi'
  obtain ⟨_, hc, hl⟩ := canonical_append.mp h
  rcases List.mem_append.mp hj with hj | hj
  · exact Or.inr (hl j hj i (by simp))
  · rcases List.mem_cons.mp hj with rfl | hj
    · exact absurd rfl hne
    · exact Or.inl ((canonical_cons.mp hc).2.2 j hj)

/-- **Replacing a run of neighbours by one interval** keeps the list canonical when the new
    interval keeps the gaps at its two ends. -/
theorem Canonical.replace {l r : List ι} (mid : List ι) {big : ι}
    (h : Canonical lo hi (l ++ (mid ++ r)))
    (hbig : lo big < hi big) (hl : ∀ i ∈ l, hi i < lo big) (hr : ∀ j ∈ r, hi big < lo j) :
    Canonical lo hi (l ++ big :: r) := by
  obtain ⟨hcl, hcmr, hlmr⟩ := canonical_append.mp h
  obtain ⟨_, hcr, _⟩ := canonical_append.mp hcmr
  refine canonical_append.mpr ⟨hcl, canonical_cons.mpr ⟨hbig, hcr, hr⟩, fun i hi j hj => ?_⟩
  rcases List.mem_cons.mp hj with rfl | hj
  · exact hl i hi
  · exact hlmr i hi j (by simp [hj])

/-- **A range is covered by one interval or not at all.** -/
theorem Canonical.subset_iff {l : List ι} {a b : β} (h : Canonical lo hi l) (hab : a < b) :
    Set.Ico a b ⊆ covered lo hi l ↔ ∃ i ∈ l, lo i ≤ a ∧ b ≤ hi i := by
  constructor
  · intro hcov
    obtain ⟨i, hi', hle, hlt⟩ := hcov ⟨le_refl a, hab⟩
    refine ⟨i, hi', hle, not_lt.mp fun hend => ?_⟩
    -- the interval around its end point would touch it
    obtain ⟨j, hj, hlej, hltj⟩ := hcov ⟨hlt.le, hend⟩
    have hne : i ≠ j := fun heq => absurd hltj (heq ▸ lt_irrefl _)
    rcases h.apart hi' hj hne with hgap | hgap
    · exact absurd hlej (not_le.mpr hgap)
    · exact absurd (lt_trans hltj (lt_trans hgap (h.pos i hi'))) (lt_irrefl _)
  · intro hone x hx
    obtain ⟨i, hi', hlo, hhi⟩ := hone
    exact ⟨i, hi', le_trans hlo hx.1, lt_of_lt_of_le hx.2 hhi⟩

/-- **Completeness is one element.** A canonical list inside `[a, b)` covers all of it exactly
    when it is the one interval from `a` to `b`. -/
theorem Canonical.covers_iff {l : List ι} {a b : β} (h : Canonical lo hi l) (hab : a < b)
    (hin : ∀ i ∈ l, a ≤ lo i ∧ hi i ≤ b) :
    Set.Ico a b ⊆ covered lo hi l ↔ ∃ i, l = [i] ∧ lo i = a ∧ hi i = b := by
  constructor
  · intro hcov
    cases l with
    | nil => exact absurd (hcov ⟨le_refl a, hab⟩) (by simp)
    | cons i rest =>
      obtain ⟨hpos, hrest, hgap⟩ := canonical_cons.mp h
      obtain ⟨hai, hib⟩ := hin i (by simp)
      -- `a` is covered, and only the first interval can reach down to it
      have hlo : lo i = a := by
        obtain ⟨j, hj, hle, _⟩ := hcov ⟨le_refl a, hab⟩
        rcases List.mem_cons.mp hj with rfl | hj
        · exact le_antisymm hle hai
        · exact absurd (lt_of_lt_of_le (lt_trans hpos (hgap j hj)) hle) (not_lt.mpr hai)
      -- the point just after it is in no interval, so it is past the end
      have hhi : hi i = b := by
        refine le_antisymm hib (not_lt.mp fun hlt => ?_)
        obtain ⟨j, hj, hle, hlt'⟩ := hcov (show hi i ∈ Set.Ico a b from ⟨hlo ▸ hpos.le, hlt⟩)
        rcases List.mem_cons.mp hj with rfl | hj
        · exact lt_irrefl _ hlt'
        · exact absurd hle (not_le.mpr (hgap j hj))
      have hnil : rest = [] := by
        refine List.eq_nil_iff_forall_not_mem.mpr fun j hj => ?_
        have hj2 := (hin j (by simp [hj])).2
        have hj1 := hgap j hj
        exact absurd (lt_of_lt_of_le (lt_trans hj1 (hrest.pos j hj)) hj2)
          (not_lt.mpr hhi.ge)
      exact ⟨i, by rw [hnil], hlo, hhi⟩
  · rintro ⟨i, rfl, rfl, rfl⟩
    rw [covered_singleton]

end Intervals

end Lib
end Airdcpp
