import Airdcpp.Lib.OrderedSet
import Airdcpp.Lib.IntervalSet

/-!
# `Core/Segment` — byte ranges of a file, and ordered sets of them

`Segment` is a start and a size, both `int64_t` in the source and unbounded integers here: a
segment of a file lies inside `[0, size)`, so neither its end nor the sum of two of its ends
can leave the 64-bit range. The `overlapped` mark of the source is not part of the value:
`operator==` and `operator<` ignore it, so it can neither distinguish two elements of a
`set<Segment>` nor order them; only a running download reads it.

`operator<` compares the start and then the size, which is a linear order on such pairs
(`Segment.instLinearOrder`), so `set<Segment>` is an `OrderedSet Segment`.
-/

namespace Airdcpp

open Lib

/-- A range of bytes, `[start, start + size)`. -/
structure Segment where
  start : Int
  size : Int
deriving DecidableEq, Repr, Inhabited

namespace Segment

def getEnd (s : Segment) : Int := s.start + s.size

/-- The segment from `a` up to `b`. -/
def between (a b : Int) : Segment := ⟨a, b - a⟩

@[simp] theorem between_start (a b : Int) : (between a b).start = a := rfl
@[simp] theorem between_size (a b : Int) : (between a b).size = b - a := rfl
@[simp] theorem between_getEnd (a b : Int) : (between a b).getEnd = b := by
  simp [between, getEnd]

theorem between_self (s : Segment) : between s.start s.getEnd = s := by
  cases s; simp [between, getEnd]

/-! ## Comparison -/

/-- `operator<` -/
instance : LT Segment := ⟨fun a b => a.start < b.start ∨ a.start = b.start ∧ a.size < b.size⟩

theorem lt_def {a b : Segment} :
    a < b ↔ a.start < b.start ∨ a.start = b.start ∧ a.size < b.size := Iff.rfl

instance : LE Segment := ⟨fun a b => a < b ∨ a = b⟩

theorem le_def {a b : Segment} : a ≤ b ↔ a < b ∨ a = b := Iff.rfl

instance (a b : Segment) : Decidable (a < b) := decidable_of_iff _ lt_def.symm
instance (a b : Segment) : Decidable (a ≤ b) := decidable_of_iff _ le_def.symm

theorem lt_irrefl' (a : Segment) : ¬ a < a := by
  rw [lt_def]; omega

theorem lt_trans' {a b c : Segment} (h₁ : a < b) (h₂ : b < c) : a < c := by
  rw [lt_def] at *; omega

theorem lt_total {a b : Segment} : a < b ∨ a = b ∨ b < a := by
  cases a; cases b
  simp only [lt_def, Segment.mk.injEq]
  omega

instance instLinearOrder : LinearOrder Segment where
  le_refl a := Or.inr rfl
  le_trans a b c h₁ h₂ := by
    rcases h₁ with h₁ | rfl
    · rcases h₂ with h₂ | rfl
      · exact Or.inl (lt_trans' h₁ h₂)
      · exact Or.inl h₁
    · exact h₂
  le_antisymm a b h₁ h₂ := by
    rcases h₁ with h₁ | rfl
    · rcases h₂ with h₂ | rfl
      · exact absurd (lt_trans' h₁ h₂) (lt_irrefl' a)
      · rfl
    · rfl
  lt_iff_le_not_ge a b := by
    constructor
    · intro h
      refine ⟨Or.inl h, ?_⟩
      rintro (h' | rfl)
      · exact lt_irrefl' a (lt_trans' h h')
      · exact lt_irrefl' _ h
    · rintro ⟨h | rfl, hn⟩
      · exact h
      · exact absurd (Or.inr rfl) hn
  le_total a b := by
    rcases lt_total (a := a) (b := b) with h | h | h
    · exact Or.inl (Or.inl h)
    · exact Or.inl (Or.inr h)
    · exact Or.inr (Or.inl h)
  toDecidableLE := inferInstance
  toDecidableEq := inferInstance
  toDecidableLT := inferInstance

/-- A segment below another that ends strictly later starts strictly earlier. -/
theorem start_lt_of_lt_of_getEnd_lt {a b : Segment} (h : a < b) (he : b.getEnd < a.getEnd) :
    a.start < b.start := by
  rw [lt_def] at h; simp only [getEnd] at he; omega

theorem lt_of_start_lt {a b : Segment} (h : a.start < b.start) : a < b := Or.inl h

theorem start_le_of_lt {a b : Segment} (h : a < b) : a.start ≤ b.start := by
  rw [lt_def] at h; omega

/-! ## Queries of the source -/

def overlaps (s rhs : Segment) : Bool :=
  decide (s.start < rhs.getEnd) && decide (rhs.start < s.getEnd)

def contains (s rhs : Segment) : Bool :=
  decide (s.start ≤ rhs.start) && decide (s.getEnd ≥ rhs.getEnd)

def inSet (s : Segment) (segmentSet : OrderedSet Segment) : Bool :=
  segmentSet.toList.any fun x => x.contains s

end Segment

/-- `set<Segment>` -/
abbrev SegmentSet := OrderedSet Segment

namespace SegmentSet

/-- The bytes that some segment of the list contains. -/
abbrev bytes (l : List Segment) : Set Int := covered Segment.start Segment.getEnd l

/-- Segments of positive size, sorted, pairwise disjoint and non-adjacent. -/
abbrev IsCanonical (l : List Segment) : Prop := Canonical Segment.start Segment.getEnd l

/-- The number of bytes in the segments of a list. -/
def total (l : List Segment) : Int := (l.map Segment.size).sum

@[simp] theorem total_nil : total [] = 0 := rfl
@[simp] theorem total_cons (s : Segment) (l : List Segment) :
    total (s :: l) = s.size + total l := by simp [total]
@[simp] theorem total_append (l r : List Segment) : total (l ++ r) = total l + total r := by
  simp [total]

/-- Every segment of the list is inside `[0, size)`. -/
def Inside (size : Int) (l : List Segment) : Prop := ∀ s ∈ l, 0 ≤ s.start ∧ s.getEnd ≤ size

/-- **Bytes of disjoint segments add up to no more than the room there is.** -/
theorem total_le_of_canonical {l : List Segment} {a b : Int} (h : IsCanonical l) (hab : a ≤ b)
    (hin : ∀ s ∈ l, a ≤ s.start ∧ s.getEnd ≤ b) : 0 ≤ total l ∧ total l ≤ b - a := by
  induction l generalizing a with
  | nil => simp; omega
  | cons s rest ih =>
    obtain ⟨hpos, hrest, hgap⟩ := canonical_cons.mp h
    obtain ⟨hs1, hs2⟩ := hin s (by simp)
    have hlt := hpos
    simp only [Segment.getEnd] at hlt hs2
    obtain ⟨ih1, ih2⟩ := ih (a := s.getEnd) hrest hs2 fun t ht =>
      ⟨(hgap t ht).le, (hin t (by simp [ht])).2⟩
    simp only [total_cons, Segment.getEnd] at ih2 ⊢
    omega

end SegmentSet

end Airdcpp
