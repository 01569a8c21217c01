import Mathlib

/-!
# `Lib/ChainSet` — a set kept by a comparison that leaves elements incomparable

An ordered container compares elements only by its comparison, and where neither of two comes before
the other it takes them for the same. `ChainSet` is that container for a comparison that is only
known to be transitive: the elements in the order of the comparison, each before all later ones.

Elements that `x` comes before are at the end then, so a search finds the same place for `x` however
the elements are arranged in a tree.

`mem_insert` says what is lost: an element is added exactly when it is comparable to everything that
is there. `mem_erase` says that erasing an element takes everything away that is incomparable to it.
-/

namespace Airdcpp
namespace Lib

/-- Elements each of which comes before all later ones. -/
structure ChainSet (α : Type*) (lt : α → α → Bool) where
  toList : List α
  sorted : toList.Pairwise fun a b => lt a b = true

namespace ChainSet

variable {α : Type*} {lt : α → α → Bool} {x y : α} {l : List α}

instance : Membership α (ChainSet α lt) := ⟨fun s a => a ∈ s.toList⟩

theorem mem_toList {s : ChainSet α lt} : x ∈ s.toList ↔ x ∈ s := Iff.rfl

def empty : ChainSet α lt := ⟨[], List.Pairwise.nil⟩

theorem comparable {s : ChainSet α lt} (hx : x ∈ s) (hy : y ∈ s) (hne : x ≠ y) :
    lt x y = true ∨ lt y x = true := by
  have : Std.Symm fun a b => lt a b = true ∨ lt b a = true := ⟨fun _ _ h => h.symm⟩
  have hpair : s.toList.Pairwise fun a b => lt a b = true ∨ lt b a = true :=
    s.sorted.imp fun h => .inl h
  exact hpair.forall hx hy hne

/-! ## Positions -/

/-- What `x` does not come before. -/
def front (lt : α → α → Bool) (x : α) (l : List α) : List α := l.takeWhile fun y => !lt x y

/-- What `x` comes before. -/
def back (lt : α → α → Bool) (x : α) (l : List α) : List α := l.dropWhile fun y => !lt x y

/-- `x` comes after the element before its place, if there is one. -/
def fits (lt : α → α → Bool) (x : α) (l : List α) : Bool :=
  (front lt x l).getLast?.all fun p => lt p x

/-- `insert`: between the two, where `x` fits there. -/
def insertList (lt : α → α → Bool) (x : α) (l : List α) : List α :=
  if fits lt x l then front lt x l ++ x :: back lt x l else l

/-- `erase`: what does not come before `x`, up to the first element `x` comes before. -/
def eraseList (lt : α → α → Bool) (x : α) (l : List α) : List α :=
  l.takeWhile (fun y => lt y x) ++ back lt x (l.dropWhile fun y => lt y x)

theorem front_append_back (lt : α → α → Bool) (x : α) (l : List α) :
    front lt x l ++ back lt x l = l := List.takeWhile_append_dropWhile

theorem not_lt_of_mem_front (h : y ∈ front lt x l) : lt x y = false := by
  have := List.mem_takeWhile_imp h
  simpa using this

section Trans

variable [IsTrans α fun a b => lt a b = true]

theorem lt_trans' {z : α} (hxy : lt x y = true) (hyz : lt y z = true) : lt x z = true :=
  IsTrans.trans (r := fun a b => lt a b = true) x y z hxy hyz

theorem lt_of_mem_back (hl : l.Pairwise fun a b => lt a b = true) (h : y ∈ back lt x l) :
    lt x y = true := by
  induction l with
  | nil => cases h
  | cons z l ih =>
    obtain ⟨hz, hl⟩ := List.pairwise_cons.mp hl
    rw [back, List.dropWhile_cons] at h
    split at h
    · exact ih hl h
    · rename_i hxz
      rw [Bool.not_eq_true, Bool.not_eq_false'] at hxz
      rcases List.mem_cons.mp h with rfl | h
      · exact hxz
      · exact lt_trans' hxz (hz y h)

theorem mem_takeWhile_lt (hl : l.Pairwise fun a b => lt a b = true) (hy : y ∈ l)
    (h : lt y x = true) : y ∈ l.takeWhile fun z => lt z x := by
  induction l with
  | nil => cases hy
  | cons z l ih =>
    obtain ⟨hz, hl⟩ := List.pairwise_cons.mp hl
    rcases List.mem_cons.mp hy with rfl | hy
    · rw [List.takeWhile_cons, if_pos h]
      exact List.mem_cons_self
    · rw [List.takeWhile_cons, if_pos (lt_trans' (hz y hy) h)]
      exact List.mem_cons_of_mem _ (ih hl hy)

/-! ## Insertion -/

/-- Everything in front comes before what the last one comes before. -/
theorem fits_iff_front (hl : l.Pairwise fun a b => lt a b = true) :
    fits lt x l = true ↔ ∀ y ∈ front lt x l, lt y x = true := by
  rw [fits]
  rcases List.eq_nil_or_concat (front lt x l) with hnil | ⟨init, p, hfront⟩
  · simp [hnil]
  · have hsorted := hl.sublist (List.takeWhile_sublist (fun y => !lt x y))
    rw [← front, hfront] at hsorted
    simp only [hfront, List.concat_eq_append, List.getLast?_append, List.getLast?_singleton,
      Option.some_or, Option.all_some, List.mem_append, List.mem_singleton]
    constructor
    · rintro hp y (hy | rfl)
      · rw [List.concat_eq_append] at hsorted
        exact lt_trans' ((List.pairwise_append.mp hsorted).2.2 y hy p (by simp)) hp
      · exact hp
    · intro h
      exact h p (.inr rfl)

theorem fits_iff (hl : l.Pairwise fun a b => lt a b = true) :
    fits lt x l = true ↔ ∀ y ∈ l, lt x y = true ∨ lt y x = true := by
  rw [fits_iff_front hl]
  constructor
  · intro h y hy
    rw [← front_append_back lt x l] at hy
    rcases List.mem_append.mp hy with hy | hy
    · exact .inr (h y hy)
    · exact .inl (lt_of_mem_back hl hy)
  · intro h y hy
    have hmem : y ∈ l := (List.takeWhile_sublist _).subset hy
    refine (h y hmem).resolve_left ?_
    rw [not_lt_of_mem_front hy]
    exact Bool.false_ne_true

theorem insertList_sorted (hl : l.Pairwise fun a b => lt a b = true) :
    (insertList lt x l).Pairwise fun a b => lt a b = true := by
  rw [insertList]
  split
  · rename_i hfits
    have hbefore := (fits_iff_front hl).mp hfits
    rw [← front_append_back lt x l] at hl
    obtain ⟨hfront, hback, hcross⟩ := List.pairwise_append.mp hl
    rw [front_append_back] at hl
    refine List.pairwise_append.mpr
      ⟨hfront, List.pairwise_cons.mpr ⟨fun y hy => lt_of_mem_back hl hy, hback⟩, ?_⟩
    intro a ha b hb
    rcases List.mem_cons.mp hb with rfl | hb
    · exact hbefore a ha
    · exact hcross a ha b hb
  · exact hl

def insert (x : α) (s : ChainSet α lt) : ChainSet α lt :=
  ⟨insertList lt x s.toList, insertList_sorted s.sorted⟩

/-- **An element is added exactly when it is comparable to everything that is there.** -/
theorem mem_insert {s : ChainSet α lt} :
    y ∈ s.insert x ↔ y ∈ s ∨ y = x ∧ ∀ z ∈ s, lt x z = true ∨ lt z x = true := by
  have hfits := fits_iff (x := x) s.sorted
  show y ∈ insertList lt x s.toList ↔ y ∈ s.toList ∨ y = x ∧ ∀ z ∈ s.toList, _
  rw [insertList, ← hfits]
  split
  · rename_i h
    have hmem : y ∈ s.toList ↔ y ∈ front lt x s.toList ∨ y ∈ back lt x s.toList := by
      rw [← List.mem_append, front_append_back]
    rw [List.mem_append, List.mem_cons, hmem, and_iff_left h]
    tauto
  · rename_i h
    refine (or_iff_left ?_).symm
    rintro ⟨-, hfits⟩
    exact h hfits

/-! ## Removal -/

omit [IsTrans α fun a b => lt a b = true] in
theorem eraseList_sublist : (eraseList lt x l).Sublist l := by
  conv_rhs => rw [← List.takeWhile_append_dropWhile (p := fun y => lt y x) (l := l)]
  exact (List.Sublist.refl _).append (List.dropWhile_sublist _)

def erase (x : α) (s : ChainSet α lt) : ChainSet α lt :=
  ⟨eraseList lt x s.toList, s.sorted.sublist eraseList_sublist⟩

/-- **Everything incomparable to the element goes with it.** -/
theorem mem_erase {s : ChainSet α lt} :
    y ∈ s.erase x ↔ y ∈ s ∧ (lt x y = true ∨ lt y x = true) := by
  show y ∈ eraseList lt x s.toList ↔ y ∈ s.toList ∧ _
  have hdrop : (s.toList.dropWhile fun z => lt z x).Pairwise fun a b => lt a b = true :=
    s.sorted.sublist (List.dropWhile_sublist _)
  rw [eraseList, List.mem_append]
  constructor
  · rintro (hy | hy)
    · exact ⟨(List.takeWhile_sublist _).subset hy,
        .inr (List.mem_takeWhile_imp (p := fun z => lt z x) hy)⟩
    · exact ⟨(List.dropWhile_sublist _).subset ((List.dropWhile_sublist _).subset hy),
        .inl (lt_of_mem_back hdrop hy)⟩
  · rintro ⟨hy, h⟩
    by_cases hyx : lt y x = true
    · exact .inl (mem_takeWhile_lt s.sorted hy hyx)
    · right
      have hxy := h.resolve_right hyx
      rw [← List.takeWhile_append_dropWhile (p := fun z => lt z x) (l := s.toList)] at hy
      have hy := (List.mem_append.mp hy).resolve_left fun hin =>
        hyx (List.mem_takeWhile_imp (p := fun z => lt z x) hin)
      rw [← front_append_back lt x (s.toList.dropWhile fun z => lt z x)] at hy
      refine (List.mem_append.mp hy).resolve_left fun hin => ?_
      rw [not_lt_of_mem_front hin] at hxy
      cases hxy

end Trans

end ChainSet

end Lib
end Airdcpp
