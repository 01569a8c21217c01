import Mathlib

/-!
# `Lib/OrderedSet` — a set kept in increasing order

A container whose elements are unique and always visited in increasing order, with the
operations a caller that holds an iterator into it needs: `insert`, `erase`, and `pred?`, the
element just before a given one (what `--i` reaches).

The order is a field (`sorted`), so it is proved once per operation and never again. What the
callers use are the three *position* lemmas: where the contents are known as
`before ++ x :: after`, they say what the contents are after the operation, as a list of the
same shape. A loop that walks the set and edits it around its own position is then an
induction over `after`.
-/

namespace Airdcpp
namespace Lib

/-- A set of `α`, held as its elements in increasing order. -/
structure OrderedSet (α : Type*) [LinearOrder α] where
  toList : List α
  sorted : toList.Pairwise (· < ·)

namespace OrderedSet

variable {α : Type*} [LinearOrder α]

@[ext] theorem ext {s t : OrderedSet α} (h : s.toList = t.toList) : s = t := by
  cases s; cases t; simp only at h; subst h; rfl

instance : Membership α (OrderedSet α) := ⟨fun s a => a ∈ s.toList⟩

@[simp] theorem mem_toList {s : OrderedSet α} {a : α} : a ∈ s.toList ↔ a ∈ s := Iff.rfl

instance (a : α) (s : OrderedSet α) : Decidable (a ∈ s) :=
  inferInstanceAs (Decidable (a ∈ s.toList))

instance : DecidableEq (OrderedSet α) := fun s t =>
  decidable_of_iff (s.toList = t.toList) ⟨ext, fun h => h ▸ rfl⟩

/-- The set with no elements. -/
def empty : OrderedSet α := ⟨[], List.Pairwise.nil⟩

instance : Inhabited (OrderedSet α) := ⟨empty⟩

@[simp] theorem toList_empty : (empty : OrderedSet α).toList = [] := rfl

/-- The number of elements. -/
def size (s : OrderedSet α) : Nat := s.toList.length

/-! ## Insertion -/

/-- Insertion into an increasing list; an element that is already there is not added again. -/
def insertList (a : α) : List α → List α
  | [] => [a]
  | x :: xs => if a < x then a :: x :: xs else if a = x then x :: xs else x :: insertList a xs

theorem mem_insertList {a b : α} {l : List α} : b ∈ insertList a l ↔ b = a ∨ b ∈ l := by
  induction l with
  | nil => simp [insertList]
  | cons x xs ih =>
    rw [insertList]
    split
    · simp
    · split
      · rename_i h; subst h; simp
      · rw [List.mem_cons, ih, List.mem_cons]; tauto

theorem sorted_insertList {a : α} {l : List α} (h : l.Pairwise (· < ·)) :
    (insertList a l).Pairwise (· < ·) := by
  induction l with
  | nil => simp [insertList]
  | cons x xs ih =>
    obtain ⟨hx, hxs⟩ := List.pairwise_cons.mp h
    rw [insertList]
    split
    · rename_i hlt
      refine List.pairwise_cons.mpr ⟨fun b hb => ?_, h⟩
      rcases List.mem_cons.mp hb with rfl | hb
      · exact hlt
      · exact lt_trans hlt (hx b hb)
    · split
      · exact h
      · rename_i hnlt hne
        have hxa : x < a := lt_of_le_of_ne (not_lt.mp hnlt) (Ne.symm hne)
        refine List.pairwise_cons.mpr ⟨fun b hb => ?_, ih hxs⟩
        rcases mem_insertList.mp hb with rfl | hb
        · exact hxa
        · exact hx b hb

/-- `insert a` into the set. -/
def insert (a : α) (s : OrderedSet α) : OrderedSet α :=
  ⟨insertList a s.toList, sorted_insertList s.sorted⟩

@[simp] theorem mem_insert {a b : α} {s : OrderedSet α} : b ∈ s.insert a ↔ b = a ∨ b ∈ s :=
  mem_insertList

theorem insertList_of_mem {a : α} {l : List α} (hs : l.Pairwise (· < ·)) (h : a ∈ l) :
    insertList a l = l := by
  induction l with
  | nil => exact absurd h (by simp)
  | cons x xs ih =>
    obtain ⟨hx, hxs⟩ := List.pairwise_cons.mp hs
    rw [insertList]
    rcases List.mem_cons.mp h with rfl | h
    · simp
    · have hlt := hx a h
      rw [if_neg (not_lt.mpr hlt.le), if_neg hlt.ne', ih hxs h]

theorem insert_of_mem {a : α} {s : OrderedSet α} (h : a ∈ s) : s.insert a = s :=
  ext (insertList_of_mem s.sorted h)

theorem insertList_between {a : α} {l r : List α} (hl : ∀ x ∈ l, x < a) (hr : ∀ x ∈ r, a < x) :
    insertList a (l ++ r) = l ++ a :: r := by
  induction l with
  | nil =>
    cases r with
    | nil => rfl
    | cons x xs => rw [List.nil_append, insertList, if_pos (hr x (by simp))]; rfl
  | cons x xs ih =>
    have hlt := hl x (by simp)
    rw [List.cons_append, insertList, if_neg (not_lt.mpr hlt.le), if_neg hlt.ne',
      ih fun y hy => hl y (by simp [hy])]
    rfl

/-- **Position of an insertion.** Between elements below `a` and elements above it. -/
theorem toList_insert {a : α} {s : OrderedSet α} {l r : List α} (hs : s.toList = l ++ r)
    (hl : ∀ x ∈ l, x < a) (hr : ∀ x ∈ r, a < x) : (s.insert a).toList = l ++ a :: r := by
  show insertList a s.toList = _
  rw [hs, insertList_between hl hr]

/-- Every element not in the set has a position in it. -/
theorem exists_split (a : α) (s : OrderedSet α) (h : a ∉ s) :
    ∃ l r, s.toList = l ++ r ∧ (∀ x ∈ l, x < a) ∧ (∀ x ∈ r, a < x) := by
  obtain ⟨xs, hs⟩ := s
  replace h : a ∉ xs := h
  induction xs with
  | nil => exact ⟨[], [], rfl, by simp, by simp⟩
  | cons x xs ih =>
    obtain ⟨hx, hxs⟩ := List.pairwise_cons.mp hs
    rcases lt_trichotomy a x with hlt | rfl | hgt
    · refine ⟨[], x :: xs, rfl, by simp, fun b hb => ?_⟩
      rcases List.mem_cons.mp hb with rfl | hb
      · exact hlt
      · exact lt_trans hlt (hx b hb)
    · exact absurd List.mem_cons_self h
    · obtain ⟨l, r, hlr, hl, hr⟩ := ih hxs fun hm => h (List.mem_cons_of_mem _ hm)
      refine ⟨x :: l, r, congrArg (x :: ·) hlr, fun b hb => ?_, hr⟩
      rcases List.mem_cons.mp hb with rfl | hb
      · exact hgt
      · exact hl b hb

/-! ## Removal -/

/-- `erase a` from the set (nothing happens where `a` is not in it). -/
def erase (a : α) (s : OrderedSet α) : OrderedSet α :=
  ⟨s.toList.erase a, s.sorted.sublist List.erase_sublist⟩

/-- **Position of a removal.** -/
theorem toList_erase {a : α} {s : OrderedSet α} {l r : List α} (hs : s.toList = l ++ a :: r) :
    (s.erase a).toList = l ++ r := by
  have hsorted := s.sorted
  rw [hs] at hsorted
  have ha : a ∉ l := fun hm =>
    lt_irrefl a ((List.pairwise_append.mp hsorted).2.2 a hm a (by simp))
  show s.toList.erase a = _
  rw [hs, List.erase_append_right _ ha, List.erase_cons_head]

/-! ## The element before another -/

/-- The largest element below `a`. -/
def pred? (a : α) (s : OrderedSet α) : Option α := (s.toList.takeWhile (· < a)).getLast?

/-- **The element before a position** is the one in front of it. -/
theorem pred?_eq {p a : α} {s : OrderedSet α} {l r : List α} (hs : s.toList = l ++ p :: a :: r) :
    s.pred? a = some p := by
  have hsorted := s.sorted
  rw [hs] at hsorted
  obtain ⟨_, hpr, hlp⟩ := List.pairwise_append.mp hsorted
  have hpa : p < a := (List.pairwise_cons.mp hpr).1 a (by simp)
  have htake : (l ++ p :: a :: r).takeWhile (· < a) = l ++ [p] := by
    rw [List.takeWhile_append_of_pos fun x hx => by simpa using hlp x hx a (by simp)]
    simp [hpa]
  rw [pred?, hs, htake]
  simp

/-! ## Elements in order -/

theorem nodup (s : OrderedSet α) : s.toList.Nodup := s.sorted.imp fun h => h.ne

end OrderedSet

end Lib
end Airdcpp
