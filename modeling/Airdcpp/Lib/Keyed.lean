import Mathlib.Data.List.Perm.Basic
import Mathlib.Data.List.Nodup

/-!
# `Lib/Keyed` — lists of objects with distinct keys

Objects that are known by a key (an address, a token) in a list: `modify` writes to the object with
a key, `remove` takes it out. With distinct keys both are said by a permutation, `modify_perm` and
`remove_perm`, so that counts and sums over the list follow by `Perm` lemmas.
-/

namespace Airdcpp
namespace Lib
namespace Keyed

variable {α κ : Type*} {key : α → κ} {l l₁ l₂ : List α} {k : κ} {x : α} {f : α → α}

/-- The object with a key, and the others. -/
theorem exists_split (hl : (l.map key).Nodup) (hx : x ∈ l) :
    ∃ l₁ l₂, l = l₁ ++ x :: l₂ ∧ (∀ y ∈ l₁, key y ≠ key x) ∧ ∀ y ∈ l₂, key y ≠ key x := by
  obtain ⟨l₁, l₂, rfl⟩ := List.append_of_mem hx
  rw [List.map_append, List.map_cons, List.nodup_middle, List.nodup_cons, ← List.map_append] at hl
  refine ⟨l₁, l₂, rfl, ?_, ?_⟩
  · intro y hy hkey
    exact hl.1 (List.mem_map.mpr ⟨y, List.mem_append_left _ hy, hkey⟩)
  · intro y hy hkey
    exact hl.1 (List.mem_map.mpr ⟨y, List.mem_append_right _ hy, hkey⟩)

variable [DecidableEq κ]

def modify (key : α → κ) (k : κ) (f : α → α) (l : List α) : List α :=
  l.map fun x => if key x = k then f x else x

def remove (key : α → κ) (k : κ) (l : List α) : List α := l.filter fun x => key x ≠ k

theorem modify_of_notMem (h : ∀ x ∈ l, key x ≠ k) : modify key k f l = l := by
  conv => rhs; rw [← List.map_id l]
  apply List.map_congr_left
  intro x hx
  rw [if_neg (h x hx)]
  rfl

theorem remove_of_notMem (h : ∀ x ∈ l, key x ≠ k) : remove key k l = l := by
  apply List.filter_eq_self.mpr
  intro x hx
  simpa using h x hx

theorem remove_split (h₁ : ∀ y ∈ l₁, key y ≠ key x) (h₂ : ∀ y ∈ l₂, key y ≠ key x) :
    remove key (key x) (l₁ ++ x :: l₂) = l₁ ++ l₂ := by
  rw [remove, List.filter_append, List.filter_cons_of_neg (by simp)]
  exact congrArg₂ _ (remove_of_notMem h₁) (remove_of_notMem h₂)

theorem remove_perm (hl : (l.map key).Nodup) (hx : x ∈ l) :
    l.Perm (x :: remove key (key x) l) := by
  obtain ⟨l₁, l₂, rfl, h₁, h₂⟩ := exists_split hl hx
  rw [remove_split h₁ h₂]
  exact List.perm_middle

theorem modify_perm (hl : (l.map key).Nodup) (hx : x ∈ l) :
    (modify key (key x) f l).Perm (f x :: remove key (key x) l) := by
  obtain ⟨l₁, l₂, rfl, h₁, h₂⟩ := exists_split hl hx
  have hmodify : modify key (key x) f (l₁ ++ x :: l₂) = l₁ ++ f x :: l₂ := by
    rw [modify, List.map_append, List.map_cons, if_pos rfl]
    exact congrArg₂ _ (modify_of_notMem h₁) (congrArg _ (modify_of_notMem h₂))
  rw [remove_split h₁ h₂, hmodify]
  exact List.perm_middle

theorem map_key_modify (hf : ∀ x, key x = k → key (f x) = key x) :
    (modify key k f l).map key = l.map key := by
  rw [modify, List.map_map]
  apply List.map_congr_left
  intro x _
  simp only [Function.comp]
  split
  · exact hf x ‹_›
  · rfl

theorem nodup_remove (hl : (l.map key).Nodup) : ((remove key k l).map key).Nodup :=
  hl.sublist (List.filter_sublist.map key)

theorem mem_remove : x ∈ remove key k l ↔ x ∈ l ∧ key x ≠ k := by
  rw [remove, List.mem_filter, decide_eq_true_eq]

theorem remove_modify {k' : κ} (hf : ∀ x, key (f x) = key x) :
    remove key k' (modify key k f l) = modify key k f (remove key k' l) := by
  rw [remove, modify, List.filter_map]
  refine congrArg _ (List.filter_congr ?_)
  intro x _
  by_cases h : key x = k
  · simp [h, hf]
  · simp [h]

/-- A search that passes over the modified object finds what it found. -/
theorem find?_modify {p : α → Bool} (hp : ∀ x, p x = true → key x ≠ k)
    (hpf : ∀ x, key x = k → p (f x) = false) : (modify key k f l).find? p = l.find? p := by
  induction l with
  | nil => rfl
  | cons x l ih =>
    rw [modify, List.map_cons, ← modify, List.find?_cons, List.find?_cons, ih]
    by_cases h : key x = k
    · have hx : p x = false := by
        by_contra hx
        exact hp x (by simpa using hx) h
      rw [if_pos h, hpf x h, hx]
    · rw [if_neg h]

end Keyed
end Lib
end Airdcpp
