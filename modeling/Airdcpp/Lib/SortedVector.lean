import Airdcpp.Lib.ListOps

/-!
# `Lib/SortedVector` — a vector sorted by a key, searched by halving

A vector whose elements have distinct keys and stand in increasing order of them. `getPos` is
the binary search all operations share: where the key is, or where it would have to go.

The order is a field, so each operation proves it once. What callers use are the `find` lemmas:
a sorted vector is a finite map from keys to elements, and each operation says what it does to
that map.
-/

namespace Airdcpp
namespace Lib

/-- A vector of `α`, increasing in `name`. -/
structure SortedVector {α κ : Type*} [LinearOrder κ] (name : α → κ) where
  toList : List α
  sorted : toList.Pairwise fun x y => name x < name y

namespace SortedVector

variable {α κ : Type*} [LinearOrder κ] {name : α → κ}

/-! ## The search -/

/-- The loop of `getPos`, over the `count` elements from `first` on. -/
def getPosFrom (name : α → κ) (l : List α) (key : κ) : Nat → Nat → Nat → Nat × Bool
  | 0, first, _ => (first, false)
  | fuel + 1, first, count =>
    match l[first + count / 2]? with
    | some m =>
      if count = 0 then (first, false)
      else if name m < key then
        getPosFrom name l key fuel (first + count / 2 + 1) (count - (count / 2 + 1))
      else if name m = key then (first + count / 2, true)
      else getPosFrom name l key fuel first (count / 2)
    | none => (first, false)

/-- The position of the element with this key, or of the first one above it. -/
def getPos (v : SortedVector name) (key : κ) : Nat × Bool :=
  getPosFrom name v.toList key v.toList.length 0 v.toList.length

/-- What a search may answer: the key's position, or the place it is missing from. -/
inductive Located (name : α → κ) (key : κ) (l : List α) : Nat × Bool → Prop
  | found {before after : List α} {x : α} (hl : l = before ++ x :: after) (hx : name x = key) :
    Located name key l (before.length, true)
  | missing {before after : List α} (hl : l = before ++ after)
    (hbefore : ∀ y ∈ before, name y < key) (hafter : ∀ y ∈ after, key < name y) :
    Located name key l (before.length, false)

theorem located_missing {l : List α} {key : κ} {i : Nat} (hi : i ≤ l.length)
    (hlow : ∀ j (h : j < l.length), j < i → name l[j] < key)
    (hhigh : ∀ j (h : j < l.length), i ≤ j → key < name l[j]) :
    Located name key l (i, false) := by
  have hlen : (l.take i).length = i := by rw [List.length_take]; omega
  have hloc : Located name key l ((l.take i).length, false) := by
    refine .missing (List.take_append_drop i l).symm ?_ ?_
    · intro y hy
      obtain ⟨j, hj, rfl⟩ := List.mem_take_iff_getElem.mp hy
      exact hlow j (by omega) (by omega)
    · intro y hy
      obtain ⟨j, hj, rfl⟩ := List.mem_drop_iff_getElem.mp hy
      exact hhigh (i + j) (by omega) (Nat.le_add_right i j)
  rwa [hlen] at hloc

theorem located_found {l : List α} {key : κ} {i : Nat} (hi : i < l.length)
    (hkey : name l[i] = key) : Located name key l (i, true) := by
  have hlen : (l.take i).length = i := by rw [List.length_take]; omega
  have hsplit : l = l.take i ++ l[i] :: l.drop (i + 1) := by
    rw [← List.drop_eq_getElem_cons, List.take_append_drop]
  have hloc : Located name key l ((l.take i).length, true) := .found hsplit hkey
  rwa [hlen] at hloc

theorem getPosFrom_located {l : List α} {key : κ} (hl : l.Pairwise fun x y => name x < name y)
    (fuel first count : Nat) (hfuel : count ≤ fuel) (hcount : first + count ≤ l.length)
    (hlow : ∀ j (h : j < l.length), j < first → name l[j] < key)
    (hhigh : ∀ j (h : j < l.length), first + count ≤ j → key < name l[j]) :
    Located name key l (getPosFrom name l key fuel first count) := by
  induction fuel generalizing first count with
  | zero =>
    obtain rfl : count = 0 := by omega
    exact located_missing hcount hlow hhigh
  | succ fuel ih =>
    rw [getPosFrom]
    rcases Nat.eq_zero_or_pos count with rfl | hpos
    · cases l[first + 0 / 2]? with
      | none => exact located_missing hcount hlow hhigh
      | some m => exact located_missing hcount hlow hhigh
    · have hmid : first + count / 2 < l.length := by omega
      have hget : l[first + count / 2]? = some l[first + count / 2] :=
        List.getElem?_eq_getElem hmid
      rw [hget]
      simp only [if_neg (show ¬ count = 0 by omega)]
      split
      · rename_i hlt
        apply ih
        · omega
        · omega
        · intro j hj hjlt
          rcases Nat.lt_or_ge j (first + count / 2) with hj' | hj'
          · exact (List.pairwise_iff_getElem.mp hl _ _ hj hmid hj').trans hlt
          · obtain rfl : j = first + count / 2 := by omega
            exact hlt
        · intro j hj hle
          exact hhigh j hj (by omega)
      · split
        · rename_i hkey
          exact located_found hmid hkey
        · rename_i hnlt hne
          have hgt : key < name l[first + count / 2] :=
            lt_of_le_of_ne (not_lt.mp hnlt) fun e => hne e.symm
          apply ih
          · omega
          · omega
          · exact hlow
          · intro j hj hle
            rcases Nat.eq_or_lt_of_le hle with rfl | hj'
            · exact hgt
            · exact hgt.trans (List.pairwise_iff_getElem.mp hl _ _ hmid hj hj')

/-- **The search finds the key where it is.** -/
theorem getPos_located (v : SortedVector name) (key : κ) :
    Located name key v.toList (v.getPos key) := by
  unfold getPos
  apply getPosFrom_located v.sorted
  · exact le_rfl
  · exact (Nat.zero_add _).le
  · intro j _ hj
    exact absurd hj (Nat.not_lt_zero j)
  · intro j hj hle
    omega

/-! ## The operations -/

def empty : SortedVector name := ⟨[], List.Pairwise.nil⟩

theorem eq_empty {v : SortedVector name} (h : v.toList = []) : v = empty := by
  cases v
  subst h
  rfl

def find (v : SortedVector name) (key : κ) : Option α :=
  match v.getPos key with
  | (i, true) => v.toList[i]?
  | (_, false) => none

/-- An element above the last one goes to the end; otherwise the search tells where it goes. A
    duplicate is not inserted. -/
def insertSorted (v : SortedVector name) (aItem : α) : List α :=
  match v.toList.getLast? with
  | none => [aItem]
  | some back =>
    if name back < name aItem then v.toList ++ [aItem]
    else if name back = name aItem then v.toList
    else
      match v.getPos (name aItem) with
      | (_, true) => v.toList
      | (i, false) => insertAt i aItem v.toList

def eraseKey (v : SortedVector name) (key : κ) : List α :=
  match v.getPos key with
  | (i, true) => v.toList.eraseIdx i
  | (_, false) => v.toList

theorem sorted_of_missing {before after : List α} {x : α}
    (hl : (before ++ after).Pairwise fun x y => name x < name y)
    (hbefore : ∀ y ∈ before, name y < name x) (hafter : ∀ y ∈ after, name x < name y) :
    (before ++ x :: after).Pairwise fun x y => name x < name y := by
  obtain ⟨h₁, h₂, h₃⟩ := List.pairwise_append.mp hl
  refine List.pairwise_append.mpr ⟨h₁, List.pairwise_cons.mpr ⟨hafter, h₂⟩, ?_⟩
  intro y hy z hz
  cases hz with
  | head => exact hbefore y hy
  | tail _ hz => exact h₃ y hy z hz

/-- Everything is below an element above the last one. -/
theorem lt_of_getLast {v : SortedVector name} {back : α} {key : κ}
    (hback : v.toList.getLast? = some back) (hlt : name back < key) :
    ∀ y ∈ v.toList, name y < key := by
  obtain ⟨front, hfront⟩ := List.getLast?_eq_some_iff.mp hback
  intro y hy
  have hsorted := v.sorted
  rw [hfront] at hy hsorted
  rcases List.mem_append.mp hy with hy | hy
  · exact ((List.pairwise_append.mp hsorted).2.2 y hy back (by simp)).trans hlt
  · rw [List.mem_singleton.mp hy]
    exact hlt

/-- What an insertion does: nothing where the key is taken, else the element goes between the
    smaller and the larger ones. -/
theorem insertSorted_cases (v : SortedVector name) (x : α) :
    (v.insertSorted x = v.toList ∧ ∃ y ∈ v.toList, name y = name x) ∨
    ∃ before after, v.toList = before ++ after ∧ v.insertSorted x = before ++ x :: after ∧
      (∀ y ∈ before, name y < name x) ∧ ∀ y ∈ after, name x < name y := by
  unfold insertSorted
  cases hback : v.toList.getLast? with
  | none =>
    rw [List.getLast?_eq_none_iff] at hback
    exact Or.inr ⟨[], [], hback, rfl, by simp, by simp⟩
  | some back =>
    simp only
    split
    · rename_i hlt
      exact Or.inr ⟨v.toList, [], (List.append_nil _).symm, rfl, lt_of_getLast hback hlt, by simp⟩
    · split
      · rename_i hkey
        exact Or.inl ⟨rfl, back, List.mem_of_getLast? hback, hkey⟩
      · cases hp : v.getPos (name x) with
        | mk i b =>
          have hloc := v.getPos_located (name x)
          rw [hp] at hloc
          cases hloc with
          | @found before after y hl hy =>
            exact Or.inl ⟨rfl, y, by rw [hl]; simp, hy⟩
          | @missing before after hl hbefore hafter =>
            refine Or.inr ⟨before, after, hl, ?_, hbefore, hafter⟩
            simp only [insertAt, hl, List.take_left, List.drop_left]

theorem eraseKey_cases (v : SortedVector name) (key : κ) :
    (v.eraseKey key = v.toList ∧ ∀ y ∈ v.toList, name y ≠ key) ∨
    ∃ before x after, v.toList = before ++ x :: after ∧ name x = key ∧
      v.eraseKey key = before ++ after := by
  unfold eraseKey
  cases hp : v.getPos key with
  | mk i b =>
    have hloc := v.getPos_located key
    rw [hp] at hloc
    cases hloc with
    | @found before after x hl hx =>
      refine Or.inr ⟨before, x, after, hl, hx, ?_⟩
      simp only [hl]
      rw [List.eraseIdx_append_of_length_le le_rfl, Nat.sub_self]
      rfl
    | @missing before after hl hbefore hafter =>
      refine Or.inl ⟨rfl, fun y hy => ?_⟩
      rw [hl] at hy
      rcases List.mem_append.mp hy with hy | hy
      · exact (hbefore y hy).ne
      · exact (hafter y hy).ne'

/-- `insert_sorted` -/
def insert (v : SortedVector name) (aItem : α) : SortedVector name where
  toList := v.insertSorted aItem
  sorted := by
    rcases v.insertSorted_cases aItem with ⟨h, -⟩ | ⟨before, after, hl, h, hbefore, hafter⟩
    · rw [h]; exact v.sorted
    · rw [h]; exact sorted_of_missing (hl ▸ v.sorted) hbefore hafter

/-- `erase_key` -/
def erase (v : SortedVector name) (key : κ) : SortedVector name where
  toList := v.eraseKey key
  sorted := by
    rcases v.eraseKey_cases key with ⟨h, -⟩ | ⟨before, x, after, hl, -, h⟩
    · rw [h]; exact v.sorted
    · rw [h]
      exact (hl ▸ v.sorted).sublist ((List.sublist_cons_self x after).append_left before)

/-- `pop_front` -/
def popFront (v : SortedVector name) : SortedVector name where
  toList := v.toList.tail
  sorted := v.sorted.tail

/-- Erase the elements that are not kept. -/
def filter (v : SortedVector name) (p : α → Bool) : SortedVector name where
  toList := v.toList.filter p
  sorted := v.sorted.filter p

/-- Write through a pointer: the element with this key is changed, its key is not. -/
def modify (v : SortedVector name) (key : κ) (f : α → α) (hf : ∀ x, name (f x) = name x) :
    SortedVector name where
  toList := v.toList.map fun x => if name x = key then f x else x
  sorted := by
    rw [List.pairwise_map]
    refine v.sorted.imp fun {x y} hxy => ?_
    have hname : ∀ z, name (if name z = key then f z else z) = name z := by
      intro z
      split
      · exact hf z
      · rfl
    rw [hname, hname]
    exact hxy

/-! ## The map -/

/-- Two elements with one key are one. -/
theorem eq_of_name {v : SortedVector name} {x y : α} (hx : x ∈ v.toList) (hy : y ∈ v.toList)
    (h : name x = name y) : x = y := by
  have hsame : v.toList.Pairwise fun x y => name x = name y → x = y :=
    v.sorted.imp fun hlt e => absurd e hlt.ne
  have hsymm : Std.Symm fun x y : α => name x = name y → x = y :=
    ⟨fun _ _ hxy e => (hxy e.symm).symm⟩
  exact List.Pairwise.forall_of_forall (fun _ _ _ => rfl) hsame hx hy h

theorem find_eq_some_iff {v : SortedVector name} {key : κ} {x : α} :
    v.find key = some x ↔ x ∈ v.toList ∧ name x = key := by
  unfold find
  cases hp : v.getPos key with
  | mk i b =>
    have hloc := v.getPos_located key
    rw [hp] at hloc
    cases hloc with
    | @found before after y hl hy =>
      have hget : v.toList[before.length]? = some y := by rw [hl]; simp
      have hmem : y ∈ v.toList := List.mem_of_getElem? hget
      simp only [hget, Option.some.injEq]
      constructor
      · rintro rfl
        exact ⟨hmem, hy⟩
      · intro ⟨hx, hkey⟩
        exact eq_of_name hmem hx (hy.trans hkey.symm)
    | @missing before after hl hbefore hafter =>
      refine iff_of_false (by simp) ?_
      intro ⟨hx, hkey⟩
      rw [hl] at hx
      rcases List.mem_append.mp hx with hx | hx
      · exact (hbefore x hx).ne hkey
      · exact (hafter x hx).ne' hkey

theorem find_eq_none_iff {v : SortedVector name} {key : κ} :
    v.find key = none ↔ ∀ x ∈ v.toList, name x ≠ key := by
  rw [Option.eq_none_iff_forall_ne_some]
  constructor
  · intro h x hx hkey
    exact h x (find_eq_some_iff.mpr ⟨hx, hkey⟩)
  · intro h x hx
    exact h x (find_eq_some_iff.mp hx).1 (find_eq_some_iff.mp hx).2

/-- `find` in a list that has no field for its order. -/
def findIn (name : α → κ) (l : List α) (key : κ) : Option α :=
  match getPosFrom name l key l.length 0 l.length with
  | (i, true) => l[i]?
  | (_, false) => none

theorem findIn_eq_find? {l : List α} (hl : l.Pairwise fun x y => name x < name y) {key : κ}
    {p : α → Bool} (hp : ∀ x, p x = true ↔ name x = key) : findIn name l key = l.find? p := by
  have hfind : findIn name l key = (⟨l, hl⟩ : SortedVector name).find key := rfl
  rw [hfind]
  cases h : l.find? p with
  | none =>
    rw [find_eq_none_iff]
    intro x hx hkey
    exact List.find?_eq_none.mp h x hx ((hp x).mpr hkey)
  | some x =>
    rw [find_eq_some_iff]
    exact ⟨List.mem_of_find?_eq_some h, (hp x).mp (List.find?_some h)⟩

/-- Two maps are equal where they have the same elements of a key. -/
theorem find_congr {v w : SortedVector name} {key : κ}
    (h : ∀ x, name x = key → (x ∈ v.toList ↔ x ∈ w.toList)) : v.find key = w.find key := by
  apply Option.ext
  intro x
  rw [find_eq_some_iff, find_eq_some_iff]
  constructor
  · intro ⟨hx, hkey⟩
    exact ⟨(h x hkey).mp hx, hkey⟩
  · intro ⟨hx, hkey⟩
    exact ⟨(h x hkey).mpr hx, hkey⟩

@[simp] theorem find_empty (key : κ) : (empty : SortedVector name).find key = none :=
  find_eq_none_iff.mpr (by simp [empty])

theorem mem_insert {v : SortedVector name} {x y : α} (hx : v.find (name x) = none) :
    y ∈ (v.insert x).toList ↔ y = x ∨ y ∈ v.toList := by
  rcases v.insertSorted_cases x with ⟨-, z, hz, hname⟩ | ⟨before, after, hl, h, -, -⟩
  · exact absurd hname (find_eq_none_iff.mp hx z hz)
  · show y ∈ v.insertSorted x ↔ _
    rw [h, hl, List.mem_append, List.mem_cons, List.mem_append]
    tauto

theorem insert_perm {v : SortedVector name} {x : α} (hx : v.find (name x) = none) :
    (v.insert x).toList.Perm (x :: v.toList) := by
  rcases v.insertSorted_cases x with ⟨-, z, hz, hname⟩ | ⟨before, after, hl, h, -, -⟩
  · exact absurd hname (find_eq_none_iff.mp hx z hz)
  · show (v.insertSorted x).Perm _
    rw [h, hl]
    exact List.perm_middle

theorem find_insert_self {v : SortedVector name} {x : α} (hx : v.find (name x) = none) :
    (v.insert x).find (name x) = some x :=
  find_eq_some_iff.mpr ⟨(mem_insert hx).mpr (Or.inl rfl), rfl⟩

theorem find_insert_ne {v : SortedVector name} {x : α} {key : κ} (hx : v.find (name x) = none)
    (hne : key ≠ name x) : (v.insert x).find key = v.find key := by
  apply find_congr
  intro y hy
  rw [mem_insert hx]
  exact or_iff_right fun e => hne (by rw [← hy, e])

theorem mem_erase {v : SortedVector name} {key : κ} {y : α} :
    y ∈ (v.erase key).toList ↔ y ∈ v.toList ∧ name y ≠ key := by
  show y ∈ v.eraseKey key ↔ _
  rcases v.eraseKey_cases key with ⟨h, hne⟩ | ⟨before, x, after, hl, hx, h⟩
  · rw [h]
    exact ⟨fun hy => ⟨hy, hne y hy⟩, And.left⟩
  · have hsorted := v.sorted
    rw [hl] at hsorted
    obtain ⟨-, hafter, hcross⟩ := List.pairwise_append.mp hsorted
    rw [h, hl]
    constructor
    · intro hy
      rcases List.mem_append.mp hy with hy | hy
      · exact ⟨by simp [hy], hx ▸ (hcross y hy x (by simp)).ne⟩
      · exact ⟨by simp [hy], hx ▸ ((List.pairwise_cons.mp hafter).1 y hy).ne'⟩
    · intro ⟨hy, hne⟩
      rw [List.mem_append, List.mem_cons] at hy
      rw [List.mem_append]
      exact hy.imp_right fun hy => hy.resolve_left fun e => hne (e ▸ hx)

theorem find_erase_self (v : SortedVector name) (key : κ) : (v.erase key).find key = none :=
  find_eq_none_iff.mpr fun _ hy => (mem_erase.mp hy).2

theorem find_erase_ne (v : SortedVector name) {key key' : κ} (hne : key' ≠ key) :
    (v.erase key).find key' = v.find key' := by
  apply find_congr
  intro y hy
  rw [mem_erase]
  exact and_iff_left (hy ▸ hne)

theorem find_modify_self (v : SortedVector name) {key : κ} {f : α → α}
    (hf : ∀ x, name (f x) = name x) : (v.modify key f hf).find key = (v.find key).map f := by
  cases h : v.find key with
  | none =>
    refine find_eq_none_iff.mpr fun y hy => ?_
    obtain ⟨x, hx, rfl⟩ := List.mem_map.mp hy
    have hne := find_eq_none_iff.mp h x hx
    rw [if_neg hne]
    exact hne
  | some x =>
    obtain ⟨hx, hkey⟩ := find_eq_some_iff.mp h
    refine find_eq_some_iff.mpr ⟨List.mem_map.mpr ⟨x, hx, if_pos hkey⟩, ?_⟩
    rw [hf, hkey]

theorem find_modify_ne (v : SortedVector name) {key key' : κ} {f : α → α}
    (hf : ∀ x, name (f x) = name x) (hne : key' ≠ key) :
    (v.modify key f hf).find key' = v.find key' := by
  apply find_congr
  intro y hy
  constructor
  · intro hmem
    obtain ⟨x, hx, rfl⟩ := List.mem_map.mp hmem
    by_cases hkey : name x = key
    · rw [if_pos hkey, hf, hkey] at hy
      exact absurd hy.symm hne
    · rw [if_neg hkey]
      exact hx
  · intro hmem
    exact List.mem_map.mpr ⟨y, hmem, if_neg fun e => hne (hy.symm.trans e)⟩

end SortedVector

end Lib
end Airdcpp
