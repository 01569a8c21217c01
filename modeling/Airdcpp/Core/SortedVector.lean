import Airdcpp.Lib.SortedVector

/-!
# `Core/SortedVector` — the container that is kept sorted

`SortedVector` as its operations are written: they compare keys by the sign of what `SortOperator`
returns, and give positions back. `none` is a read outside of the container.

With the order of the operator, the operations are those of `Lib/SortedVector`, where a sorted
vector is a finite map. So a sequence of operations is a sequence of changes to a map (`Op.change`),
and `find` reads that map (`sortedVector_map`).
-/

namespace Airdcpp
namespace Core
namespace SortedVector

/-- `SortOperator`: a total order, told by the sign of the result. -/
structure SortOperator (κ : Type*) where
  call : κ → κ → Int
  eq_zero_iff : ∀ a b, call a b = 0 ↔ a = b
  neg_iff : ∀ a b, call a b < 0 ↔ 0 < call b a
  trans : ∀ a b c, call a b < 0 → call b c < 0 → call a c < 0

/-- The elements: `NameOperator`, and the constructor that `emplace_sorted` forwards its arguments
    to. It stores the key. -/
structure Elements (κ ι α : Type*) where
  name : α → κ
  make : κ → ι → α
  name_make : ∀ k args, name (make k args) = k

variable {κ ι α : Type} (op : SortOperator κ) (el : Elements κ ι α)

/-! ## The operations -/

/-- The loop of `getPos`. -/
def getPosFrom (v : List α) (key : κ) (first count : Nat) : Option (Nat × Bool) :=
  if count = 0 then some (first, false)
  else do
    let x ← v[first + count / 2]?
    let res := op.call (el.name x) key
    if res < 0 then getPosFrom v key (first + count / 2 + 1) (count - (count / 2 + 1))
    else if res = 0 then some (first + count / 2, true)
    else getPosFrom v key first (count / 2)
termination_by count

def getPos (v : List α) (key : κ) : Option (Nat × Bool) := getPosFrom op el v key 0 v.length

def insert_sorted (v : List α) (aItem : α) : Option (List α × Nat × Bool) :=
  match v.getLast? with
  | none => some ([aItem], 0, true)
  | some back =>
    let res := op.call (el.name back) (el.name aItem)
    if res < 0 then some (v ++ [aItem], v.length, true)
    -- return the dupe
    else if res = 0 then some (v, v.length - 1, false)
    else do
      let p ← getPos op el v (el.name aItem)
      if p.2 then some (v, p.1, false)
      else some (Lib.insertAt p.1 aItem v, p.1, true)

def emplace_sorted (v : List α) (aKey : κ) (args : ι) : Option (List α × Nat × Bool) :=
  match v.getLast? with
  | none => some ([el.make aKey args], 0, true)
  | some back =>
    let res := op.call (el.name back) aKey
    if res < 0 then some (v ++ [el.make aKey args], v.length, true)
    -- return the dupe
    else if res = 0 then some (v, v.length - 1, false)
    else do
      let p ← getPos op el v aKey
      if p.2 then some (v, p.1, false)
      else some (Lib.insertAt p.1 (el.make aKey args) v, p.1, true)

/-- The position of the element, or the end. -/
def find (v : List α) (aKey : κ) : Option Nat := do
  let pos ← getPos op el v aKey
  some (if pos.2 then pos.1 else v.length)

def erase_key (v : List α) (aKey : κ) : Option (List α × Bool) := do
  let pos ← getPos op el v aKey
  some (if pos.2 then (v.eraseIdx pos.1, true) else (v, false))

/-! ## The order of the operator -/

variable {op el}

theorem SortOperator.call_self (a : κ) : op.call a a = 0 := (op.eq_zero_iff a a).mpr rfl

theorem SortOperator.pos_iff (a b : κ) : 0 < op.call a b ↔ op.call b a < 0 := (op.neg_iff b a).symm

theorem SortOperator.ne_of_neg {a b : κ} (h : op.call a b < 0) : a ≠ b := by
  intro heq
  rw [(op.eq_zero_iff a b).mpr heq] at h
  exact absurd h (Int.lt_irrefl 0)

/-- The sign of the result as an order. -/
abbrev SortOperator.linearOrder (op : SortOperator κ) : LinearOrder κ where
  le a b := op.call a b ≤ 0
  lt a b := op.call a b < 0
  le_refl a := op.call_self a |>.le
  le_trans a b c hab hbc := by
    rcases Int.lt_or_eq_of_le hab with hab | hab
    · rcases Int.lt_or_eq_of_le hbc with hbc | hbc
      · exact (op.trans a b c hab hbc).le
      · rw [← (op.eq_zero_iff b c).mp hbc]
        exact hab.le
    · rw [(op.eq_zero_iff a b).mp hab]
      exact hbc
  lt_iff_le_not_ge a b := by
    rw [Int.not_le, SortOperator.pos_iff]
    exact ⟨fun h => ⟨h.le, h⟩, And.right⟩
  le_antisymm a b hab hba := by
    rcases Int.lt_or_eq_of_le hab with h | h
    · rw [op.neg_iff] at h
      exact absurd hba (Int.not_le.mpr h)
    · exact (op.eq_zero_iff a b).mp h
  le_total a b := by
    rcases Int.lt_trichotomy (op.call a b) 0 with h | h | h
    · exact Or.inl h.le
    · exact Or.inl h.le
    · exact Or.inr ((SortOperator.pos_iff a b).mp h).le
  toDecidableLE a b := inferInstanceAs (Decidable (op.call a b ≤ 0))
  toDecidableLT a b := inferInstanceAs (Decidable (op.call a b < 0))
  toDecidableEq a b := decidable_of_iff (op.call a b = 0) (op.eq_zero_iff a b)

/-- The keys are strictly increasing. -/
def Sorted (op : SortOperator κ) (el : Elements κ ι α) (v : List α) : Prop :=
  v.Pairwise fun x y => op.call (el.name x) (el.name y) < 0

variable {v : List α} {key : κ} {x y : α} {args : ι}

/-- The loop is the one of the library, and reads nothing outside of the container. -/
theorem getPosFrom_eq (key : κ) (fuel first count : Nat) (hfuel : count ≤ fuel)
    (hcount : first + count ≤ v.length) :
    getPosFrom op el v key first count =
      some (@Lib.SortedVector.getPosFrom α κ op.linearOrder el.name v key fuel first count) := by
  let _ := op.linearOrder
  induction fuel generalizing first count with
  | zero =>
    obtain rfl := Nat.le_zero.mp hfuel
    rw [getPosFrom, if_pos rfl, Lib.SortedVector.getPosFrom]
  | succ fuel ih =>
    rw [getPosFrom, Lib.SortedVector.getPosFrom]
    by_cases hzero : count = 0
    · subst hzero
      cases v[first + 0 / 2]? <;> rfl
    · have hmid : first + count / 2 < v.length := by omega
      rw [if_neg hzero, List.getElem?_eq_getElem hmid]
      simp only [if_neg hzero, Option.bind_eq_bind, Option.bind_some]
      by_cases hlt : op.call (el.name v[first + count / 2]) key < 0
      · rw [if_pos hlt, ih _ _ (by omega) (by omega)]
        exact congrArg some (if_pos hlt).symm
      · by_cases hkey : op.call (el.name v[first + count / 2]) key = 0
        · rw [if_neg hlt, if_pos hkey]
          refine congrArg some (Eq.symm ?_)
          rw [if_pos ((op.eq_zero_iff _ _).mp hkey)]
          exact if_neg hlt
        · rw [if_neg hlt, if_neg hkey, ih _ _ (by omega) (by omega)]
          refine congrArg some (Eq.symm ?_)
          rw [if_neg fun heq => hkey ((op.eq_zero_iff _ _).mpr heq)]
          exact if_neg hlt

/-- **Where a key is**, or where it is missing. -/
theorem getPos_located (hv : Sorted op el v) (key : κ) :
    ∃ p, getPos op el v key = some p ∧
      @Lib.SortedVector.Located α κ op.linearOrder el.name key v p := by
  let _ := op.linearOrder
  refine ⟨_, getPosFrom_eq key v.length 0 v.length le_rfl (Nat.zero_add _).le, ?_⟩
  exact (⟨v, hv⟩ : Lib.SortedVector el.name).getPos_located key

/-! ## What the operations do -/

theorem emplace_sorted_eq (v : List α) (key : κ) (args : ι) :
    emplace_sorted op el v key args = insert_sorted op el v (el.make key args) := by
  rw [emplace_sorted, insert_sorted, el.name_make]

/-- An insertion finds the element with the key, or it puts the new one between the others. -/
theorem insert_sorted_cases (hv : Sorted op el v) (x : α) :
    (∃ i y, insert_sorted op el v x = some (v, i, false) ∧ v[i]? = some y ∧ el.name y = el.name x) ∨
    ∃ before after, v = before ++ after ∧
      insert_sorted op el v x = some (before ++ x :: after, before.length, true) ∧
      (∀ y ∈ before, op.call (el.name y) (el.name x) < 0) ∧
      ∀ y ∈ after, op.call (el.name x) (el.name y) < 0 := by
  rw [insert_sorted]
  cases hback : v.getLast? with
  | none =>
    rw [List.getLast?_eq_none_iff] at hback
    exact Or.inr ⟨[], [], hback, rfl, by simp, by simp⟩
  | some back =>
    simp only
    by_cases hlt : op.call (el.name back) (el.name x) < 0
    · rw [if_pos hlt]
      refine Or.inr ⟨v, [], (List.append_nil v).symm, rfl, ?_, by simp⟩
      let _ := op.linearOrder
      exact @Lib.SortedVector.lt_of_getLast _ _ _ el.name ⟨v, hv⟩ back (el.name x) hback hlt
    · rw [if_neg hlt]
      by_cases hkey : op.call (el.name back) (el.name x) = 0
      · rw [if_pos hkey]
        rw [List.getLast?_eq_getElem?] at hback
        exact Or.inl ⟨v.length - 1, back, rfl, hback, (op.eq_zero_iff _ _).mp hkey⟩
      · obtain ⟨p, hp, hloc⟩ := getPos_located hv (el.name x)
        rw [if_neg hkey, hp]
        cases hloc with
        | @found before after y hl hy =>
          refine Or.inl ⟨before.length, y, rfl, ?_, hy⟩
          rw [hl]
          simp
        | @missing before after hl hbefore hafter =>
          refine Or.inr ⟨before, after, hl, ?_, hbefore, hafter⟩
          simp [Lib.insertAt, hl]

theorem erase_key_cases (hv : Sorted op el v) (key : κ) :
    (erase_key op el v key = some (v, false) ∧ ∀ y ∈ v, el.name y ≠ key) ∨
    ∃ before x after, v = before ++ x :: after ∧ el.name x = key ∧
      erase_key op el v key = some (before ++ after, true) := by
  obtain ⟨p, hp, hloc⟩ := getPos_located hv key
  rw [erase_key, hp]
  let _ := op.linearOrder
  cases hloc with
  | @found before after x hl hx =>
    refine Or.inr ⟨before, x, after, hl, hx, ?_⟩
    simp only [hl, Option.bind_eq_bind, Option.bind_some, if_true]
    rw [List.eraseIdx_append_of_length_le le_rfl, Nat.sub_self]
    rfl
  | @missing before after hl hbefore hafter =>
    refine Or.inl ⟨rfl, fun y hy => ?_⟩
    rw [hl] at hy
    rcases List.mem_append.mp hy with hy | hy
    · exact (hbefore y hy).ne
    · exact (hafter y hy).ne'

/-! ## The map -/

/-- An operation, with what it is called with. -/
inductive Op (κ ι α : Type)
  | insert_sorted (aItem : α)
  | emplace_sorted (aKey : κ) (args : ι)
  | erase_key (aKey : κ)

namespace Op

/-- The element that goes into the container. -/
def inserts (el : Elements κ ι α) : Op κ ι α → Option α
  | insert_sorted aItem => some aItem
  | emplace_sorted aKey args => some (el.make aKey args)
  | erase_key _ => none

def run (op : SortOperator κ) (el : Elements κ ι α) (v : List α) : Op κ ι α → Option (List α)
  | insert_sorted aItem => (SortedVector.insert_sorted op el v aItem).map Prod.fst
  | emplace_sorted aKey args => (SortedVector.emplace_sorted op el v aKey args).map Prod.fst
  | erase_key aKey => (SortedVector.erase_key op el v aKey).map Prod.fst

variable [DecidableEq κ]

/-- What an operation does to a map: an element that has the key already stays. -/
def change (el : Elements κ ι α) (m : κ → Option α) (o : Op κ ι α) : κ → Option α :=
  match o with
  | insert_sorted aItem => Function.update m (el.name aItem) ((m (el.name aItem)).or (some aItem))
  | emplace_sorted aKey args => Function.update m aKey ((m aKey).or (some (el.make aKey args)))
  | erase_key aKey => Function.update m aKey none

end Op

theorem Sorted.ne {before after : List α} (h : Sorted op el (before ++ x :: after)) :
    ∀ y ∈ before ++ after, el.name y ≠ el.name x := by
  obtain ⟨-, hafter, hcross⟩ := List.pairwise_append.mp h
  intro y hy
  rcases List.mem_append.mp hy with hy | hy
  · exact SortOperator.ne_of_neg (hcross y hy x List.mem_cons_self)
  · exact (SortOperator.ne_of_neg ((List.pairwise_cons.mp hafter).1 y hy)).symm

/-- The container has the elements of the map. -/
structure Represents (op : SortOperator κ) (el : Elements κ ι α) (v : List α) (m : κ → Option α) :
    Prop where
  sorted : Sorted op el v
  mem_iff : ∀ k x, m k = some x ↔ x ∈ v ∧ el.name x = k

variable {m : κ → Option α}

theorem Represents.nil : Represents op el [] fun _ => none := ⟨List.Pairwise.nil, by simp⟩

/-- The element with the key of another one. -/
theorem Represents.eq_some (h : Represents op el v m) {i : Nat} (hi : v[i]? = some y) :
    m (el.name y) = some y :=
  (h.mem_iff _ _).mpr ⟨List.mem_of_getElem? hi, rfl⟩

theorem Represents.find (h : Represents op el v m) (key : κ) :
    ∃ i, SortedVector.find op el v key = some i ∧ v[i]? = m key := by
  obtain ⟨p, hp, hloc⟩ := getPos_located h.sorted key
  rw [SortedVector.find, hp]
  cases hloc with
  | @found before after x hl hx =>
    have hx' : v[before.length]? = some x := by
      rw [hl]
      simp
    refine ⟨before.length, rfl, ?_⟩
    rw [hx', ← hx, h.eq_some hx']
  | @missing before after hl hbefore hafter =>
    refine ⟨v.length, rfl, ?_⟩
    rw [List.getElem?_eq_none le_rfl, eq_comm, Option.eq_none_iff_forall_ne_some]
    intro y hy
    obtain ⟨hmem, hkey⟩ := (h.mem_iff _ _).mp hy
    rw [hl] at hmem
    rcases List.mem_append.mp hmem with hmem | hmem
    · exact SortOperator.ne_of_neg (hbefore y hmem) hkey
    · exact SortOperator.ne_of_neg (hafter y hmem) hkey.symm

variable [DecidableEq κ]

/-- The map after some operations. -/
def contents (el : Elements κ ι α) (ops : List (Op κ ι α)) : κ → Option α :=
  ops.foldl (Op.change el) fun _ => none

/-- The container after some operations. -/
def runAll (op : SortOperator κ) (el : Elements κ ι α) (ops : List (Op κ ι α)) : Option (List α) :=
  ops.foldlM (Op.run op el) []

variable {ops : List (Op κ ι α)}

namespace Represents

theorem insert {before after : List α} (h : Represents op el (before ++ after) m)
    (hbefore : ∀ y ∈ before, op.call (el.name y) (el.name x) < 0)
    (hafter : ∀ y ∈ after, op.call (el.name x) (el.name y) < 0) :
    m (el.name x) = none ∧
      Represents op el (before ++ x :: after) (Function.update m (el.name x) (some x)) := by
  have hsorted : Sorted op el (before ++ x :: after) :=
    @Lib.SortedVector.sorted_of_missing α κ op.linearOrder el.name before after x h.sorted hbefore
      hafter
  have hne := hsorted.ne
  have hnone : m (el.name x) = none := by
    rw [Option.eq_none_iff_forall_ne_some]
    intro y hy
    obtain ⟨hmem, hkey⟩ := (h.mem_iff _ _).mp hy
    exact hne y hmem hkey
  refine ⟨hnone, hsorted, fun k y => ?_⟩
  rw [Function.update_apply]
  split
  · rename_i hk
    subst hk
    rw [Option.some.injEq, List.mem_append, List.mem_cons]
    constructor
    · rintro rfl
      exact ⟨Or.inr (Or.inl rfl), rfl⟩
    · rintro ⟨hy | rfl | hy, hkey⟩
      · exact absurd hkey (hne y (List.mem_append_left _ hy))
      · rfl
      · exact absurd hkey (hne y (List.mem_append_right _ hy))
  · rename_i hk
    rw [h.mem_iff, List.mem_append, List.mem_append, List.mem_cons]
    refine and_congr_left fun hkey => or_congr_right (or_iff_right ?_).symm
    rintro rfl
    exact hk hkey.symm

/-- **An insertion**: an element that has the key already stays, and is returned. -/
theorem insert_sorted (h : Represents op el v m) (x : α) :
    ∃ v' i, SortedVector.insert_sorted op el v x = some (v', i, (m (el.name x)).isNone) ∧
      v'[i]? = (m (el.name x)).or (some x) ∧ (m (el.name x) ≠ none → v' = v) ∧
      Represents op el v' (Function.update m (el.name x) ((m (el.name x)).or (some x))) := by
  rcases insert_sorted_cases h.sorted x with ⟨i, y, hinsert, hi, hkey⟩ |
    ⟨before, after, rfl, hinsert, hbefore, hafter⟩
  · have hy := h.eq_some hi
    rw [hkey] at hy
    refine ⟨v, i, ?_, ?_, fun _ => rfl, ?_⟩
    · rw [hinsert, hy]
      rfl
    · rw [hi, hy]
      rfl
    · rw [hy, Option.some_or, ← hy, Function.update_eq_self]
      exact h
  · obtain ⟨hnone, hrep⟩ := h.insert hbefore hafter
    refine ⟨before ++ x :: after, before.length, ?_, ?_, fun hne => absurd hnone hne, ?_⟩
    · rw [hinsert, hnone]
      rfl
    · rw [hnone]
      simp
    · rw [hnone]
      exact hrep

theorem erase_key (h : Represents op el v m) (key : κ) :
    ∃ v', SortedVector.erase_key op el v key = some (v', (m key).isSome) ∧
      Represents op el v' (Function.update m key none) := by
  rcases erase_key_cases h.sorted key with ⟨herase, hne⟩ | ⟨before, x, after, rfl, hkey, herase⟩
  · have hnone : m key = none := by
      rw [Option.eq_none_iff_forall_ne_some]
      intro y hy
      obtain ⟨hmem, hkey⟩ := (h.mem_iff _ _).mp hy
      exact hne y hmem hkey
    refine ⟨v, by rw [herase, hnone]; rfl, ?_⟩
    rw [← hnone, Function.update_eq_self]
    exact h
  · have hsome : m key = some x := (h.mem_iff _ _).mpr ⟨by simp, hkey⟩
    refine ⟨before ++ after, by rw [herase, hsome]; rfl, ?_, fun k y => ?_⟩
    · exact h.sorted.sublist ((List.sublist_cons_self x after).append_left before)
    · have hne := h.sorted.ne
      rw [Function.update_apply]
      split
      · rename_i hk
        refine iff_of_false (by simp) ?_
        rintro ⟨hy, rfl⟩
        exact hne y hy (hk.trans hkey.symm)
      · rename_i hk
        rw [h.mem_iff, List.mem_append, List.mem_append, List.mem_cons]
        refine and_congr_left fun hy => or_congr_right (or_iff_right ?_)
        rintro rfl
        exact hk (hy.symm.trans hkey)

/-- Every operation changes the container as it changes the map. -/
theorem run (h : Represents op el v m) (o : Op κ ι α) :
    ∃ v', o.run op el v = some v' ∧ Represents op el v' (o.change el m) := by
  cases o with
  | insert_sorted x =>
    obtain ⟨v', i, hinsert, -, -, hrep⟩ := h.insert_sorted x
    exact ⟨v', by rw [Op.run, hinsert]; rfl, hrep⟩
  | emplace_sorted key args =>
    obtain ⟨v', i, hinsert, -, -, hrep⟩ := h.insert_sorted (el.make key args)
    rw [el.name_make] at hrep
    exact ⟨v', by rw [Op.run, emplace_sorted_eq, hinsert]; rfl, hrep⟩
  | erase_key key =>
    obtain ⟨v', herase, hrep⟩ := h.erase_key key
    exact ⟨v', by rw [Op.run, herase]; rfl, hrep⟩

theorem runFrom (h : Represents op el v m) (ops : List (Op κ ι α)) :
    ∃ v', ops.foldlM (Op.run op el) v = some v' ∧ Represents op el v'
      (ops.foldl (Op.change el) m) := by
  induction ops generalizing v m with
  | nil => exact ⟨v, rfl, h⟩
  | cons o ops ih =>
    obtain ⟨v₁, hrun, h₁⟩ := h.run o
    obtain ⟨v₂, hruns, h₂⟩ := ih h₁
    refine ⟨v₂, ?_, h₂⟩
    rw [List.foldlM_cons, hrun]
    exact hruns

end Represents

theorem contents_concat (ops : List (Op κ ι α)) (o : Op κ ι α) :
    contents el (ops ++ [o]) = o.change el (contents el ops) := by
  rw [contents, contents, List.foldl_append]
  rfl

theorem change_emplace (key : κ) (args : ι) :
    (Op.emplace_sorted key args).change el m =
      (Op.insert_sorted (el.make key args) : Op κ ι α).change el m := by
  rw [Op.change, Op.change, el.name_make]

theorem change_insert_eq_some_iff (y : α) (k : κ) (x : α) :
    (Op.insert_sorted y : Op κ ι α).change el m k = some x ↔
      (m k = none ∧ y = x ∧ el.name x = k) ∨ m k = some x := by
  rw [Op.change, Function.update_apply]
  split
  · rename_i hk
    subst hk
    cases hm : m (el.name y) with
    | none =>
      simp only [Option.none_or, Option.some.injEq, true_and, reduceCtorEq, or_false]
      constructor
      · rintro rfl
        exact ⟨rfl, rfl⟩
      · exact And.left
    | some z => simp
  · rename_i hk
    refine (or_iff_right ?_).symm
    rintro ⟨-, rfl, hkey⟩
    exact hk hkey.symm

/-- What an operation does to a key: it puts an element there, or it leaves the one that is
    there. -/
theorem change_eq_some_iff (o : Op κ ι α) (k : κ) (x : α) :
    o.change el m k = some x ↔
      (m k = none ∧ o.inserts el = some x ∧ el.name x = k) ∨ (m k = some x ∧ o ≠ .erase_key k) := by
  cases o with
  | insert_sorted y => simp [change_insert_eq_some_iff, Op.inserts]
  | emplace_sorted key args => simp [change_emplace, change_insert_eq_some_iff, Op.inserts]
  | erase_key key =>
    rw [Op.change, Function.update_apply]
    by_cases hk : k = key
    · simp [hk, Op.inserts]
    · simp [hk, Op.inserts, Ne.symm hk]

/-- The element in the map is the one that was inserted for its key and has not been erased
    since. -/
theorem contents_eq_some_iff (ops : List (Op κ ι α)) (k : κ) (x : α) :
    contents el ops k = some x ↔
      ∃ before o after, ops = before ++ o :: after ∧ contents el before k = none ∧
        o.inserts el = some x ∧
        el.name x = k ∧ Op.erase_key k ∉ after := by
  induction ops using List.reverseRecOn with
  | nil => simp [contents]
  | append_singleton ops o ih =>
    rw [contents_concat, change_eq_some_iff, ih]
    constructor
    · rintro (⟨hnone, hinserts, hkey⟩ |
        ⟨⟨before, o', after, rfl, hnone, hinserts, hkey, herase⟩, ho⟩)
      · exact ⟨ops, o, [], rfl, hnone, hinserts, hkey, List.not_mem_nil⟩
      · refine ⟨before, o', after ++ [o], by simp, hnone, hinserts, hkey, ?_⟩
        simp [herase, ho.symm]
    · rintro ⟨before, o', after, hsplit, hnone, hinserts, hkey, herase⟩
      rcases List.eq_nil_or_concat after with rfl | ⟨after, o'', rfl⟩
      · obtain ⟨rfl, ho⟩ := List.append_inj' hsplit rfl
        obtain rfl := (List.cons.inj ho).1
        exact Or.inl ⟨hnone, hinserts, hkey⟩
      · rw [List.concat_eq_append, ← List.cons_append, ← List.append_assoc] at hsplit
        obtain ⟨rfl, ho⟩ := List.append_inj' hsplit rfl
        obtain rfl := (List.cons.inj ho).1
        rw [List.concat_eq_append, List.mem_append, not_or, List.mem_singleton] at herase
        exact Or.inr ⟨⟨before, o', after, rfl, hnone, hinserts, hkey, herase.1⟩, Ne.symm herase.2⟩

/-- **A sorted vector is a finite map.** Whatever the order of the operations, nothing is read
    outside of the container, its keys are strictly increasing, and `find` gives the position of the
    element that was inserted for its key and has not been erased since. An insertion with that key
    returns this element and changes nothing. -/
theorem sortedVector_map (op : SortOperator κ) (el : Elements κ ι α) (ops : List (Op κ ι α)) :
    ∃ v, runAll op el ops = some v ∧ Sorted op el v ∧
      (∀ k, ∃ i, find op el v k = some i ∧ ∀ x, v[i]? = some x ↔
        ∃ before o after, ops = before ++ o :: after ∧ contents el before k = none ∧
          o.inserts el = some x ∧
          el.name x = k ∧ Op.erase_key k ∉ after) ∧
      ∀ k x y, contents el ops k = some y →
        (el.name x = k → ∃ i, insert_sorted op el v x = some (v, i, false) ∧ v[i]? = some y) ∧
        ∀ args, ∃ i, emplace_sorted op el v k args = some (v, i, false) ∧ v[i]? = some y := by
  have hnil : Represents op el [] fun _ => none := Represents.nil
  obtain ⟨v, hrun, hrep⟩ := hnil.runFrom ops
  have hdupe : ∀ x y, contents el ops (el.name x) = some y →
      ∃ i, insert_sorted op el v x = some (v, i, false) ∧ v[i]? = some y := by
    intro x y hy
    obtain ⟨v', i, hinsert, hi, hsame, -⟩ := hrep.insert_sorted x
    change (contents el ops (el.name x) ≠ none → v' = v) at hsame
    change insert_sorted op el v x = some (v', i, (contents el ops (el.name x)).isNone) at hinsert
    change v'[i]? = (contents el ops (el.name x)).or (some x) at hi
    rw [hy] at hinsert hi hsame
    obtain rfl := hsame (Option.some_ne_none y)
    exact ⟨i, hinsert, hi⟩
  refine ⟨v, hrun, hrep.sorted, fun k => ?_, fun k x y hy => ⟨?_, fun args => ?_⟩⟩
  · obtain ⟨i, hfind, hi⟩ := hrep.find k
    refine ⟨i, hfind, fun x => ?_⟩
    rw [hi]
    exact contents_eq_some_iff ops k x
  · rintro rfl
    exact hdupe x y hy
  · rw [emplace_sorted_eq]
    exact hdupe _ y (by rw [el.name_make, hy])

end SortedVector
end Core
end Airdcpp
