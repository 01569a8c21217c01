import Airdcpp.Lib.Runs
import Airdcpp.WebApi.ViewTasks

/-!
# `WebApi/ViewRange` — the visible range while tasks are run

When items are added or removed, the first position of the visible range is to be moved, so that the
viewport stays where it is. A task puts an item into the list, takes one out or leaves the list
alone (`effect`), and an item follows the first position (`Follows`) if it stands there before and
afterwards.

The position is not moved for an item that is put in directly at it, and a removal moves it for the
items behind it instead of those in front of it. `Meets` leaves out exactly these tasks.
-/

namespace Airdcpp
namespace ListView

variable {T : Type*} [LinearOrder T]

/-- What a task does to the list of the matching items. -/
inductive Effect
  | nothing
  | inserts
  | removes
deriving DecidableEq, Repr

def effect (s : ViewSettings T) (v : ListView T) (aItem : T) : ViewTasks → Effect
  | .UPDATE_ITEM =>
    if s.sourceFilter aItem = false ∨ (aItem ∉ v.matchingItems ∧
      aItem ∉ v.sourceItems) then .nothing
    else if aItem ∈ v.matchingItems then (if s.filters aItem then .nothing else .removes)
    else if s.filters aItem then .inserts
    else .nothing
  | .ADD_ITEM => if s.sourceFilter aItem ∧ s.filters aItem then .inserts else .nothing
  | .REMOVE_ITEM => if aItem ∈ v.matchingItems then .removes else .nothing

/-- The list and the position after an effect. -/
def applyEffect (s : ViewSettings T) (v : ListView T) (aItem : T) : Effect → List T × Int
  | .nothing => (v.matchingItems, v.rangeStart)
  | .inserts =>
    ((v.addMatchingItemUnsafe s aItem).matchingItems, (v.addMatchingItemUnsafe s aItem).rangeStart)
  | .removes =>
    ((v.removeMatchingItemUnsafe aItem).matchingItems,
    (v.removeMatchingItemUnsafe aItem).rangeStart)

theorem handleTask_effect (s : ViewSettings T) (v : ListView T) (aItem : T) (t : ViewTasks) :
    ((v.handleTask s aItem t).2.matchingItems, (v.handleTask s aItem t).2.rangeStart) =
      v.applyEffect s aItem (v.effect s aItem t) := by
  cases t with
  | ADD_ITEM =>
    simp only [handleTask, handleAddItemTask, effect]
    cases s.sourceFilter aItem <;> cases s.filters aItem <;> simp [applyEffect,
      addMatchingItemUnsafe]
  | REMOVE_ITEM =>
    simp only [handleTask, handleRemoveItemTask, effect]
    by_cases hmem : aItem ∈ v.matchingItems
    · rw [if_pos hmem]
      simp only [applyEffect, removeMatchingItemUnsafe]
      split <;> rfl
    · rw [if_neg hmem]
      simp [applyEffect, removeMatchingItemUnsafe, List.idxOf?_eq_none_iff.mpr hmem]
  | UPDATE_ITEM =>
    simp only [handleTask, handleUpdateItemTask, effect]
    cases s.sourceFilter aItem with
    | false => simp [applyEffect]
    | true =>
      by_cases hmem : aItem ∈ v.matchingItems
      · cases s.filters aItem <;> simp [hmem, applyEffect]
      · by_cases hsource : aItem ∈ v.sourceItems
        · cases s.filters aItem <;> simp [hmem, hsource, applyEffect]
        · simp [hmem, hsource, applyEffect]

/-! ## Positions -/

section Positions

variable {α : Type*} [DecidableEq α] {x y : α} {l : List α} {pos : Nat}

/-- Where an item stands after another one has been inserted. -/
theorem idxOf_insertAt (hx : x ∈ l) :
    (Lib.insertAt pos y l).idxOf x =
      if l.idxOf x < pos then l.idxOf x else if y = x then pos else l.idxOf x + 1 := by
  induction l generalizing pos with
  | nil => exact absurd hx List.not_mem_nil
  | cons a l ih =>
    cases pos with
    | zero =>
      rw [Lib.insertAt, List.take_zero, List.nil_append, List.drop_zero, List.idxOf_cons]
      by_cases hy : y = x
      · simp [hy]
      · rw [beq_eq_false_iff_ne.mpr hy]
        simp [hy]
    | succ pos =>
      have hcons : Lib.insertAt (pos + 1) y (a :: l) = a :: Lib.insertAt pos y l := rfl
      rw [hcons, List.idxOf_cons, List.idxOf_cons]
      by_cases ha : a = x
      · simp [ha]
      · have hmem : x ∈ l := (List.mem_cons.mp hx).resolve_left (Ne.symm ha)
        rw [beq_eq_false_iff_ne.mpr ha, cond_false, cond_false, ih hmem]
        by_cases hlt : l.idxOf x < pos
        · simp [hlt]
        · by_cases hy : y = x <;> simp [hlt, hy]

/-- Where an item stands after another one has been removed. -/
theorem idxOf_erase (hx : x ∈ l) (hy : y ∈ l) (hne : y ≠ x) :
    (l.erase y).idxOf x = if l.idxOf y < l.idxOf x then l.idxOf x - 1 else l.idxOf x := by
  induction l with
  | nil => exact absurd hx List.not_mem_nil
  | cons a l ih =>
    rw [List.idxOf_cons, List.idxOf_cons]
    by_cases hay : a = y
    · subst hay
      rw [beq_eq_false_iff_ne.mpr hne]
      simp
    · rw [List.erase_cons_tail (by simpa using hay), List.idxOf_cons]
      by_cases hax : a = x
      · simp [hax]
      · have hmemx : x ∈ l := (List.mem_cons.mp hx).resolve_left (Ne.symm hax)
        have hmemy : y ∈ l := (List.mem_cons.mp hy).resolve_left (Ne.symm hay)
        rw [beq_eq_false_iff_ne.mpr hax, beq_eq_false_iff_ne.mpr hay]
        simp only [cond_false, ih hmemx hmemy]
        split <;> split <;> omega

end Positions

/-! ## Steps -/

variable {s : ViewSettings T} {v : ListView T} {x aItem : T} {t : ViewTasks}

/-- An item stands at the first position of the range. -/
structure Follows (x : T) (v : ListView T) : Prop where
  mem : x ∈ v.matchingItems
  rangeStart_eq : v.rangeStart = v.matchingItems.idxOf x

/-- The task does not take the item out. -/
def Spares (s : ViewSettings T) (x : T) (v : ListView T) (t : T × ViewTasks) : Prop :=
  v.effect s t.1 t.2 = .removes → t.1 ≠ x

/-- The tasks of a run, none of which takes out the item that stands at the first position. -/
def tasksSparing (s : ViewSettings T) (x : T) : Lib.System (ListView T) (T × ViewTasks) where
  next v t := (v.handleTask s t.1 t.2).2
  allowed := Spares s x

/-- **When the position is moved correctly.** An item is not put in directly at the first position,
    and the item that stands there not once more in front of it. Items are removed only while the
    range begins with the list. -/
def Meets (s : ViewSettings T) (x : T) (v : ListView T) (t : T × ViewTasks) : Prop :=
  (v.effect s t.1 t.2 = .inserts →
    if t.1 = x then v.rangeStart ≤ Lib.upperBound s.itemSort t.1 v.matchingItems
    else v.rangeStart ≠ Lib.upperBound s.itemSort t.1 v.matchingItems) ∧
  (v.effect s t.1 t.2 = .removes → v.rangeStart = 0)

instance (s : ViewSettings T) (x : T) (v : ListView T) (t : T × ViewTasks) :
    Decidable (Spares s x v t) :=
  inferInstanceAs (Decidable (_ → _))

instance (s : ViewSettings T) (x : T) (v : ListView T) (t : T × ViewTasks) :
    Decidable (Meets s x v t) :=
  inferInstanceAs (Decidable (_ ∧ _))

instance (s : ViewSettings T) (x : T) (v : ListView T) (t : T × ViewTasks) :
    Decidable ((tasksSparing s x).allowed v t) :=
  inferInstanceAs (Decidable (Spares s x v t))

/-- The position after an insertion. -/
theorem follows_insert_iff (h : Follows x v) :
    Follows x (v.addMatchingItemUnsafe s aItem) ↔
      if aItem = x then v.rangeStart ≤ Lib.upperBound s.itemSort aItem v.matchingItems
      else v.rangeStart ≠ Lib.upperBound s.itemSort aItem v.matchingItems := by
  have hmem : x ∈ (v.addMatchingItemUnsafe s aItem).matchingItems :=
    Lib.insertAt_perm.mem_iff.mpr (List.mem_cons_of_mem _ h.mem)
  have hiff : Follows x (v.addMatchingItemUnsafe s aItem) ↔
      (v.addMatchingItemUnsafe s aItem).rangeStart =
        (v.addMatchingItemUnsafe s aItem).matchingItems.idxOf x :=
    ⟨fun h => h.rangeStart_eq, fun heq => ⟨hmem, heq⟩⟩
  rw [hiff]
  simp only [addMatchingItemUnsafe, h.rangeStart_eq, idxOf_insertAt h.mem]
  generalize Lib.upperBound s.itemSort aItem v.matchingItems = pos
  generalize v.matchingItems.idxOf x = i
  by_cases heq : aItem = x
  · simp only [heq, if_true]
    split <;> split <;> omega
  · simp only [heq, if_false]
    split <;> split <;> push_cast <;> omega

theorem removeMatchingItemUnsafe_of_mem (hmem : aItem ∈ v.matchingItems) :
    v.removeMatchingItemUnsafe aItem =
      { v with
        matchingItems := v.matchingItems.erase aItem
        rangeStart :=
          if 0 < v.rangeStart ∧ v.rangeStart <
            (v.matchingItems.idxOf aItem : Int) then v.rangeStart - 1
          else v.rangeStart } := by
  have hidx : v.matchingItems.idxOf? aItem = some (v.matchingItems.idxOf aItem) := by
    obtain ⟨before, after, hlist, hbefore⟩ := List.eq_append_cons_of_mem hmem
    rw [hlist, Lib.idxOf?_split hbefore, List.idxOf_append_of_notMem hbefore, List.idxOf_cons_self,
      Nat.add_zero]
  simp only [removeMatchingItemUnsafe, hidx, List.erase_eq_eraseIdx_of_idxOf rfl]

/-- The position after a removal. -/
theorem follows_remove_iff (h : Follows x v) (hmem : aItem ∈ v.matchingItems) (hne : aItem ≠ x) :
    Follows x (v.removeMatchingItemUnsafe aItem) ↔ v.rangeStart = 0 := by
  have hx : x ∈ v.matchingItems.erase aItem := (List.mem_erase_of_ne hne.symm).mpr h.mem
  have hiff : Follows x (v.removeMatchingItemUnsafe aItem) ↔
      (v.removeMatchingItemUnsafe aItem).rangeStart =
        (v.removeMatchingItemUnsafe aItem).matchingItems.idxOf x := by
    refine ⟨fun h => h.rangeStart_eq, fun heq => ⟨?_, heq⟩⟩
    rw [removeMatchingItemUnsafe_of_mem hmem]
    exact hx
  have hidx : v.matchingItems.idxOf aItem ≠ v.matchingItems.idxOf x := fun heq =>
    hne ((List.idxOf_inj hmem).mp heq)
  rw [hiff, removeMatchingItemUnsafe_of_mem hmem]
  simp only [h.rangeStart_eq, idxOf_erase h.mem hmem hne]
  generalize v.matchingItems.idxOf aItem = j at hidx
  generalize v.matchingItems.idxOf x = i at hidx
  split <;> split <;> omega

theorem follows_congr {v w : ListView T}
    (h : (v.matchingItems, v.rangeStart) = (w.matchingItems, w.rangeStart)) : Follows x v ↔
    Follows x w := by
  obtain ⟨hlist, hstart⟩ := Prod.mk.inj h
  constructor
  · rintro ⟨hmem, heq⟩
    exact ⟨hlist ▸ hmem, by rw [← hstart, ← hlist, heq]⟩
  · rintro ⟨hmem, heq⟩
    exact ⟨hlist ▸ hmem, by rw [hstart, hlist, heq]⟩

theorem mem_of_removes (h : v.effect s aItem t = .removes) : aItem ∈ v.matchingItems := by
  by_contra hmem
  cases t with
  | ADD_ITEM =>
    simp only [effect] at h
    split at h <;> exact Effect.noConfusion h
  | REMOVE_ITEM =>
    simp only [effect, if_neg hmem] at h
    exact Effect.noConfusion h
  | UPDATE_ITEM =>
    simp only [effect, if_neg hmem] at h
    split at h
    · exact Effect.noConfusion h
    · split at h <;> exact Effect.noConfusion h

/-- **One task.** The item is still at the first position exactly if the task meets the
    condition. -/
theorem follows_handleTask_iff (h : Follows x v) (hspares : Spares s x v (aItem, t)) :
    Follows x (v.handleTask s aItem t).2 ↔ Meets s x v (aItem, t) := by
  have heffect := handleTask_effect s v aItem t
  simp only [Meets]
  cases hcase : v.effect s aItem t with
  | nothing =>
    rw [hcase] at heffect
    exact iff_of_true ((follows_congr heffect).mpr h) (by simp)
  | inserts =>
    rw [hcase] at heffect
    rw [follows_congr heffect]
    simpa using follows_insert_iff h
  | removes =>
    rw [hcase] at heffect
    rw [follows_congr heffect]
    simpa using follows_remove_iff h (mem_of_removes hcase) (hspares hcase)

theorem rangeStart_handleTask_nonneg (h : 0 ≤ v.rangeStart) :
    0 ≤ (v.handleTask s aItem t).2.rangeStart := by
  have heffect := congrArg Prod.snd (handleTask_effect s v aItem t)
  simp only at heffect
  rw [heffect]
  cases v.effect s aItem t with
  | nothing => exact h
  | inserts =>
    simp only [applyEffect, addMatchingItemUnsafe]
    split <;> omega
  | removes =>
    simp only [applyEffect, removeMatchingItemUnsafe]
    split
    · exact h
    · simp only
      split <;> omega

/-! ## Runs -/

/-- **The range follows its first item.** An item that stands at the first position stays there in
    every run whose tasks all meet the condition, and a task that does not meet it moves the
    position away from the item. The position is never negative. -/
theorem range_follows (s : ViewSettings T) (x : T) :
    (∀ v, Lib.Reaches ((tasksSparing s x).restrict (Meets s x)) (Follows x) v → Follows x v) ∧
    (∀ v t, Follows x v → Spares s x v t →
      (Follows x (v.handleTask s t.1 t.2).2 ↔ Meets s x v t)) ∧
    ∀ v, Lib.Reaches (tasksSparing s x) (fun w => 0 ≤ ListView.rangeStart w) v →
      0 ≤ v.rangeStart := by
  refine ⟨?_, fun v t h hspares => follows_handleTask_iff h hspares, ?_⟩
  · intro v hreaches
    refine hreaches.invariant (fun v h => h) ?_
    intro v t h hstep
    exact (follows_handleTask_iff h hstep.1).mpr hstep.2
  · intro v hreaches
    refine Lib.Reaches.invariant (I := fun v : ListView T => 0 ≤ v.rangeStart)
      (fun v h => h) ?_ hreaches
    intro v t h _
    exact rangeStart_handleTask_nonneg h

/-- A list of numbers, with the second one visible first. -/
def threeFirst : ListView Nat := ⟨{1, 3, 5}, [1, 3, 5], 1⟩

def threeTasks : List (Nat × ViewTasks) := [(0, .ADD_ITEM), (9, .ADD_ITEM), (3, .UPDATE_ITEM)]

theorem range_follows_three : Follows 3 (threeFirst.handleAll plainView threeTasks) := by
  have hstart : Follows 3 threeFirst := ⟨by decide, by decide⟩
  have hallowed : ((tasksSparing plainView 3).restrict (Meets plainView 3)).AllowedAlong threeFirst
      threeTasks := by
    decide
  exact (range_follows plainView 3).1 _ (Lib.Reaches.run (Lib.Reaches.start hstart) hallowed)

/-- The item in front of the range is removed, and the position does not follow. -/
theorem range_does_not_follow :
    ¬ ∀ (s : ViewSettings Nat) (x : Nat) (v : ListView Nat) (t : Nat × ViewTasks),
      Follows x v → Spares s x v t → Follows x (v.handleTask s t.1 t.2).2 := by
  intro hall
  have h := hall plainView 3 threeFirst (1, .REMOVE_ITEM) ⟨by decide, by decide⟩ (by decide)
  exact absurd h.rangeStart_eq (by decide)

end ListView
end Airdcpp
