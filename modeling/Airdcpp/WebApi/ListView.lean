import Airdcpp.Lib.ListOps

/-!
# `WebApi/ListView` — the tasks of a list view

A view shows a range of a sorted list to a client of the web interface. The changes of the items are
queued by `ItemTasks`, at most one task for an item, and `handleTasks` applies them to the lists of
the view: the source items, and the matching ones in the order of the view.

Filters and the sort order look at the current properties of the items. While the tasks are run
these do not change, so a filter is a predicate on items here, and the order is a relation on them.
Properties have ids; what a client is told of them is not part of this module.

The first position of the visible range goes through the functions as `rangeStart`.
-/

namespace Airdcpp

/-- `PropertyIdSet` -/
abbrev PropertyIdSet := Finset Nat

/-- `Tasks`, in merging order -/
inductive ViewTasks
  | UPDATE_ITEM
  | ADD_ITEM
  | REMOVE_ITEM
deriving DecidableEq, Repr

namespace ViewTasks

def toNat : ViewTasks → Nat
  | UPDATE_ITEM => 0
  | ADD_ITEM => 1
  | REMOVE_ITEM => 2

end ViewTasks

structure MergeTask where
  type : ViewTasks
  updatedProperties : PropertyIdSet := ∅
deriving DecidableEq

def MergeTask.merge (t aTask : MergeTask) : MergeTask :=
  if aTask.type.toNat < t.type.toNat then t
  else if t.type = aTask.type then
    { t with updatedProperties := t.updatedProperties ∪ aTask.updatedProperties }
  else aTask

variable {T : Type*} [LinearOrder T]

/-- A call of the queue. -/
inductive ItemCall (T : Type*)
  | addItem (aItem : T)
  | removeItem (aItem : T)
  | updateItem (aItem : T) (aUpdatedProperties : PropertyIdSet)

namespace ItemCall

def item : ItemCall T → T
  | addItem aItem => aItem
  | removeItem aItem => aItem
  | updateItem aItem _ => aItem

/-- The task that is queued. -/
def task : ItemCall T → MergeTask
  | addItem _ => { type := .ADD_ITEM }
  | removeItem _ => { type := .REMOVE_ITEM }
  | updateItem _ aUpdatedProperties =>
    { type := .UPDATE_ITEM, updatedProperties := aUpdatedProperties }

end ItemCall

/-- `queueTask` on the entries of the map. -/
def queueTaskList (aItem : T) (aData : MergeTask) : List (T × MergeTask) → List (T × MergeTask)
  | [] => [(aItem, aData)]
  | (x, t) :: tasks =>
    if aItem = x then (x, t.merge aData) :: tasks
    else if aItem < x then (aItem, aData) :: (x, t) :: tasks
    else (x, t) :: queueTaskList aItem aData tasks

theorem mem_keys_queueTaskList {aItem x : T} {aData : MergeTask} {tasks : List (T × MergeTask)} :
    x ∈ (queueTaskList aItem aData tasks).map Prod.fst ↔ x = aItem ∨ x ∈ tasks.map Prod.fst := by
  induction tasks with
  | nil => simp [queueTaskList]
  | cons e tasks ih =>
    obtain ⟨y, t⟩ := e
    simp only [queueTaskList]
    split
    case isTrue heq => simp [heq]
    case isFalse =>
      split
      · simp
      · simp only [List.map_cons, List.mem_cons, ih]
        tauto

/-- `TaskMap`: the tasks in the order of the items. -/
structure TaskMap (T : Type*) [LinearOrder T] where
  toList : List (T × MergeTask)
  sorted : (toList.map Prod.fst).Pairwise (· < ·)

namespace TaskMap

theorem sorted_nil : (([] : List (T × MergeTask)).map Prod.fst).Pairwise (· < ·) :=
    List.Pairwise.nil

def empty : TaskMap T := ⟨[], sorted_nil⟩

def find? (tasks : TaskMap T) (aItem : T) : Option MergeTask := tasks.toList.lookup aItem

theorem sorted_queueTaskList {aItem : T} {aData : MergeTask} {tasks : List (T × MergeTask)}
    (h : (tasks.map Prod.fst).Pairwise (· < ·)) :
    ((queueTaskList aItem aData tasks).map Prod.fst).Pairwise (· < ·) := by
  induction tasks with
  | nil => simp [queueTaskList]
  | cons e tasks ih =>
    obtain ⟨y, t⟩ := e
    rw [List.map_cons, List.pairwise_cons] at h
    simp only [queueTaskList]
    split
    case isTrue => exact List.pairwise_cons.mpr h
    case isFalse hne =>
      split
      case isTrue hlt =>
        refine List.pairwise_cons.mpr ⟨?_, List.pairwise_cons.mpr h⟩
        intro z hz
        rcases List.mem_cons.mp hz with rfl | hz
        · exact hlt
        · exact hlt.trans (h.1 z hz)
      case isFalse hge =>
        refine List.pairwise_cons.mpr ⟨?_, ih h.2⟩
        intro z hz
        rcases mem_keys_queueTaskList.mp hz with rfl | hz
        · exact lt_of_le_of_ne (not_lt.mp hge) (Ne.symm hne)
        · exact h.1 z hz

def queueTask (tasks : TaskMap T) (aItem : T) (aData : MergeTask) : TaskMap T :=
  ⟨queueTaskList aItem aData tasks.toList, sorted_queueTaskList tasks.sorted⟩

end TaskMap

/-! ## The lists of a view -/

/-- The filters and the order of a view. -/
structure ViewSettings (T : Type*) where
  /-- `matchesSourceFilter` -/
  sourceFilter : T → Bool
  /-- `matchesFilter` -/
  filters : T → Bool
  itemSort : T → T → Bool

structure ListView (T : Type*) where
  sourceItems : Finset T
  matchingItems : List T
  /-- `rangeStart_` -/
  rangeStart : Int

namespace ListView

/-- Whether an item is in a list is decided by comparing it with the items there. -/
scoped instance lawfulBEq_of_linearOrder : LawfulBEq T := inferInstance

def addMatchingItemUnsafe (s : ViewSettings T) (v : ListView T) (aItem : T) : ListView T :=
  let pos := Lib.upperBound s.itemSort aItem v.matchingItems
  { v with
    matchingItems := Lib.insertAt pos aItem v.matchingItems
    rangeStart := if (pos : Int) < v.rangeStart then v.rangeStart + 1 else v.rangeStart }

def removeMatchingItemUnsafe (v : ListView T) (aItem : T) : ListView T :=
  match v.matchingItems.idxOf? aItem with
  | none => v
  | some pos =>
    { v with
      matchingItems := v.matchingItems.eraseIdx pos
      rangeStart :=
        if 0 < v.rangeStart ∧ v.rangeStart < (pos : Int) then v.rangeStart - 1 else v.rangeStart }

def handleAddItemTask (s : ViewSettings T) (v : ListView T) (aItem : T) : ListView T :=
  if !s.sourceFilter aItem then v
  else
    let v := { v with sourceItems := insert aItem v.sourceItems }
    if s.filters aItem then v.addMatchingItemUnsafe s aItem else v

def handleRemoveItemTask (v : ListView T) (aItem : T) : ListView T :=
  { v with sourceItems := v.sourceItems.erase aItem }.removeMatchingItemUnsafe aItem

/-- `handleUpdateItemTask`, and whether the item was in the list and stays there. -/
def handleUpdateItemTask (s : ViewSettings T) (v : ListView T) (aItem : T) : Bool × ListView T :=
  if !s.sourceFilter aItem then (false, v)
  else
    let inList := decide (aItem ∈ v.matchingItems)
    if !inList ∧ aItem ∉ v.sourceItems then (false, v)
    else if !s.filters aItem then (false, if inList then v.removeMatchingItemUnsafe aItem else v)
    else if !inList then (false, v.addMatchingItemUnsafe s aItem)
    else (true, v)

/-- A task, and whether the item is one of the updated items. -/
def handleTask (s : ViewSettings T) (v : ListView T) (aItem : T) : ViewTasks → Bool × ListView T
  | .ADD_ITEM => (false, v.handleAddItemTask s aItem)
  | .REMOVE_ITEM => (false, v.handleRemoveItemTask aItem)
  | .UPDATE_ITEM => v.handleUpdateItemTask s aItem

/-- The loop of `handleTasks`, with the updated items. -/
def handleTasksFrom (s : ViewSettings T) (v : ListView T) :
    List (T × MergeTask) → List (T × PropertyIdSet) × ListView T
  | [] => ([], v)
  | (x, t) :: tasks =>
    let (updated, v) := v.handleTask s x t.type
    let (updatedItems, v) := handleTasksFrom s v tasks
    (if updated then (x, t.updatedProperties) :: updatedItems else updatedItems, v)

def handleTasks (s : ViewSettings T) (v : ListView T) (aTaskList : TaskMap T) :
    List (T × PropertyIdSet) × ListView T :=
  v.handleTasksFrom s aTaskList.toList

/-- The lists after a sequence of tasks. -/
def handleAll (s : ViewSettings T) (v : ListView T) (tasks : List (T × ViewTasks)) : ListView T :=
  tasks.foldl (fun v t => (v.handleTask s t.1 t.2).2) v

theorem handleTasks_lists (s : ViewSettings T) (v : ListView T) (aTaskList : TaskMap T) :
    (v.handleTasks s aTaskList).2 =
    v.handleAll s (aTaskList.toList.map fun t => (t.1, t.2.type)) := by
  suffices h : ∀ tasks : List (T × MergeTask), (v.handleTasksFrom s tasks).2 =
      v.handleAll s (tasks.map fun t => (t.1, t.2.type)) from h aTaskList.toList
  intro tasks
  induction tasks generalizing v with
  | nil => rfl
  | cons t tasks ih =>
    simp only [handleTasksFrom, List.map_cons]
    rw [ih]
    rfl

end ListView
end Airdcpp
