import Airdcpp.Lib.Runs
import Airdcpp.WebApi.ViewTasks

/-!
# `WebApi/ListViewController` — a view and the list below it

The underlying list changes and tells its changes afterwards, in their order. What is told while the
view is active is queued for the next run of the tasks; what the list holds when the view is
activated is taken at once, by `initItems`. A changed filter builds the matching items anew from the
source items.

The steps are those of the locks: `onFilterUpdated` reads the source items under one lock and swaps
the result in under another, and `runTasks` takes the queue first and handles the tasks one after
the other, so that everything else may happen in between. Only one run of the tasks goes on at a
time.

An item has properties, and the filters and the order look at nothing else. What the sorting methods
of the handler answer is `compare`. The visible range is not part of this module.
-/

namespace Airdcpp

variable {T : Type*} [LinearOrder T] {P : Type*}

/-- The values of `IntCollector`, without the size of the range. -/
structure ViewValues where
  sortProperty : Int := -1
  sortAscending : Int := -1
  rangeStart : Int := -1
deriving DecidableEq

/-- A run of `runTasks`: the tasks it has not handled yet, and the values it goes by. -/
structure TaskRun (T : Type*) where
  tasks : List (T × MergeTask)
  updateValues : ViewValues

structure ListViewController (T P : Type*) [LinearOrder T] where
  /-- The underlying list, as `itemListF` returns it -/
  items : List T
  properties : T → P
  /-- What it has not told yet -/
  events : List (ItemCall T) := []
  active : Bool := false
  tasks : ItemTasks T := {}
  sourceFilter : P → Bool := fun _ => true
  filters : P → Bool := fun _ => true
  currentValues : ViewValues := {}
  /-- `hasChanged` -/
  changed : Bool := true
  prevValues : ViewValues := ⟨0, 0, 0⟩
  itemListChanged : Bool := false
  lists : ListView T := ⟨∅, [], -1⟩
  /-- The run that goes on -/
  run : Option (TaskRun T) := none
  /-- The new matching items of the filter changes that have not been swapped in -/
  itemsNew : List (List T) := []
  /-- Whether the items have been taken since the lists were empty -/
  initialised : Bool := false

namespace ListViewController

/-- What happens to a view and to its list. -/
inductive Op (T P : Type*)
  | listAdded (x : T) (p : P)
  | listRemoved (x : T)
  | listUpdated (x : T) (p : P) (aUpdatedProperties : PropertyIdSet)
  /-- `onItemAdded`, `onItemRemoved` or `onItemUpdated`, with the oldest event -/
  | deliver
  | setActive
  | initItems
  | clear
  | setSourceFilter (matcher : P → Bool)
  /-- The filters are changed; `onFilterUpdated` reads the source items. -/
  | setFilters (matchers : P → Bool)
  /-- The end of an `onFilterUpdated` -/
  | swapItems (i : Nat)
  | setValues (rangeStart sortProperty sortAscending : Option Int)
  /-- `runTasks` until it has sorted the list -/
  | beginTasks
  | handleTask
  | endTasks

section Steps

variable (compare : Int → P → P → Int)

def itemSort (properties : T → P) (aSortProperty aSortAscending : Int) (t1 t2 : T) : Bool :=
  let res := compare aSortProperty (properties t1) (properties t2)
  if aSortAscending = 1 then decide (res < 0) else decide (0 < res)

variable (v : ListViewController T P)

/-- `matchesSourceFilter` -/
def matchesSourceFilter (x : T) : Bool := v.sourceFilter (v.properties x)

/-- `matchesFilter` -/
def matchesFilter (x : T) : Bool := v.filters (v.properties x)

def settings (values : ViewValues) : ViewSettings T where
  sourceFilter := v.matchesSourceFilter
  filters := v.matchesFilter
  itemSort := itemSort compare v.properties values.sortProperty values.sortAscending

/-- An event of the list, or nothing if the view is not active. -/
def onItem (e : ItemCall T) : ListViewController T P :=
  if !v.active then v else { v with tasks := v.tasks.call e }

def initItems : ListViewController T P :=
  let passing := v.items.filter v.matchesSourceFilter
  { v with
    lists := { v.lists with
      sourceItems := v.lists.sourceItems ∪ passing.toFinset
      matchingItems := passing.filter v.matchesFilter }
    itemListChanged := true
    initialised := true }

def clear : ListViewController T P :=
  { v with
    tasks := {}
    lists := { v.lists with sourceItems := ∅, matchingItems := [] }
    initialised := false }

/-- The part of `onFilterUpdated` under the first lock. -/
def readItems (matchers : P → Bool) : ListViewController T P :=
  { v with
    filters := matchers
    itemsNew := v.itemsNew ++
      [(v.lists.sourceItems.sort (· ≤ ·)).filter fun x => matchers (v.properties x)] }

/-- The part of `onFilterUpdated` under the second lock. -/
def swapItems (i : Nat) : ListViewController T P :=
  { v with
    lists := { v.lists with matchingItems := v.itemsNew.getD i [] }
    itemsNew := v.itemsNew.eraseIdx i
    itemListChanged := true
    currentValues := { v.currentValues with rangeStart := 0 }
    changed := true }

def setValues (rangeStart sortProperty sortAscending : Option Int) : ListViewController T P :=
  { v with
    currentValues := {
      sortProperty := sortProperty.getD v.currentValues.sortProperty
      sortAscending := sortAscending.getD v.currentValues.sortAscending
      rangeStart := rangeStart.getD v.currentValues.rangeStart }
    changed := true }

/-- `maybeSort`. Sorting by insertion is stable. -/
def maybeSort (aUpdatedProperties : PropertyIdSet) (values : ViewValues) : List T :=
  if values.sortProperty.toNat ∈ aUpdatedProperties ∨
      v.prevValues.sortAscending ≠ values.sortAscending ∨
      v.prevValues.sortProperty ≠ values.sortProperty ∨ v.itemListChanged then
    v.lists.matchingItems.insertionSort fun x y =>
      itemSort compare v.properties values.sortProperty values.sortAscending y x = false
  else v.lists.matchingItems

/-- `runTasks` until `handleTasks`. Without a property to sort by, the tasks are taken and nothing
    is done with them. -/
def beginTasks : ListViewController T P :=
  let ((currentTasks, updatedProperties), tasks) := v.tasks.get
  if currentTasks.toList.isEmpty && !v.changed && !v.itemListChanged then { v with tasks := tasks }
  else if v.currentValues.sortProperty < 0 then { v with tasks := tasks, changed := false }
  else
    { v with
      tasks := tasks
      changed := false
      itemListChanged := false
      lists := { v.lists with
        matchingItems := maybeSort compare v updatedProperties v.currentValues
        rangeStart := v.currentValues.rangeStart }
      run := some ⟨currentTasks.toList, v.currentValues⟩ }

def handleTask : ListViewController T P :=
  match v.run with
  | some ⟨(x, t) :: tasks, values⟩ =>
    { v with
      lists := (v.lists.handleTask (v.settings compare values) x t.type).2
      run := some ⟨tasks, values⟩ }
  | _ => v

/-- The values are kept if the view is still active. -/
def endTasks : ListViewController T P :=
  match v.run with
  | some r =>
    { v with run := none, prevValues := if v.active then r.updateValues else v.prevValues }
  | none => v

def next : Op T P → ListViewController T P
  | .listAdded x p =>
    { v with
      items := v.items ++ [x]
      properties := Function.update v.properties x p
      events := v.events ++ [.addItem x] }
  | .listRemoved x => { v with items := v.items.erase x, events := v.events ++ [.removeItem x] }
  | .listUpdated x p aUpdatedProperties =>
    { v with
      properties := Function.update v.properties x p
      events := v.events ++ [.updateItem x aUpdatedProperties] }
  | .deliver =>
    match v.events with
    | e :: events => { v.onItem e with events := events }
    | [] => v
  | .setActive => { v with active := true }
  | .initItems => v.initItems
  | .clear => v.clear
  | .setSourceFilter matcher => { v with sourceFilter := matcher }
  | .setFilters matchers => v.readItems matchers
  | .swapItems i => v.swapItems i
  | .setValues rangeStart sortProperty sortAscending =>
    v.setValues rangeStart sortProperty sortAscending
  | .beginTasks => v.beginTasks compare
  | .handleTask => v.handleTask compare
  | .endTasks => v.endTasks

/-- The tasks that the present run has not handled. -/
def running : List (T × MergeTask) := (v.run.map TaskRun.tasks).getD []

/-- When a step can be taken: an item is added to the list once, and a run of the tasks goes on to
    its end. -/
def Possible : Op T P → Prop
  | .listAdded x _ => x ∉ v.items
  | .listRemoved x => x ∈ v.items
  | .listUpdated x _ _ => x ∈ v.items
  | .deliver => v.events ≠ []
  | .swapItems i => i < v.itemsNew.length
  | .beginTasks => v.run.isNone
  | .handleTask => v.running ≠ []
  | .endTasks => v.run.isSome ∧ v.running = []
  | _ => True

open scoped ListView in
instance (o : Op T P) : Decidable (v.Possible o) := by
  cases o <;> unfold Possible <;> infer_instance

end Steps

/-- A view with its list. -/
def views (compare : Int → P → P → Int) : Lib.System (ListViewController T P) (Op T P) where
  next v := v.next compare
  allowed := Possible

instance (compare : Int → P → P → Int) (v : ListViewController T P) (o : Op T P) :
    Decidable ((views compare).allowed v o) :=
  inferInstanceAs (Decidable (v.Possible o))

end ListViewController
end Airdcpp
