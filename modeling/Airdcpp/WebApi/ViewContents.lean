import Airdcpp.WebApi.ListViewController

/-!
# `WebApi/ViewContents` — what a view shows of its list

A change of the list reaches the view twice if it is told between the activation and the snapshot of
`initItems`, and tasks that are merged or dropped reach it not at all. For an item that nothing
waits for any more, `Settled` is that the view agrees with the list; `TaskMeets` is when a task
brings this about, and `Meets` the same of every step of a view.

`Inv` has what a view is between two steps. The events that have not been told lead from a list that
was known to the view to the list there is (`Leads`), which ties a task to the list.
-/

namespace Airdcpp

open ViewTasks (UPDATE_ITEM ADD_ITEM REMOVE_ITEM)

variable {T : Type*} [LinearOrder T] {P : Type*}

namespace ListViewController

/-! ## Events -/

/-- Whether an event can follow, by the items of the list. -/
def Fits (known : Finset T) : ItemCall T → Prop
  | .addItem x => x ∉ known
  | .removeItem x => x ∈ known
  | .updateItem x _ => x ∈ known

/-- The items after an event. -/
def apply (known : Finset T) : ItemCall T → Finset T
  | .addItem x => insert x known
  | .removeItem x => known.erase x
  | .updateItem _ _ => known

/-- The events lead from one list to another. -/
def Leads : Finset T → List (ItemCall T) → Finset T → Prop
  | known, [], items => known = items
  | known, e :: events, items => Fits known e ∧ Leads (apply known e) events items

theorem leads_concat {known items : Finset T} {events : List (ItemCall T)} {e : ItemCall T}
    (h : Leads known events items) (he : Fits items e) :
    Leads known (events ++ [e]) (apply items e) := by
  induction events generalizing known with
  | nil =>
    obtain rfl := h
    exact ⟨he, rfl⟩
  | cons e' events ih => exact ⟨h.1, ih h.2⟩

theorem mem_apply_of_ne {known : Finset T} {e : ItemCall T} {x : T} (hne : e.item ≠ x) :
    x ∈ apply known e ↔ x ∈ known := by
  have hx : x ≠ e.item := hne.symm
  cases e with
  | addItem y => exact Finset.mem_insert.trans (or_iff_right hx)
  | removeItem y => exact Finset.mem_erase.trans (and_iff_right hx)
  | updateItem y props => rfl

/-- An item without an event is in both lists or in none. -/
theorem Leads.mem_iff {known items : Finset T} {events : List (ItemCall T)} {x : T}
    (h : Leads known events items) (hx : ∀ e ∈ events, e.item ≠ x) : x ∈ known ↔ x ∈ items := by
  induction events generalizing known with
  | nil =>
    obtain rfl := h
    rfl
  | cons e events ih =>
    rw [← ih h.2 fun e he => hx e (List.mem_cons_of_mem _ he)]
    exact (mem_apply_of_ne (hx e List.mem_cons_self)).symm

/-- What is not a removal leaves the item in the list. -/
theorem mem_apply_of_fits {known : Finset T} {e : ItemCall T} (h : Fits known e)
    (he : e.task.type ≠ REMOVE_ITEM) : e.item ∈ apply known e := by
  cases e with
  | addItem x => exact Finset.mem_insert_self _ _
  | removeItem x => exact absurd rfl he
  | updateItem x props => exact h

/-! ## The queue -/

theorem find?_eq_some_iff {tasks : TaskMap T} {x : T} {t : MergeTask} :
    tasks.find? x = some t ↔ (x, t) ∈ tasks.toList :=
  Lib.lookup_eq_some_iff_mem (tasks.sorted.imp fun h => h.ne)

theorem find?_eq_none_iff {tasks : TaskMap T} {x : T} :
    tasks.find? x = none ↔ x ∉ tasks.toList.map Prod.fst := by
  refine ⟨Lib.notMem_keys_of_lookup, fun hx => Lib.lookup_eq_none_of_ne fun e he heq => ?_⟩
  exact hx (heq ▸ List.mem_map_of_mem he)

/-- A merged task is a removal as soon as one of its calls is. -/
theorem call_not_removed {q : ItemTasks T} {e : ItemCall T} {x : T} {t : MergeTask}
    (hfind : (q.call e).tasks.find? x = some t) (ht : t.type ≠ REMOVE_ITEM) :
    (x = e.item → e.task.type ≠ REMOVE_ITEM) ∧
      (x ≠ e.item → q.tasks.find? x = some t) := by
  rw [TaskMap.find?, ItemTasks.call, TaskMap.queueTask,
    lookup_queueTaskList q.tasks.sorted] at hfind
  constructor
  · rintro rfl hremove
    rw [if_pos rfl, Option.some.injEq] at hfind
    refine ht ?_
    cases hold : q.tasks.toList.lookup e.item with
    | none =>
      rw [hold, Option.map_none, Option.getD_none] at hfind
      rw [← hfind, hremove]
    | some m =>
      rw [hold, Option.map_some, Option.getD_some] at hfind
      rw [← hfind, type_merge, hremove]
      split
      case isTrue hlt => cases hm : m.type <;> simp [hm, ViewTasks.toNat] at hlt
      case isFalse => rfl
  · intro hne
    rw [if_neg hne] at hfind
    exact hfind

end ListViewController

/-! ## The presence of an item -/

namespace Presence

/-- An item is in the list once at most, and then it is one of the source items. -/
def Single (p : Presence) : Prop := p.copies ≤ 1 ∧ (p.copies ≠ 0 → p.inSource = true)

variable {sf f : Bool} {p : Presence} {t : ViewTasks}

theorem Single.step (h : p.Single) (ht : t = ADD_ITEM → p.copies = 0) :
    (p.step sf f t).Single := by
  obtain ⟨inSource, copies⟩ := p
  obtain ⟨hle, hsource⟩ := h
  simp only at hle hsource ht
  cases t with
  | ADD_ITEM =>
    obtain rfl := ht rfl
    cases sf <;> cases f <;> simp [Presence.step, Single]
  | REMOVE_ITEM =>
    have hzero : copies - 1 = 0 := by omega
    simp [Presence.step, Single, hzero]
  | UPDATE_ITEM =>
    rcases Nat.le_one_iff_eq_zero_or_eq_one.mp hle with rfl | rfl
    · cases sf <;> cases f <;> cases inSource <;> simp [Presence.step, Single]
    · cases sf <;> cases f <;> simp_all [Presence.step, Single]

/-- The item is where it belongs, if `item` is whether it is in the list, and `all` whether the
    items that it has have been taken. The copies count only if `shown` holds. -/
def Right (sf f : Bool) (item all shown : Prop) (p : Presence) : Prop :=
  (p.inSource → item ∧ sf) ∧ (all → item → sf → p.inSource) ∧
    (shown → p.copies = if p.inSource ∧ f then 1 else 0)

/-- What a task needs to leave its item where it belongs. -/
def Needs (sf : Bool) (item all shown : Prop) (p : Presence) : ViewTasks → Prop
  | ADD_ITEM => (shown → p.copies = 0) ∧ (p.inSource → sf)
  | REMOVE_ITEM => all → item → sf = false
  | UPDATE_ITEM => (p.inSource → sf) ∧ (all → sf → p.inSource)

/-- Where it belongs, an item is not twice. -/
theorem Right.single {item all shown : Prop} (h : Right sf f item all shown p) (hs : shown) :
    p.Single := by
  have hcopies := h.2.2 hs
  split at hcopies
  case isTrue hc => exact ⟨by omega, fun _ => hc.1⟩
  case isFalse => exact ⟨by omega, fun hne => absurd hcopies hne⟩

theorem right_step_iff {item all shown : Prop} (h : shown → p.Single)
    (hitem : t ≠ REMOVE_ITEM → item) :
    Right sf f item all shown (p.step sf f t) ↔ Needs sf item all shown p t := by
  obtain ⟨inSource, copies⟩ := p
  cases t with
  | ADD_ITEM =>
    have hitem := hitem (by decide)
    cases sf <;> cases f <;> cases inSource <;> simp_all [Right, Needs, Presence.step, Single]
  | REMOVE_ITEM =>
    have hzero : shown → copies - 1 = 0 := fun hs => by
      have := (h hs).1
      simp only at this
      omega
    cases sf <;> simp_all [Right, Needs, Presence.step]
  | UPDATE_ITEM =>
    have hitem := hitem (by decide)
    cases copies with
    | zero =>
      cases sf <;> cases f <;> cases inSource <;>
        simp_all [Right, Needs, Presence.step, Single]
    | succ n =>
      have hn : shown → n = 0 ∧ inSource = true := fun hs => by
        have := h hs
        simp only [Single] at this
        exact ⟨by omega, this.2 (by omega)⟩
      cases sf <;> cases f <;> cases inSource <;>
        simp_all [Right, Needs, Presence.step, Single]

end Presence

theorem ListView.mem_source_of_single {l : ListView T} {x : T} (h : (l.presence x).Single)
    (hmem : x ∈ l.matchingItems) : x ∈ l.sourceItems :=
  of_decide_eq_true (h.2 (List.count_pos_iff.mpr hmem).ne')

theorem ListView.single_of_nodup {l : ListView T} {y : T} (hnodup : l.matchingItems.Nodup)
    (hsubset : ∀ x ∈ l.matchingItems, x ∈ l.sourceItems) : (l.presence y).Single := by
  refine ⟨List.nodup_iff_count_le_one.mp hnodup y, fun hcopies => ?_⟩
  exact decide_eq_true (hsubset y (List.count_pos_iff.mp (Nat.pos_of_ne_zero hcopies)))

namespace ListViewController

/-! ## Between two steps -/

variable (v : ListViewController T P)

/-- Something about the item has not been taken by a run. -/
def Queued (x : T) : Prop := x ∈ v.events.map ItemCall.item ∨ x ∈ v.tasks.tasks.toList.map Prod.fst

/-- Something about the item has not been handled. -/
def Waits (x : T) : Prop := v.Queued x ∨ x ∈ v.running.map Prod.fst

/-- The view agrees with the list as to an item. As long as a changed filter has not been swapped
    in, nothing is asked of the matching items, and before the items have been taken, only that
    nothing else is there. -/
structure Settled (x : T) : Prop where
  source : x ∈ v.lists.sourceItems → x ∈ v.items ∧ v.matchesSourceFilter x
  complete : v.initialised → x ∈ v.items → v.matchesSourceFilter x → x ∈ v.lists.sourceItems
  shown : v.itemsNew = [] →
    (x ∈ v.lists.matchingItems ↔ x ∈ v.lists.sourceItems ∧ v.matchesFilter x)

/-- A task that is not the last thing to happen to its item only must not add it twice. The last one
    finds the item where it expects it: a removal, outside the list or the source filter; an
    update, among the source items if it passes the source filter, and only then. -/
def TaskMeets (x : T) : ViewTasks → Prop
  | ADD_ITEM =>
    (v.itemsNew = [] → x ∉ v.lists.matchingItems) ∧
      (¬ v.Queued x → x ∈ v.lists.sourceItems → v.matchesSourceFilter x)
  | REMOVE_ITEM => ¬ v.Queued x → v.initialised → x ∈ v.items → v.matchesSourceFilter x = false
  | UPDATE_ITEM =>
    ¬ v.Queued x →
      (x ∈ v.lists.sourceItems → v.matchesSourceFilter x) ∧
      (v.initialised → v.matchesSourceFilter x → x ∈ v.lists.sourceItems)

instance (x : T) : Decidable (v.Queued x) := inferInstanceAs (Decidable (_ ∨ _))

open scoped ListView in
instance (x : T) (t : ViewTasks) : Decidable (v.TaskMeets x t) := by
  cases t <;> unfold TaskMeets <;> infer_instance

/-- **When a step keeps the view exact.** The items are taken while the view is active, and the
    lists are not emptied while a run still has to add or update an item whose removal is queued.
    The source filter is not changed for an item that it has been applied to. The items that a
    changed filter swaps in last still are those that match. No task is dropped that is needed, and
    each task that is handled finds its item as it expects it. -/
def Meets : Op T P → Prop
  | .initItems => v.active
  | .clear =>
    ∀ e ∈ v.running, e.2.type ≠ REMOVE_ITEM →
      ∀ t, v.tasks.tasks.find? e.1 = some t → t.type ≠ REMOVE_ITEM
  | .setSourceFilter matcher =>
    ∀ x, ¬ v.Waits x → x ∈ v.lists.sourceItems ∨ (v.initialised ∧ x ∈ v.items) →
      matcher (v.properties x) = v.matchesSourceFilter x
  | .swapItems _ =>
    ∀ l, v.itemsNew = [l] → (∀ x ∈ l, x ∈ v.lists.sourceItems) ∧
      ∀ x, ¬ v.Waits x → x ∈ v.lists.sourceItems → (x ∈ l ↔ v.matchesFilter x)
  | .beginTasks =>
    v.currentValues.sortProperty < 0 →
      ∀ x ∈ v.tasks.tasks.toList.map Prod.fst, x ∉ v.events.map ItemCall.item → v.Settled x
  | .handleTask => ∀ e ∈ v.running.head?, v.TaskMeets e.1 e.2.type
  | _ => True

/-- What a view is between two steps. -/
structure Inv : Prop where
  items_nodup : v.items.Nodup
  single : v.itemsNew = [] → ∀ x, (v.lists.presence x).Single
  itemsNew_nodup : ∀ l ∈ v.itemsNew, l.Nodup
  inactive : v.active = false →
    v.lists.sourceItems = ∅ ∧ v.tasks.tasks.toList = [] ∧ v.running = [] ∧ v.initialised = false
  settled : ∀ x, ¬ v.Waits x → v.Settled x
  known : ∃ known, Leads known v.events v.items.toFinset ∧
    (∀ x t, v.tasks.tasks.find? x = some t → t.type ≠ REMOVE_ITEM → x ∈ known) ∧
    ∀ e ∈ v.running, e.2.type ≠ REMOVE_ITEM → v.tasks.tasks.find? e.1 = none → e.1 ∈ known

/-! ## The list and its events -/

variable {v} {x : T}

theorem mem_known_iff {known : Finset T} (hknown : Leads known v.events v.items.toFinset)
    (hx : x ∉ v.events.map ItemCall.item) :
    x ∈ known ↔ x ∈ v.items := by
  rw [hknown.mem_iff fun e he heq => hx (List.mem_map.mpr ⟨e, he, heq⟩), List.mem_toFinset]

/-- The list changes and has an event for it. -/
theorem Inv.changed (h : v.Inv) {e : ItemCall T} {items : List T} {properties : T → P}
    (hfits : Fits v.items.toFinset e) (hitems : items.toFinset = apply v.items.toFinset e)
    (hnodup : items.Nodup) (hproperties : ∀ y, y ≠ e.item → properties y = v.properties y) :
    Inv { v with items := items, properties := properties, events := v.events ++ [e] } where
  items_nodup := hnodup
  single := h.single
  itemsNew_nodup := h.itemsNew_nodup
  inactive := h.inactive
  settled y hy := by
    have hne : y ≠ e.item := by
      rintro rfl
      exact hy (Or.inl (Or.inl (by simp)))
    have hwaits : ¬ v.Waits y := by
      rintro ((hevent | htask) | hrun)
      · exact hy (Or.inl (Or.inl (by simp [hevent])))
      · exact hy (Or.inl (Or.inr htask))
      · exact hy (Or.inr hrun)
    have hmem : y ∈ items ↔ y ∈ v.items := by
      rw [← List.mem_toFinset, hitems, mem_apply_of_ne hne.symm, List.mem_toFinset]
    have hold := h.settled y hwaits
    refine ⟨?_, ?_, ?_⟩
    · simpa only [matchesSourceFilter, hproperties y hne, hmem] using hold.source
    · simpa only [matchesSourceFilter, hproperties y hne, hmem] using hold.complete
    · simpa only [matchesFilter, hproperties y hne] using hold.shown
  known := by
    obtain ⟨known, hleads, htasks, hrunning⟩ := h.known
    refine ⟨known, ?_, htasks, hrunning⟩
    have hconcat := leads_concat hleads hfits
    rwa [← hitems] at hconcat

/-- An event is told to a view that is not active. -/
theorem Inv.ignored (h : v.Inv) {e : ItemCall T} {events : List (ItemCall T)}
    (hevents : v.events = e :: events) (hactive : v.active = false) :
    Inv { v with events := events } := by
  obtain ⟨known, hleads, -, -⟩ := h.known
  rw [hevents] at hleads
  obtain ⟨hsource, hnone, hrun, hinit⟩ := h.inactive hactive
  exact {
    items_nodup := h.items_nodup
    single := h.single
    itemsNew_nodup := h.itemsNew_nodup
    inactive := h.inactive
    settled := fun y _ => by
      refine ⟨by simp [hsource], by simp [hinit], fun hnew => ?_⟩
      have hnot : y ∉ v.lists.matchingItems := fun hmem => by
        simpa [hsource] using ListView.mem_source_of_single (h.single hnew y) hmem
      simp [hsource, hnot]
    known := by
      refine ⟨apply known e, hleads.2, ?_, ?_⟩
      · intro y t hfind
        rw [find?_eq_some_iff] at hfind
        simp [hnone] at hfind
      · intro f hf
        have hf : f ∈ v.running := hf
        simp [hrun] at hf }

/-- An event is told to an active view. -/
theorem Inv.queued (h : v.Inv) {e : ItemCall T} {events : List (ItemCall T)}
    (hevents : v.events = e :: events) (hactive : v.active = true) :
    Inv { v with tasks := v.tasks.call e, events := events } := by
  obtain ⟨known, hleads, htasks, hrunning⟩ := h.known
  rw [hevents] at hleads
  have hkeys : ∀ y, y ∈ (v.tasks.call e).tasks.toList.map Prod.fst ↔
      y = e.item ∨ y ∈ v.tasks.tasks.toList.map Prod.fst := fun y => mem_keys_queueTaskList
  exact {
    items_nodup := h.items_nodup
    single := h.single
    itemsNew_nodup := h.itemsNew_nodup
    inactive := fun hfalse => by simp [hactive] at hfalse
    settled := fun y hy => by
      have hwaits : ¬ v.Waits y := by
        rintro ((hevent | htask) | hrun)
        · rw [hevents, List.map_cons, List.mem_cons] at hevent
          rcases hevent with heq | hevent
          · exact hy (Or.inl (Or.inr ((hkeys y).mpr (Or.inl heq))))
          · exact hy (Or.inl (Or.inl hevent))
        · exact hy (Or.inl (Or.inr ((hkeys y).mpr (Or.inr htask))))
        · exact hy (Or.inr hrun)
      have hold := h.settled y hwaits
      exact ⟨hold.source, hold.complete, hold.shown⟩
    known := by
      refine ⟨apply known e, hleads.2, ?_, ?_⟩
      · intro y t hfind ht
        obtain ⟨hsame, hother⟩ := call_not_removed hfind ht
        by_cases hy : y = e.item
        · subst hy
          exact mem_apply_of_fits hleads.1 (hsame rfl)
        · exact (mem_apply_of_ne (Ne.symm hy)).mpr (htasks y t (hother hy) ht)
      · intro f hf hft hfind
        have hnot := find?_eq_none_iff.mp hfind
        rw [hkeys, not_or] at hnot
        exact (mem_apply_of_ne (Ne.symm hnot.1)).mpr
          (hrunning f hf hft (find?_eq_none_iff.mpr hnot.2)) }

/-! ## The snapshot and the filters -/

/-- The items of the list are taken. -/
theorem Inv.initItems (h : v.Inv) (hactive : v.active = true) : Inv v.initItems where
  items_nodup := h.items_nodup
  single _ y := by
    refine ListView.single_of_nodup ((h.items_nodup.filter _).filter _) fun x hx => ?_
    exact Finset.mem_union_right _ (List.mem_toFinset.mpr (List.mem_filter.mp hx).1)
  itemsNew_nodup := h.itemsNew_nodup
  inactive hfalse := by
    have hfalse : v.active = false := hfalse
    simp [hactive] at hfalse
  settled y hy := by
    have hold := h.settled y hy
    have hsource : y ∈ v.initItems.lists.sourceItems ↔ y ∈ v.items ∧ v.matchesSourceFilter y := by
      simp only [ListViewController.initItems, Finset.mem_union, List.mem_toFinset, List.mem_filter]
      exact or_iff_right_of_imp hold.source
    refine ⟨hsource.mp, fun _ hitem hsf => hsource.mpr ⟨hitem, hsf⟩, fun _ => ?_⟩
    rw [hsource]
    exact List.mem_filter.trans (and_congr_left' List.mem_filter)
  known := h.known

/-- The lists are emptied. -/
theorem Inv.clear (h : v.Inv)
    (hrun : ∀ e ∈ v.running, e.2.type ≠ REMOVE_ITEM →
      ∀ t, v.tasks.tasks.find? e.1 = some t → t.type ≠ REMOVE_ITEM) : Inv v.clear where
  items_nodup := h.items_nodup
  single _ y := ListView.single_of_nodup List.nodup_nil fun x hx => absurd hx List.not_mem_nil
  itemsNew_nodup := h.itemsNew_nodup
  inactive hfalse := ⟨rfl, rfl, (h.inactive hfalse).2.2.1, rfl⟩
  settled y _ := by
    refine ⟨?_, ?_, ?_⟩
    · simp [ListViewController.clear]
    · simp [ListViewController.clear]
    · simp [ListViewController.clear]
  known := by
    obtain ⟨known, hleads, htasks, hrunning⟩ := h.known
    refine ⟨known, hleads, ?_, ?_⟩
    · intro y t hfind
      simp [ListViewController.clear, TaskMap.find?, TaskMap.empty] at hfind
    · intro e he het _
      cases hfind : v.tasks.tasks.find? e.1 with
      | none => exact hrunning e he het hfind
      | some t => exact htasks e.1 t hfind (hrun e he het t hfind)

/-- The source filter is changed. -/
theorem Inv.setSourceFilter (h : v.Inv) {matcher : P → Bool}
    (hsame : ∀ x, ¬ v.Waits x → x ∈ v.lists.sourceItems ∨ (v.initialised ∧ x ∈ v.items) →
      matcher (v.properties x) = v.matchesSourceFilter x) :
    Inv { v with sourceFilter := matcher } where
  items_nodup := h.items_nodup
  single := h.single
  itemsNew_nodup := h.itemsNew_nodup
  inactive := h.inactive
  settled y hy := by
    have hold := h.settled y hy
    refine ⟨fun hsource => ?_, fun hinit hitem hsf => ?_, hold.shown⟩
    · refine ⟨(hold.source hsource).1, ?_⟩
      exact (hsame y hy (Or.inl hsource)).trans (hold.source hsource).2
    · refine hold.complete hinit hitem ?_
      exact (hsame y hy (Or.inr ⟨hinit, hitem⟩)).symm.trans hsf
  known := h.known

/-- The filters are changed, and the source items are read. -/
theorem Inv.readItems (h : v.Inv) (matchers : P → Bool) : Inv (v.readItems matchers) where
  items_nodup := h.items_nodup
  single hnew := by simp [ListViewController.readItems] at hnew
  itemsNew_nodup l hl := by
    rcases List.mem_append.mp hl with hl | hl
    · exact h.itemsNew_nodup l hl
    · rw [List.mem_singleton.mp hl]
      exact (Finset.sort_nodup _ _).filter _
  inactive := h.inactive
  settled y hy := by
    have hold := h.settled y hy
    refine ⟨hold.source, hold.complete, fun hnew => ?_⟩
    simp [ListViewController.readItems] at hnew
  known := h.known

/-- The new matching items are swapped in. -/
theorem Inv.swapItems (h : v.Inv) {i : Nat} (hi : i < v.itemsNew.length)
    (hlast : ∀ l, v.itemsNew = [l] → (∀ x ∈ l, x ∈ v.lists.sourceItems) ∧
      ∀ x, ¬ v.Waits x → x ∈ v.lists.sourceItems → (x ∈ l ↔ v.matchesFilter x)) :
    Inv (v.swapItems i) := by
  have hone : (v.swapItems i).itemsNew = [] →
      ∃ l, v.itemsNew = [l] ∧ (v.swapItems i).lists.matchingItems = l := by
    intro hnew
    have hlength := List.length_eraseIdx_of_lt hi
    have hnew : v.itemsNew.eraseIdx i = [] := hnew
    rw [hnew, List.length_nil] at hlength
    obtain ⟨l, hl⟩ := List.length_eq_one_iff.mp (show v.itemsNew.length = 1 by omega)
    have hzero : i = 0 := by omega
    exact ⟨l, hl, by simp [ListViewController.swapItems, hl, hzero]⟩
  exact {
    items_nodup := h.items_nodup
    single := fun hnew y => by
      obtain ⟨l, hl, hmatching⟩ := hone hnew
      refine ListView.single_of_nodup ?_ ?_
      · rw [hmatching]
        exact h.itemsNew_nodup l (by simp [hl])
      · rw [hmatching]
        exact (hlast l hl).1
    itemsNew_nodup := fun l hl => h.itemsNew_nodup l ((List.eraseIdx_sublist _ _).subset hl)
    inactive := h.inactive
    settled := fun y hy => by
      have hold := h.settled y hy
      refine ⟨hold.source, hold.complete, fun hnew => ?_⟩
      obtain ⟨l, hl, hmatching⟩ := hone hnew
      obtain ⟨hsubset, hmatch⟩ := hlast l hl
      rw [hmatching]
      constructor
      · intro hmem
        exact ⟨hsubset y hmem, (hmatch y hy (hsubset y hmem)).mp hmem⟩
      · rintro ⟨hsource, hf⟩
        exact (hmatch y hy hsource).mpr hf
    known := h.known }

/-! ## The tasks -/

variable {compare : Int → P → P → Int}

theorem presence_congr {l l' : ListView T} (h : l.presence x = l'.presence x) :
    (x ∈ l.sourceItems ↔ x ∈ l'.sourceItems) ∧ (x ∈ l.matchingItems ↔ x ∈ l'.matchingItems) := by
  obtain ⟨hsource, hcount⟩ := Presence.mk.inj h
  refine ⟨decide_eq_decide.mp hsource, ?_⟩
  rw [← List.count_pos_iff, ← List.count_pos_iff, hcount]

/-- The lists have an item where it belongs. -/
theorem settled_iff_right (hsingle : v.itemsNew = [] → (v.lists.presence x).Single) :
    v.Settled x ↔ (v.lists.presence x).Right (v.matchesSourceFilter x) (v.matchesFilter x)
      (x ∈ v.items) v.initialised (v.itemsNew = []) := by
  have hshown : v.itemsNew = [] →
      ((x ∈ v.lists.matchingItems ↔ x ∈ v.lists.sourceItems ∧ v.matchesFilter x) ↔
        v.lists.matchingItems.count x =
          if x ∈ v.lists.sourceItems ∧ v.matchesFilter x then 1 else 0) := by
    intro hnew
    have hle : v.lists.matchingItems.count x ≤ 1 := (hsingle hnew).1
    rw [← List.count_pos_iff]
    split
    case isTrue hc =>
      simp only [hc, and_self, iff_true]
      omega
    case isFalse hc =>
      simp only [hc, iff_false]
      omega
  simp only [Presence.Right, ListView.presence, decide_eq_true_iff]
  constructor
  · intro h
    exact ⟨h.source, h.complete, fun hnew => (hshown hnew).mp (h.shown hnew)⟩
  · rintro ⟨hsource, hcomplete, hcount⟩
    exact ⟨hsource, hcomplete, fun hnew => (hshown hnew).mpr (hcount hnew)⟩

theorem run_of_running {e : T × MergeTask} {tasks : List (T × MergeTask)}
    (h : v.running = e :: tasks) : ∃ values, v.run = some ⟨e :: tasks, values⟩ := by
  cases hrun : v.run with
  | none => simp [running, hrun] at h
  | some r =>
    simp only [running, hrun, Option.map_some, Option.getD_some] at h
    exact ⟨r.updateValues, by rw [← h]⟩

theorem settled_and_single_iff :
    (v.Settled x ∧ (v.itemsNew = [] → (v.lists.presence x).Single)) ↔
      (v.lists.presence x).Right (v.matchesSourceFilter x) (v.matchesFilter x) (x ∈ v.items)
        v.initialised (v.itemsNew = []) := by
  constructor
  · rintro ⟨hsettled, hsingle⟩
    exact (settled_iff_right hsingle).mp hsettled
  · intro hright
    exact ⟨(settled_iff_right hright.single).mpr hright, hright.single⟩

/-- The run has a task to handle. -/
theorem handleTask_cons {e : T × MergeTask} {tasks : List (T × MergeTask)} {values : ViewValues}
    (hrun : v.run = some ⟨e :: tasks, values⟩) :
    v.handleTask compare =
      { v with
        lists := (v.lists.handleTask (v.settings compare values) e.1 e.2.type).2
        run := some ⟨tasks, values⟩ } := by
  simp [ListViewController.handleTask, hrun]

/-- **One task.** It leaves its item where it belongs exactly if it finds the item as it expects it,
    unless there is more to come for the item. -/
theorem settled_handleTask_iff (h : v.Inv) {e : T × MergeTask} {tasks : List (T × MergeTask)}
    {values : ViewValues} (hrun : v.run = some ⟨e :: tasks, values⟩) (hlast : ¬ v.Queued e.1) :
    ((v.handleTask compare).Settled e.1 ∧
        (v.itemsNew = [] → ((v.handleTask compare).lists.presence e.1).Single)) ↔
      v.TaskMeets e.1 e.2.type := by
  obtain ⟨known, hleads, -, hrunning⟩ := h.known
  have hmem : e ∈ v.running := by simp [running, hrun]
  have hitem : e.2.type ≠ REMOVE_ITEM → e.1 ∈ v.items := fun ht => by
    refine (mem_known_iff hleads fun hevent => hlast (Or.inl hevent)).mp ?_
    exact hrunning e hmem ht (find?_eq_none_iff.mpr fun htask => hlast (Or.inr htask))
  have hpresence : (v.handleTask compare).lists.presence e.1 =
      (v.lists.presence e.1).step (v.matchesSourceFilter e.1) (v.matchesFilter e.1) e.2.type := by
    rw [handleTask_cons hrun, ListView.presence_handleTask, if_pos rfl]
    rfl
  have hright : ((v.handleTask compare).Settled e.1 ∧
      (v.itemsNew = [] → ((v.handleTask compare).lists.presence e.1).Single)) ↔
      ((v.handleTask compare).lists.presence e.1).Right (v.matchesSourceFilter e.1)
        (v.matchesFilter e.1) (e.1 ∈ v.items) v.initialised (v.itemsNew = []) := by
    rw [handleTask_cons hrun]
    exact settled_and_single_iff
  rw [hright, hpresence, Presence.right_step_iff (fun hnew => h.single hnew e.1) hitem]
  cases e.2.type with
  | ADD_ITEM => simp [Presence.Needs, TaskMeets, hlast, ListView.presence, List.count_eq_zero]
  | REMOVE_ITEM => simp [Presence.Needs, TaskMeets, hlast]
  | UPDATE_ITEM => simp [Presence.Needs, TaskMeets, hlast, ListView.presence]

theorem Inv.handleTask (h : v.Inv) {e : T × MergeTask} {tasks : List (T × MergeTask)}
    {values : ViewValues} (hrun : v.run = some ⟨e :: tasks, values⟩)
    (hmeets : v.TaskMeets e.1 e.2.type) : Inv (v.handleTask compare) := by
  have hpresence : ∀ y, (v.handleTask compare).lists.presence y =
      if e.1 = y then
        (v.lists.presence y).step (v.matchesSourceFilter y) (v.matchesFilter y) e.2.type
      else v.lists.presence y := fun y => by
    rw [handleTask_cons hrun, ListView.presence_handleTask]
    rfl
  have hiff := @settled_handleTask_iff T _ P v compare h e tasks values hrun
  rw [handleTask_cons hrun] at hpresence hiff ⊢
  exact {
    items_nodup := h.items_nodup
    single := fun hnew y => by
      rw [hpresence]
      by_cases hy : e.1 = y
      · subst hy
        rw [if_pos rfl]
        refine (h.single hnew e.1).step fun hadd => ?_
        rw [hadd] at hmeets
        exact List.count_eq_zero.mpr (hmeets.1 hnew)
      · rw [if_neg hy]
        exact h.single hnew y
    itemsNew_nodup := h.itemsNew_nodup
    inactive := fun hactive => by
      have hrunning := (h.inactive hactive).2.2.1
      simp [running, hrun] at hrunning
    settled := fun y hy => by
      by_cases heq : e.1 = y
      · subst heq
        exact ((hiff fun hqueued => hy (Or.inl hqueued)).mpr hmeets).1
      · have hwaits : ¬ v.Waits y := by
          rintro (hqueued | hrunning)
          · exact hy (Or.inl hqueued)
          · simp only [running, hrun, Option.map_some, Option.getD_some, List.map_cons,
              List.mem_cons, Ne.symm heq, false_or] at hrunning
            exact hy (Or.inr hrunning)
        have hold := h.settled y hwaits
        have hsame := hpresence y
        rw [if_neg heq] at hsame
        obtain ⟨hsource, hmatching⟩ := presence_congr hsame
        refine ⟨fun hin => hold.source (hsource.mp hin), fun hinit hitem hsf => ?_, fun hnew => ?_⟩
        · exact hsource.mpr (hold.complete hinit hitem hsf)
        · rw [hmatching, hsource]
          exact hold.shown hnew
    known := by
      obtain ⟨known, hleads, htasks, hrunning⟩ := h.known
      refine ⟨known, hleads, htasks, fun f hf => hrunning f ?_⟩
      have hf : f ∈ tasks := hf
      simp [running, hrun, hf] }

/-- Tasks are taken and nothing is done with them. -/
theorem Inv.dropped (h : v.Inv) (hrun : v.run = none) (changed : Bool)
    (hsettled : ∀ x ∈ v.tasks.tasks.toList.map Prod.fst, x ∉ v.events.map ItemCall.item →
      v.Settled x) : Inv { v with tasks := {}, changed := changed } where
  items_nodup := h.items_nodup
  single := h.single
  itemsNew_nodup := h.itemsNew_nodup
  inactive hactive := ⟨(h.inactive hactive).1, rfl, (h.inactive hactive).2.2⟩
  settled y hy := by
    have hold : v.Settled y := by
      by_cases htask : y ∈ v.tasks.tasks.toList.map Prod.fst
      · exact hsettled y htask fun hevent => hy (Or.inl (Or.inl hevent))
      · refine h.settled y ?_
        rintro ((hevent | hin) | hrunning)
        · exact hy (Or.inl (Or.inl hevent))
        · exact htask hin
        · exact hy (Or.inr hrunning)
    exact ⟨hold.source, hold.complete, hold.shown⟩
  known := by
    obtain ⟨known, hleads, -, -⟩ := h.known
    refine ⟨known, hleads, ?_, ?_⟩
    · intro y t hfind
      simp [TaskMap.find?, TaskMap.empty] at hfind
    · intro e he
      have he : e ∈ v.running := he
      simp [running, hrun] at he

theorem maybeSort_perm (aUpdatedProperties : PropertyIdSet) (values : ViewValues) :
    (v.maybeSort compare aUpdatedProperties values).Perm v.lists.matchingItems := by
  rw [maybeSort]
  split
  · exact List.perm_insertionSort _ _
  · exact List.Perm.refl _

/-- The tasks are taken by a run. -/
theorem Inv.begun (h : v.Inv) (hrun : v.run = none) {l : List T}
    (hperm : l.Perm v.lists.matchingItems) (values : ViewValues) :
    Inv { v with
      tasks := {}
      changed := false
      itemListChanged := false
      lists := { v.lists with matchingItems := l, rangeStart := values.rangeStart }
      run := some ⟨v.tasks.tasks.toList, values⟩ } where
  items_nodup := h.items_nodup
  single hnew y := by
    have hsingle := h.single hnew y
    simp only [ListView.presence, Presence.Single] at hsingle ⊢
    rwa [hperm.count_eq]
  itemsNew_nodup := h.itemsNew_nodup
  inactive hactive := by
    obtain ⟨hsource, hnone, -, hinit⟩ := h.inactive hactive
    exact ⟨hsource, rfl, hnone, hinit⟩
  settled y hy := by
    have hwaits : ¬ v.Waits y := by
      rintro ((hevent | htask) | hrunning)
      · exact hy (Or.inl (Or.inl hevent))
      · exact hy (Or.inr htask)
      · simp [running, hrun] at hrunning
    have hold := h.settled y hwaits
    exact ⟨hold.source, hold.complete, fun hnew => hperm.mem_iff.trans (hold.shown hnew)⟩
  known := by
    obtain ⟨known, hleads, htasks, -⟩ := h.known
    refine ⟨known, hleads, ?_, ?_⟩
    · intro y t hfind
      simp [TaskMap.find?, TaskMap.empty] at hfind
    · intro e he het _
      exact htasks e.1 e.2 (find?_eq_some_iff.mpr he) het

theorem Inv.beginTasks (h : v.Inv) (hrun : v.run = none)
    (hmeets : v.currentValues.sortProperty < 0 → ∀ x ∈ v.tasks.tasks.toList.map Prod.fst,
      x ∉ v.events.map ItemCall.item → v.Settled x) : Inv (v.beginTasks compare) := by
  simp only [ListViewController.beginTasks]
  split
  case isTrue hidle =>
    simp only [Bool.and_eq_true, List.isEmpty_iff] at hidle
    have hnone : v.tasks.tasks.toList = [] := hidle.1.1
    exact h.dropped hrun v.changed (by simp [hnone])
  case isFalse =>
    split
    case isTrue hsort => exact h.dropped hrun false (hmeets hsort)
    case isFalse => exact h.begun hrun (maybeSort_perm _ _) v.currentValues

theorem Inv.endTasks (h : v.Inv) {r : TaskRun T} (hrun : v.run = some r) (hr : r.tasks = []) :
    Inv v.endTasks := by
  have hrunning : v.running = [] := by simp [running, hrun, hr]
  simp only [ListViewController.endTasks, hrun]
  exact {
    items_nodup := h.items_nodup
    single := h.single
    itemsNew_nodup := h.itemsNew_nodup
    inactive := fun hactive => by
      obtain ⟨hsource, hnone, -, hinit⟩ := h.inactive hactive
      exact ⟨hsource, hnone, rfl, hinit⟩
    settled := fun y hy => by
      have hold := h.settled y (by
        rintro (hqueued | hin)
        · exact hy (Or.inl hqueued)
        · simp [hrunning] at hin)
      exact ⟨hold.source, hold.complete, hold.shown⟩
    known := by
      obtain ⟨known, hleads, htasks, -⟩ := h.known
      exact ⟨known, hleads, htasks, fun e he => absurd he List.not_mem_nil⟩ }

/-! ## Runs -/

theorem Inv.next (h : v.Inv) {o : Op T P} (hpossible : v.Possible o) (hmeets : v.Meets o) :
    Inv (v.next compare o) := by
  cases o with
  | listAdded x p =>
    refine h.changed (e := .addItem x) ?_ ?_ ?_ ?_
    · exact fun hmem => hpossible (List.mem_toFinset.mp hmem)
    · simp [apply]
    · rw [← List.concat_eq_append]
      exact List.Nodup.concat hpossible h.items_nodup
    · exact fun y hy => Function.update_of_ne hy _ _
  | listRemoved x =>
    refine h.changed (e := .removeItem x) ?_ ?_ (h.items_nodup.erase x) fun y _ => rfl
    · exact List.mem_toFinset.mpr hpossible
    · ext y
      simp [apply, h.items_nodup.mem_erase_iff]
  | listUpdated x p aUpdatedProperties =>
    refine h.changed (e := .updateItem x aUpdatedProperties) ?_ rfl h.items_nodup ?_
    · exact List.mem_toFinset.mpr hpossible
    · exact fun y hy => Function.update_of_ne hy _ _
  | deliver =>
    obtain ⟨e, events, hevents⟩ := List.exists_cons_of_ne_nil hpossible
    simp only [ListViewController.next, hevents]
    cases hactive : v.active with
    | false =>
      have hsame : v.onItem e = v := by simp [onItem, hactive]
      rw [hsame]
      exact h.ignored hevents hactive
    | true =>
      have hcall : v.onItem e = { v with tasks := v.tasks.call e } := by simp [onItem, hactive]
      rw [hcall]
      exact h.queued hevents hactive
  | setActive =>
    exact {
      items_nodup := h.items_nodup
      single := h.single
      itemsNew_nodup := h.itemsNew_nodup
      inactive := fun hfalse => absurd hfalse (by simp [ListViewController.next])
      settled := fun y hy =>
        ⟨(h.settled y hy).source, (h.settled y hy).complete, (h.settled y hy).shown⟩
      known := h.known }
  | initItems => exact h.initItems hmeets
  | clear => exact h.clear hmeets
  | setSourceFilter matcher => exact h.setSourceFilter hmeets
  | setFilters matchers => exact h.readItems matchers
  | swapItems i => exact h.swapItems hpossible hmeets
  | setValues rangeStart sortProperty sortAscending =>
    exact {
      items_nodup := h.items_nodup
      single := h.single
      itemsNew_nodup := h.itemsNew_nodup
      inactive := h.inactive
      settled := fun y hy =>
        ⟨(h.settled y hy).source, (h.settled y hy).complete, (h.settled y hy).shown⟩
      known := h.known }
  | beginTasks => exact h.beginTasks (Option.isNone_iff_eq_none.mp hpossible) hmeets
  | handleTask =>
    obtain ⟨e, tasks, hrunning⟩ := List.exists_cons_of_ne_nil hpossible
    obtain ⟨values, hrun⟩ := run_of_running hrunning
    exact h.handleTask hrun (hmeets e (by simp [hrunning]))
  | endTasks =>
    obtain ⟨r, hr⟩ := Option.isSome_iff_exists.mp hpossible.1
    refine h.endTasks hr ?_
    simpa [running, hr] using hpossible.2

/-- A view that has just been created for a list. -/
def Fresh (v : ListViewController T P) : Prop :=
  ∃ (items : List T) (properties : T → P), items.Nodup ∧
    v = { items := items, properties := properties }

theorem Inv.of_fresh (h : v.Fresh) : v.Inv := by
  obtain ⟨items, properties, hnodup, rfl⟩ := h
  exact {
    items_nodup := hnodup
    single := fun _ y => by simp [ListView.presence, Presence.Single]
    itemsNew_nodup := by simp
    inactive := fun _ => ⟨rfl, rfl, rfl, rfl⟩
    settled := fun y _ => ⟨by simp, by simp, by simp⟩
    known := ⟨items.toFinset, rfl, by simp [TaskMap.find?, TaskMap.empty], by simp [running]⟩ }

/-- Everything that was told has been handled, and the filters that were changed are in use. -/
def Consumed (v : ListViewController T P) : Prop :=
  v.initialised ∧ v.events = [] ∧ v.tasks.tasks.toList = [] ∧ v.running = [] ∧ v.itemsNew = []

instance (v : ListViewController T P) : Decidable v.Consumed :=
  inferInstanceAs (Decidable (_ ∧ _))

/-- The source items are the items of the list that pass the source filter, and the matching items
    are those of them that pass the filters, each once. -/
def Exact (v : ListViewController T P) : Prop :=
  (∀ x, x ∈ v.lists.sourceItems ↔ x ∈ v.items ∧ v.matchesSourceFilter x) ∧
    ∀ x, v.lists.matchingItems.count x =
      if x ∈ v.lists.sourceItems ∧ v.matchesFilter x then 1 else 0

/-- An empty list, with numbers for items. -/
def emptyList : ListViewController Nat Nat := { items := [], properties := fun _ => 0 }

def compareNumbers (_ : Int) (p q : Nat) : Int := p - q

/-- The view is activated, and then an item is added. -/
def addedAfter : List (Op Nat Nat) :=
  [.setActive, .initItems, .listAdded 1 5, .deliver, .setValues (some 0) (some 0) (some 1),
    .beginTasks, .handleTask, .endTasks]

/-- The addition is told after the view has been activated, and before the items are taken. -/
def addedBetween : List (Op Nat Nat) :=
  [.listAdded 1 5, .setActive, .deliver, .initItems, .setValues (some 0) (some 0) (some 1),
    .beginTasks, .handleTask, .endTasks]

end ListViewController
end Airdcpp
