import Airdcpp.WebApi.ListView

/-!
# `WebApi/ViewTasks` — merging the tasks of an item

Between two runs the queue keeps one task for each item. Tasks are merged by a fixed precedence: a
removal stands for everything before it and after it, and an addition for the updates. So the merged
task forgets in which order the calls were made.

A call changes one item. What it does to that item is a step on its `Presence`, whether it is one of
the source items and how often it is in the list, and a sequence of calls is a word over the three
kinds of tasks. `same_run_iff` tells for which words the merged task leads to the same presence, and
`merge_preserves_iff` says it of the lists.
-/

namespace Airdcpp

open ViewTasks (UPDATE_ITEM ADD_ITEM REMOVE_ITEM)

variable {T : Type*} [LinearOrder T]

structure ItemTasks (T : Type*) [LinearOrder T] where
  tasks : TaskMap T := TaskMap.empty
  updatedProperties : PropertyIdSet := ∅

namespace ItemTasks

/-- `addItem`, `removeItem`, `updateItem` -/
def call (q : ItemTasks T) (c : ItemCall T) : ItemTasks T where
  tasks := q.tasks.queueTask c.item c.task
  updatedProperties := q.updatedProperties ∪ c.task.updatedProperties

/-- `get` -/
def get (q : ItemTasks T) : (TaskMap T × PropertyIdSet) × ItemTasks T :=
  ((q.tasks, q.updatedProperties), {})

/-- The queue after some calls. -/
def ofCalls (calls : List (ItemCall T)) : ItemTasks T := calls.foldl call {}

end ItemTasks

/-! ## The task of an item -/

/-- The tasks of one item merged, in the order of the calls. -/
def mergeAll (tasks : List MergeTask) : Option MergeTask :=
  tasks.foldl (fun merged t => some ((merged.map fun m => m.merge t).getD t)) none

theorem lookup_cons_ite (x y : T) (t : MergeTask) (tasks : List (T × MergeTask)) :
    ((y, t) :: tasks).lookup x = if x = y then some t else tasks.lookup x := by
  rw [List.lookup_cons]
  by_cases h : x = y
  · rw [if_pos h, beq_iff_eq.mpr h]
  · rw [if_neg h, beq_eq_false_iff_ne.mpr h]

theorem lookup_queueTaskList {aItem : T} {aData : MergeTask} {tasks : List (T × MergeTask)}
    (h : (tasks.map Prod.fst).Pairwise (· < ·)) (x : T) :
    (queueTaskList aItem aData tasks).lookup x =
      if x = aItem then some (((tasks.lookup aItem).map fun m => m.merge aData).getD aData)
      else tasks.lookup x := by
  induction tasks with
  | nil =>
    simp only [queueTaskList, lookup_cons_ite, List.lookup_nil, Option.map_none, Option.getD_none]
  | cons e tasks ih =>
    obtain ⟨y, t⟩ := e
    rw [List.map_cons, List.pairwise_cons] at h
    simp only [queueTaskList]
    split
    case isTrue heq =>
      subst heq
      simp only [lookup_cons_ite, if_true, Option.map_some, Option.getD_some]
      by_cases hx : x = aItem <;> simp [hx]
    case isFalse hne =>
      split
      case isTrue hlt =>
        have hnone : tasks.lookup aItem = none := by
          refine Lib.lookup_eq_none_of_ne fun z hz heq => ?_
          have := h.1 z.1 (List.mem_map_of_mem hz)
          exact absurd (heq ▸ this) (not_lt.mpr hlt.le)
        simp only [lookup_cons_ite, if_neg hne, hnone, Option.map_none, Option.getD_none]
      case isFalse =>
        simp only [lookup_cons_ite, ih h.2, if_neg hne]
        by_cases hx : x = aItem
        · simp [hx, hne]
        · simp [hx]

/-- The tasks of the calls for one item. -/
def tasksOf (x : T) (calls : List (ItemCall T)) : List MergeTask :=
  (calls.filter fun c => c.item = x).map ItemCall.task

/-- **The queue merges the calls of each item.** -/
theorem find?_ofCalls (calls : List (ItemCall T)) (x : T) :
    (ItemTasks.ofCalls calls).tasks.find? x = mergeAll (tasksOf x calls) := by
  induction calls using List.reverseRecOn with
  | nil => rfl
  | append_singleton calls c ih =>
    have hcalls : ItemTasks.ofCalls (calls ++ [c]) = (ItemTasks.ofCalls calls).call c := by
      simp [ItemTasks.ofCalls]
    rw [hcalls, TaskMap.find?, ItemTasks.call, TaskMap.queueTask,
      lookup_queueTaskList (ItemTasks.ofCalls calls).tasks.sorted]
    by_cases hx : x = c.item
    · subst hx
      rw [if_pos rfl]
      have htasks : tasksOf c.item (calls ++ [c]) = tasksOf c.item calls ++ [c.task] := by
        simp [tasksOf]
      rw [htasks, mergeAll, List.foldl_concat, ← mergeAll, ← ih]
      rfl
    · have htasks : tasksOf x (calls ++ [c]) = tasksOf x calls := by
        simp [tasksOf, Ne.symm hx]
      rw [if_neg hx, htasks]
      exact ih

/-- What the merged task of a word is: a removal before an addition before an update. -/
def mergedType (w : List ViewTasks) : Option ViewTasks :=
  if REMOVE_ITEM ∈ w then some REMOVE_ITEM
  else if ADD_ITEM ∈ w then some ADD_ITEM
  else if UPDATE_ITEM ∈ w then some UPDATE_ITEM
  else none

theorem type_merge (m t : MergeTask) :
    (m.merge t).type = if t.type.toNat < m.type.toNat then m.type else t.type := by
  simp only [MergeTask.merge]
  split
  · rfl
  · split
    case isTrue heq => exact heq
    case isFalse => rfl

theorem mergeAll_concat (tasks : List MergeTask) (t : MergeTask) :
    mergeAll (tasks ++ [t]) = some (((mergeAll tasks).map fun m => m.merge t).getD t) := by
  rw [mergeAll, List.foldl_concat, ← mergeAll]

theorem mergeAll_eq_none_iff {tasks : List MergeTask} : mergeAll tasks = none ↔ tasks = [] := by
  induction tasks using List.reverseRecOn with
  | nil => exact iff_of_true rfl rfl
  | append_singleton tasks t _ => simp [mergeAll_concat]

/-- The type of the merged task is the last one in merging order. -/
theorem type_mergeAll {tasks : List MergeTask} {m : MergeTask} (hm : mergeAll tasks = some m) :
    m.type ∈ tasks.map MergeTask.type ∧ ∀ t ∈ tasks, t.type.toNat ≤ m.type.toNat := by
  induction tasks using List.reverseRecOn generalizing m with
  | nil => simp [mergeAll] at hm
  | append_singleton tasks t ih =>
    rw [mergeAll_concat, Option.some.injEq] at hm
    cases hprev : mergeAll tasks with
    | none =>
      obtain rfl := mergeAll_eq_none_iff.mp hprev
      rw [hprev, Option.map_none, Option.getD_none] at hm
      simp [hm]
    | some n =>
      obtain ⟨hmem, hle⟩ := ih hprev
      rw [hprev, Option.map_some, Option.getD_some] at hm
      have htype := type_merge n t
      rw [hm] at htype
      split at htype
      case isTrue hlt =>
        refine ⟨by rw [htype, List.map_append]; exact List.mem_append_left _ hmem, ?_⟩
        intro u hu
        rcases List.mem_append.mp hu with hu | hu
        · exact htype ▸ hle u hu
        · rw [htype, List.mem_singleton.mp hu]
          exact hlt.le
      case isFalse hge =>
        refine ⟨by simp [htype], ?_⟩
        intro u hu
        rcases List.mem_append.mp hu with hu | hu
        · exact htype ▸ (hle u hu).trans (not_lt.mp hge)
        · rw [htype, List.mem_singleton.mp hu]

theorem map_type_mergeAll (tasks : List MergeTask) :
    (mergeAll tasks).map MergeTask.type = mergedType (tasks.map MergeTask.type) := by
  cases hm : mergeAll tasks with
  | none =>
    obtain rfl := mergeAll_eq_none_iff.mp hm
    rfl
  | some m =>
    obtain ⟨hmem, hle⟩ := type_mergeAll hm
    have hmax : ∀ o, m.type.toNat < o.toNat → o ∉ tasks.map MergeTask.type := by
      intro o ho hmem
      obtain ⟨t, ht, rfl⟩ := List.mem_map.mp hmem
      exact absurd (hle t ht) (not_le.mpr ho)
    rw [Option.map_some, mergedType]
    cases htype : m.type with
    | REMOVE_ITEM => rw [if_pos (htype ▸ hmem)]
    | ADD_ITEM =>
      rw [if_neg (hmax REMOVE_ITEM (by simp [htype, ViewTasks.toNat])), if_pos (htype ▸ hmem)]
    | UPDATE_ITEM =>
      rw [if_neg (hmax REMOVE_ITEM (by simp [htype, ViewTasks.toNat])),
        if_neg (hmax ADD_ITEM (by simp [htype, ViewTasks.toNat])), if_pos (htype ▸ hmem)]

/-- The properties of updates alone are put together. -/
theorem updatedProperties_mergeAll {tasks : List MergeTask} (h : ∀ t ∈ tasks, t.type = UPDATE_ITEM)
    {m : MergeTask} (hm : mergeAll tasks = some m) {p : Nat} :
    p ∈ m.updatedProperties ↔ ∃ t ∈ tasks, p ∈ t.updatedProperties := by
  induction tasks using List.reverseRecOn generalizing m with
  | nil => simp [mergeAll] at hm
  | append_singleton tasks t ih =>
    rw [mergeAll_concat, Option.some.injEq] at hm
    have htasks : ∀ u ∈ tasks, u.type = UPDATE_ITEM := fun u hu => h u (List.mem_append_left _ hu)
    have ht : t.type = UPDATE_ITEM := h t (by simp)
    cases hprev : mergeAll tasks with
    | none =>
      obtain rfl := mergeAll_eq_none_iff.mp hprev
      rw [hprev, Option.map_none, Option.getD_none] at hm
      simp [hm]
    | some n =>
      have hn : n.type = UPDATE_ITEM := by
        obtain ⟨u, hu, htype⟩ := List.mem_map.mp (type_mergeAll hprev).1
        exact htype ▸ htasks u hu
      rw [hprev, Option.map_some, Option.getD_some] at hm
      have hmerge : m.updatedProperties = n.updatedProperties ∪ t.updatedProperties := by
        rw [← hm]
        simp [MergeTask.merge, hn, ht]
      rw [hmerge, Finset.mem_union, ih htasks hprev]
      simp [or_and_right, exists_or]

/-! ## The presence of an item -/

/-- Whether an item is one of the source items, and how often it is in the list. -/
structure Presence where
  inSource : Bool
  copies : Nat
deriving DecidableEq, Repr

namespace Presence

/-- What a task does to the item that it is for. `sf` and `f` are the outcomes of the filters. -/
def step (sf f : Bool) (p : Presence) : ViewTasks → Presence
  | ADD_ITEM => if sf then ⟨true, if f then p.copies + 1 else p.copies⟩ else p
  | REMOVE_ITEM => ⟨false, p.copies - 1⟩
  | UPDATE_ITEM =>
    if !sf then p
    else if p.copies = 0 ∧ p.inSource = false then p
    else if !f then { p with copies := p.copies - 1 }
    else if p.copies = 0 then { p with copies := 1 }
    else p

def run (sf f : Bool) (p : Presence) (w : List ViewTasks) : Presence := w.foldl (step sf f) p

/-- The item is or is not in each of the lists. -/
def Same (p q : Presence) : Prop := p.inSource = q.inSource ∧ (p.copies = 0 ↔ q.copies = 0)

/-- How often the item will be in the list when the first task has been looked at: an update adds it
    if it is one of the source items and matches. -/
def shown (p : Presence) (w : List ViewTasks) : Nat :=
  if p.copies = 0 ∧ p.inSource = true ∧ w.head? = some UPDATE_ITEM then 1 else p.copies

theorem forall_suffix_cons {α : Type*} {P : List α → Prop} {a : α} {w : List α} :
    (∀ v, v <:+ a :: w → P v) ↔ P (a :: w) ∧ ∀ v, v <:+ w → P v := by
  constructor
  · intro h
    exact ⟨h _ List.suffix_rfl, fun v hv => h v (hv.trans (List.suffix_cons a w))⟩
  · rintro ⟨hall, h⟩ v hv
    rcases List.suffix_cons_iff.mp hv with rfl | hv
    · exact hall
    · exact h v hv

variable {sf f : Bool} {p : Presence} {w : List ViewTasks}

/-- A source item stays out of the list if it does not pass the source filter. -/
theorem run_filtered (f : Bool) (p : Presence) (w : List ViewTasks) :
    run false f p w = ⟨if REMOVE_ITEM ∈ w then false else p.inSource,
      p.copies - w.count REMOVE_ITEM⟩ := by
  induction w generalizing p with
  | nil => simp [run]
  | cons o w ih =>
    rw [run, List.foldl_cons, ← run, ih]
    cases o with
    | UPDATE_ITEM => simp [step]
    | ADD_ITEM => simp [step]
    | REMOVE_ITEM => simp [step, Nat.sub_sub, Nat.add_comm]

/-- After the tasks, an item is no source item if it has been removed and not been added since. -/
theorem run_inSource_iff (f : Bool) (p : Presence) (w : List ViewTasks) :
    (run true f p w).inSource = false ↔
      (∀ v, v <:+ w → REMOVE_ITEM ∉ v → ADD_ITEM ∉ v) ∧ (REMOVE_ITEM ∈ w ∨ p.inSource = false) := by
  induction w generalizing p with
  | nil => simp [run]
  | cons o w ih =>
    rw [run, List.foldl_cons, ← run, ih, forall_suffix_cons]
    cases o with
    | ADD_ITEM => simp [step]; tauto
    | REMOVE_ITEM => simp [step]
    | UPDATE_ITEM =>
      have hsource : (step true f p UPDATE_ITEM).inSource = p.inSource := by
        simp only [step, Bool.not_true, Bool.false_eq_true, if_false]
        split
        · rfl
        · split
          · rfl
          · split <;> rfl
      have hwhole := fun h : ∀ v, v <:+ w → REMOVE_ITEM ∉ v → ADD_ITEM ∉ v => h w List.suffix_rfl
      rw [hsource]
      simp
      tauto

/-- **An item that matches has left the list if its removals make up for its additions**: behind
    every point of the sequence, and in the whole also for what the list shows of it. -/
theorem run_copies_iff (p : Presence) (w : List ViewTasks) :
    (run true true p w).copies = 0 ↔
      (∀ v, v <:+ w → v.count ADD_ITEM ≤ v.count REMOVE_ITEM) ∧
        p.shown w + w.count ADD_ITEM ≤ w.count REMOVE_ITEM := by
  induction w generalizing p with
  | nil => simp [run, shown]
  | cons o w ih =>
    rw [run, List.foldl_cons, ← run, ih, forall_suffix_cons]
    have hwhole := fun h : ∀ v, v <:+ w → v.count ADD_ITEM ≤ v.count REMOVE_ITEM =>
      h w List.suffix_rfl
    cases o with
    | ADD_ITEM =>
      have hshown : (step true true p ADD_ITEM).shown w = p.copies + 1 := by simp [step, shown]
      have hstart : p.shown (ADD_ITEM :: w) = p.copies := by simp [shown]
      rw [hshown, hstart]
      simp only [List.count_cons_self,
        List.count_cons_of_ne (show ADD_ITEM ≠ REMOVE_ITEM by decide)]
      constructor
      · rintro ⟨hsuffix, hle⟩
        exact ⟨⟨by omega, hsuffix⟩, by omega⟩
      · rintro ⟨⟨-, hsuffix⟩, hle⟩
        exact ⟨hsuffix, by omega⟩
    | REMOVE_ITEM =>
      have hshown : (step true true p REMOVE_ITEM).shown w = p.copies - 1 := by simp [step, shown]
      have hstart : p.shown (REMOVE_ITEM :: w) = p.copies := by simp [shown]
      rw [hshown, hstart]
      simp only [List.count_cons_self,
        List.count_cons_of_ne (show REMOVE_ITEM ≠ ADD_ITEM by decide)]
      constructor
      · rintro ⟨hsuffix, hle⟩
        have := hwhole hsuffix
        exact ⟨⟨by omega, hsuffix⟩, by omega⟩
      · rintro ⟨⟨-, hsuffix⟩, hle⟩
        have := hwhole hsuffix
        exact ⟨hsuffix, by omega⟩
    | UPDATE_ITEM =>
      have hshown : (step true true p UPDATE_ITEM).shown w = p.shown (UPDATE_ITEM :: w) := by
        obtain ⟨inSource, copies⟩ := p
        cases inSource <;> cases copies <;> simp [step, shown]
      rw [hshown]
      simp only [List.count_cons_of_ne (show UPDATE_ITEM ≠ REMOVE_ITEM by decide),
        List.count_cons_of_ne (show UPDATE_ITEM ≠ ADD_ITEM by decide)]
      constructor
      · rintro ⟨hsuffix, hle⟩
        exact ⟨⟨hwhole hsuffix, hsuffix⟩, hle⟩
      · rintro ⟨⟨-, hsuffix⟩, hle⟩
        exact ⟨hsuffix, hle⟩

/-- An item that does not match leaves the list with every removal and every update. -/
theorem run_copies_hidden (p : Presence) (w : List ViewTasks) :
    (run true false p w).copies = p.copies - (w.count REMOVE_ITEM + w.count UPDATE_ITEM) := by
  induction w generalizing p with
  | nil => simp [run]
  | cons o w ih =>
    rw [run, List.foldl_cons, ← run, ih]
    cases o with
    | ADD_ITEM => simp [step]
    | REMOVE_ITEM =>
      simp [step]
      omega
    | UPDATE_ITEM =>
      have hcopies : (step true false p UPDATE_ITEM).copies = p.copies - 1 := by
        simp only [step, Bool.not_true, Bool.false_eq_true, if_false, Bool.not_false, if_true]
        split
        · omega
        · rfl
      simp [hcopies]
      omega

/-- Updates alone are the same as one update. -/
theorem run_updates (sf : Bool) (p : Presence) (h : ∀ o ∈ w, o = UPDATE_ITEM) :
    run sf true p (UPDATE_ITEM :: w) = step sf true p UPDATE_ITEM := by
  induction w generalizing p with
  | nil => rfl
  | cons o w ih =>
    obtain rfl := h o List.mem_cons_self
    have htwice : step sf true (step sf true p UPDATE_ITEM) UPDATE_ITEM =
        step sf true p UPDATE_ITEM := by
      obtain ⟨inSource, copies⟩ := p
      cases sf <;> cases inSource <;> cases copies <;> simp [step]
    have hrest := ih (step sf true p UPDATE_ITEM) fun o ho => h o (List.mem_cons_of_mem _ ho)
    rw [run, List.foldl_cons, ← run, hrest, htwice]

/-- When the merged task of a word does the same as the word. -/
def Keeps (sf f : Bool) (p : Presence) (w : List ViewTasks) : Prop :=
  sf = true →
    (REMOVE_ITEM ∈ w →
      if f then
        (∀ v, v <:+ w → v.count ADD_ITEM ≤ v.count REMOVE_ITEM) ∧
          p.shown w + w.count ADD_ITEM ≤ w.count REMOVE_ITEM
      else ∀ v, v <:+ w → REMOVE_ITEM ∉ v → ADD_ITEM ∉ v) ∧
    (REMOVE_ITEM ∉ w → ADD_ITEM ∈ w → UPDATE_ITEM ∈ w → f = false → p.copies = 0)

theorem mergedType_of_remove (h : REMOVE_ITEM ∈ w) : mergedType w = some REMOVE_ITEM := if_pos h

theorem mergedType_of_add (hr : REMOVE_ITEM ∉ w) (h : ADD_ITEM ∈ w) :
    mergedType w = some ADD_ITEM := by
  rw [mergedType, if_neg hr, if_pos h]

theorem eq_update_of_notMem (hr : REMOVE_ITEM ∉ w) (ha : ADD_ITEM ∉ w) :
    ∀ o ∈ w, o = UPDATE_ITEM := by
  intro o ho
  cases o with
  | UPDATE_ITEM => rfl
  | ADD_ITEM => exact absurd ho ha
  | REMOVE_ITEM => exact absurd ho hr

theorem notMem_add_of_count (h : ∀ v, v <:+ w → v.count ADD_ITEM ≤ v.count REMOVE_ITEM) :
    ∀ v, v <:+ w → REMOVE_ITEM ∉ v → ADD_ITEM ∉ v := by
  intro v hv hr
  have hle := h v hv
  rw [List.count_eq_zero.mpr hr] at hle
  exact List.count_eq_zero.mp (by omega)

/-- An item that does not pass the source filter. -/
theorem same_run_filtered (f : Bool) (hp : p.copies ≤ 1) :
    Same (run false f p (mergedType w).toList) (run false f p w) := by
  simp only [Same, run_filtered]
  by_cases hr : REMOVE_ITEM ∈ w
  · have hpos := List.count_pos_iff.mpr hr
    simp only [mergedType_of_remove hr, Option.toList_some, List.mem_singleton, if_true, hr,
      List.count_singleton_self, true_and]
    omega
  · have hmerged : REMOVE_ITEM ∉ (mergedType w).toList := by
      rw [mergedType, if_neg hr]
      split
      · simp
      · split <;> simp
    simp [hr, hmerged, List.count_eq_zero.mpr]

/-- A word with a removal. -/
theorem same_run_removed (hp : p.copies ≤ 1) (hr : REMOVE_ITEM ∈ w) :
    Same (run true f p (mergedType w).toList) (run true f p w) ↔
      if f then
        (∀ v, v <:+ w → v.count ADD_ITEM ≤ v.count REMOVE_ITEM) ∧
          p.shown w + w.count ADD_ITEM ≤ w.count REMOVE_ITEM
      else ∀ v, v <:+ w → REMOVE_ITEM ∉ v → ADD_ITEM ∉ v := by
  have hmerged : run true f p (mergedType w).toList = ⟨false, p.copies - 1⟩ := by
    rw [mergedType_of_remove hr]
    rfl
  have hgone : p.copies - 1 = 0 := by omega
  have hgoal : Same (run true f p (mergedType w).toList) (run true f p w) ↔
      (∀ v, v <:+ w → REMOVE_ITEM ∉ v → ADD_ITEM ∉ v) ∧ (run true f p w).copies = 0 := by
    have hsource := run_inSource_iff f p w
    simp only [hr, true_or, and_true] at hsource
    rw [hmerged, Same, ← hsource]
    simp only [hgone, true_iff]
    exact and_congr_left' eq_comm
  rw [hgoal]
  cases f with
  | true =>
    simp only [if_true]
    rw [run_copies_iff p w]
    exact and_iff_right_of_imp fun h => notMem_add_of_count h.1
  | false =>
    simp only [Bool.false_eq_true, if_false]
    refine and_iff_left_of_imp fun _ => ?_
    rw [run_copies_hidden]
    have := List.count_pos_iff.mpr hr
    omega

/-- A word with an addition, and without removals. -/
theorem same_run_added (hp : p.copies ≤ 1) (hr : REMOVE_ITEM ∉ w) (ha : ADD_ITEM ∈ w) :
    Same (run true f p (mergedType w).toList) (run true f p w) ↔
      (UPDATE_ITEM ∈ w → f = false → p.copies = 0) := by
  have hmerged : run true f p (mergedType w).toList =
      ⟨true, if f then p.copies + 1 else p.copies⟩ := by
    rw [mergedType_of_add hr ha]
    rfl
  have hsource : (run true f p w).inSource = true := by
    rw [← Bool.not_eq_false, run_inSource_iff]
    exact fun h => h.1 w List.suffix_rfl hr ha
  simp only [Same, hmerged, hsource, true_and]
  cases f with
  | true =>
    have hcopies : (run true true p w).copies ≠ 0 := by
      rw [Ne, run_copies_iff]
      rintro ⟨-, hle⟩
      have := List.count_pos_iff.mpr ha
      rw [List.count_eq_zero.mpr hr] at hle
      omega
    simp [hcopies]
  | false =>
    rw [run_copies_hidden, List.count_eq_zero.mpr hr]
    simp only [Bool.false_eq_true, if_false, zero_add, forall_const]
    by_cases hu : UPDATE_ITEM ∈ w
    · have hpos := List.count_pos_iff.mpr hu
      simp only [hu, forall_const]
      omega
    · simp [hu, List.count_eq_zero.mpr hu]

/-- A word of updates. -/
theorem same_run_updated (hp : p.copies ≤ 1) (h : ∀ o ∈ w, o = UPDATE_ITEM) :
    Same (run true f p (mergedType w).toList) (run true f p w) := by
  cases w with
  | nil => exact ⟨rfl, Iff.rfl⟩
  | cons o w =>
    obtain rfl := h o List.mem_cons_self
    have hrest : ∀ o ∈ w, o = UPDATE_ITEM := fun o ho => h o (List.mem_cons_of_mem _ ho)
    have hr : REMOVE_ITEM ∉ UPDATE_ITEM :: w := fun hr => by simpa using h _ hr
    have ha : ADD_ITEM ∉ UPDATE_ITEM :: w := fun ha => by simpa using h _ ha
    have hmerged : run true f p (mergedType (UPDATE_ITEM :: w)).toList =
        step true f p UPDATE_ITEM := by
      rw [mergedType, if_neg hr, if_neg ha, if_pos List.mem_cons_self]
      rfl
    rw [hmerged]
    cases f with
    | true =>
      rw [run_updates true p hrest]
      exact ⟨rfl, Iff.rfl⟩
    | false =>
      -- an update does not change whether the item is one of the source items
      have hsource : ∀ w : List ViewTasks, (∀ o ∈ w, o = UPDATE_ITEM) →
          (run true false p w).inSource = p.inSource := by
        intro w hw
        have hadd : ∀ v, v <:+ w → REMOVE_ITEM ∉ v → ADD_ITEM ∉ v :=
          fun v hv _ hmem => by simpa using hw _ (hv.subset hmem)
        have hremove : REMOVE_ITEM ∉ w := fun hmem => by simpa using hw _ hmem
        have hiff : (run true false p w).inSource = false ↔ p.inSource = false :=
          (run_inSource_iff false p w).trans
            ⟨fun hgone => hgone.2.resolve_left hremove, fun hout => ⟨hadd, Or.inr hout⟩⟩
        cases hin : p.inSource <;> simpa [hin] using hiff
      have hone := hsource [UPDATE_ITEM] (by simp)
      refine ⟨hone.trans (hsource _ h).symm, ?_⟩
      have hcount := run_copies_hidden p (UPDATE_ITEM :: w)
      have hstep := run_copies_hidden p [UPDATE_ITEM]
      simp only [run, List.foldl_cons, List.foldl_nil] at hstep
      simp only [List.count_cons_self] at hcount
      rw [hcount, hstep]
      simp
      omega

theorem same_run_iff (hp : p.copies ≤ 1) :
    Same (run sf f p (mergedType w).toList) (run sf f p w) ↔ Keeps sf f p w := by
  cases sf with
  | false => exact iff_of_true (same_run_filtered f hp) (by simp [Keeps])
  | true =>
    simp only [Keeps, forall_const]
    by_cases hr : REMOVE_ITEM ∈ w
    · simpa [hr] using same_run_removed hp hr
    · by_cases ha : ADD_ITEM ∈ w
      · simpa [hr, ha] using same_run_added hp hr ha
      · simpa [hr, ha] using same_run_updated hp (eq_update_of_notMem hr ha)

end Presence

/-! ## The lists -/

namespace ListView

variable {s : ViewSettings T} {v : ListView T}

def presence (v : ListView T) (x : T) : Presence :=
    ⟨decide (x ∈ v.sourceItems), v.matchingItems.count x⟩

omit [LinearOrder T] in
@[simp] theorem sourceItems_addMatchingItemUnsafe (s : ViewSettings T) (v : ListView T)
    (aItem : T) :
    (v.addMatchingItemUnsafe s aItem).sourceItems = v.sourceItems := rfl

@[simp] theorem sourceItems_removeMatchingItemUnsafe (v : ListView T) (aItem : T) :
    (v.removeMatchingItemUnsafe aItem).sourceItems = v.sourceItems := by
  simp only [removeMatchingItemUnsafe]
  split <;> rfl

theorem count_addMatchingItemUnsafe (s : ViewSettings T) (v : ListView T) (aItem x : T) :
    (v.addMatchingItemUnsafe s aItem).matchingItems.count x =
      v.matchingItems.count x + if aItem = x then 1 else 0 := by
  rw [addMatchingItemUnsafe, Lib.insertAt_perm.count_eq, List.count_cons]
  simp only [beq_iff_eq]

theorem matchingItems_removeMatchingItemUnsafe (v : ListView T) (aItem : T) :
    (v.removeMatchingItemUnsafe aItem).matchingItems = v.matchingItems.erase aItem := by
  simp only [removeMatchingItemUnsafe]
  split
  case h_1 hnone =>
    rw [List.erase_of_not_mem]
    exact List.idxOf?_eq_none_iff.mp hnone
  case h_2 pos hpos =>
    obtain ⟨before, after, hlist, hmem, rfl⟩ := Lib.idxOf?_eq_some_split hpos
    simp only [hlist]
    rw [List.erase_append_right _ hmem, List.erase_cons_head,
      List.eraseIdx_append_of_length_le (le_refl _), Nat.sub_self, List.eraseIdx_zero,
      List.tail_cons]

theorem presence_handleTask (s : ViewSettings T) (v : ListView T) (aItem x : T) (t : ViewTasks) :
    (v.handleTask s aItem t).2.presence x =
      if aItem = x then (v.presence x).step (s.sourceFilter x)
        (s.filters x) t else v.presence x := by
  by_cases hx : aItem = x
  case pos =>
    subst hx
    rw [if_pos rfl]
    cases t with
    | ADD_ITEM =>
      simp only [handleTask, handleAddItemTask, Presence.step, presence]
      cases s.sourceFilter aItem with
      | false => simp
      | true => cases s.filters aItem <;> simp [count_addMatchingItemUnsafe]
    | REMOVE_ITEM =>
      simp [handleTask, handleRemoveItemTask, Presence.step, presence,
        matchingItems_removeMatchingItemUnsafe, List.count_erase_self]
    | UPDATE_ITEM =>
      simp only [handleTask, handleUpdateItemTask, Presence.step, presence]
      cases s.sourceFilter aItem with
      | false => simp
      | true =>
        by_cases hmem : aItem ∈ v.matchingItems
        · have hpos : v.matchingItems.count aItem ≠ 0 := (List.count_pos_iff.mpr hmem).ne'
          cases s.filters aItem <;>
            simp [hmem, hpos, matchingItems_removeMatchingItemUnsafe, List.count_erase_self]
        · have hzero : v.matchingItems.count aItem = 0 := List.count_eq_zero.mpr hmem
          by_cases hsource : aItem ∈ v.sourceItems
          · cases s.filters aItem <;> simp [hmem, hzero, hsource, count_addMatchingItemUnsafe]
          · simp [hmem, hzero, hsource]
  case neg =>
    rw [if_neg hx]
    have hne : x ≠ aItem := fun h => hx h.symm
    cases t with
    | ADD_ITEM =>
      simp only [handleTask, handleAddItemTask, presence]
      cases s.sourceFilter aItem with
      | false => simp
      | true => cases s.filters aItem <;> simp [count_addMatchingItemUnsafe, hx, hne]
    | REMOVE_ITEM =>
      simp [handleTask, handleRemoveItemTask, presence, matchingItems_removeMatchingItemUnsafe,
        List.count_erase_of_ne hne, hne]
    | UPDATE_ITEM =>
      simp only [handleTask, handleUpdateItemTask, presence]
      cases s.sourceFilter aItem with
      | false => simp
      | true =>
        by_cases hmem : aItem ∈ v.matchingItems
        · cases s.filters aItem <;>
            simp [hmem, matchingItems_removeMatchingItemUnsafe, List.count_erase_of_ne hne]
        · by_cases hsource : aItem ∈ v.sourceItems
          · cases s.filters aItem <;> simp [hmem, hsource, count_addMatchingItemUnsafe, hx]
          · simp [hmem, hsource]

/-- **Each item goes its own way**: what a sequence of tasks does to it is done by the tasks for
    it. -/
theorem presence_handleAll (s : ViewSettings T) (v : ListView T) (tasks : List (T × ViewTasks))
    (x : T) :
    (v.handleAll s tasks).presence x =
      (v.presence x).run (s.sourceFilter x) (s.filters x)
        ((tasks.filter fun t => t.1 = x).map Prod.snd) := by
  induction tasks generalizing v with
  | nil => rfl
  | cons t tasks ih =>
    rw [handleAll, List.foldl_cons, ← handleAll, ih, presence_handleTask]
    by_cases hx : t.1 = x
    · simp [hx, Presence.run]
    · simp [hx]

end ListView

/-- The tasks of a map for one item. -/
theorem filter_lookup {tasks : List (T × MergeTask)} (h : (tasks.map Prod.fst).Pairwise (· < ·))
    (x : T) :
    (tasks.filter fun t => t.1 = x).map Prod.snd = (tasks.lookup x).toList := by
  induction tasks with
  | nil => rfl
  | cons e tasks ih =>
    obtain ⟨y, t⟩ := e
    rw [List.map_cons, List.pairwise_cons] at h
    rw [lookup_cons_ite]
    by_cases hx : x = y
    · subst hx
      have hrest : tasks.filter (fun t => t.1 = x) = [] := by
        rw [List.filter_eq_nil_iff]
        intro e he heq
        have := h.1 e.1 (List.mem_map_of_mem he)
        exact absurd this (by simp [of_decide_eq_true heq])
      simp [hrest]
    · rw [if_neg hx, ← ih h.2, List.filter_cons_of_neg (by simpa using Ne.symm hx)]

/-! ## The merged tasks against the calls -/

/-- The calls applied one by one. -/
def oneByOne (s : ViewSettings T) (v : ListView T) (calls : List (ItemCall T)) : ListView T :=
  v.handleAll s (calls.map fun c => (c.item, c.task.type))

/-- The merged tasks applied. -/
def merged (s : ViewSettings T) (v : ListView T) (calls : List (ItemCall T)) : ListView T :=
  (v.handleTasks s (ItemTasks.ofCalls calls).tasks).2

/-- The same items are in each of the lists. -/
def SameMembership (v v' : ListView T) : Prop :=
  v.sourceItems = v'.sourceItems ∧ ∀ x, x ∈ v.matchingItems ↔ x ∈ v'.matchingItems

/-- The properties of an item that were updated after it was added the last time. -/
def updatedSinceAdded (tasks : List MergeTask) : PropertyIdSet :=
  tasks.foldl (fun updated t =>
    match t.type with
    | ADD_ITEM => ∅
    | REMOVE_ITEM => updated
    | UPDATE_ITEM => updated ∪ t.updatedProperties) ∅

/-- The items that are in the list after the calls are told with all properties that were updated
    since they were added: by the merged update, or because they are added. -/
def PropertiesCovered (s : ViewSettings T) (v : ListView T) (calls : List (ItemCall T)) : Prop :=
  ∀ x ∈ (oneByOne s v calls).sourceItems, ∀ p ∈ updatedSinceAdded (tasksOf x calls),
    ∃ t, (ItemTasks.ofCalls calls).tasks.find? x = some t ∧
      (t.type = ADD_ITEM ∨ (t.type = UPDATE_ITEM ∧ p ∈ t.updatedProperties))

/-- The tasks of the calls for an item, without the properties. -/
def typesOf (x : T) (calls : List (ItemCall T)) :
    List ViewTasks := (tasksOf x calls).map MergeTask.type

/-- When the calls for an item are merged without a loss. An item that is removed is not added
    afterwards; if it matches, its removals make up for its additions. An item that is not removed
    and does not match was not in the list if it is both added and updated. -/
def MergesWell (s : ViewSettings T) (v : ListView T) (calls : List (ItemCall T)) (x : T) : Prop :=
  Presence.Keeps (s.sourceFilter x) (s.filters x) (v.presence x) (typesOf x calls)

variable {s : ViewSettings T} {v : ListView T} {calls : List (ItemCall T)}

theorem sameMembership_iff {v v' : ListView T} :
    SameMembership v v' ↔ ∀ x, (v.presence x).Same (v'.presence x) := by
  simp only [SameMembership, Presence.Same, ListView.presence, decide_eq_decide, List.count_eq_zero,
    not_iff_not, Finset.ext_iff, forall_and]

theorem presence_oneByOne (s : ViewSettings T) (v : ListView T) (calls : List (ItemCall T))
    (x : T) :
    (oneByOne s v calls).presence x =
      (v.presence x).run (s.sourceFilter x) (s.filters x) (typesOf x calls) := by
  rw [oneByOne, ListView.presence_handleAll]
  congr 1
  simp only [typesOf, tasksOf, List.filter_map, List.map_map]
  rfl

theorem presence_merged (s : ViewSettings T) (v : ListView T) (calls : List (ItemCall T)) (x : T) :
    (merged s v calls).presence x =
      (v.presence x).run (s.sourceFilter x) (s.filters x)
        (mergedType (typesOf x calls)).toList := by
  rw [merged, ListView.handleTasks_lists, ListView.presence_handleAll]
  congr 1
  have hlookup := filter_lookup (ItemTasks.ofCalls calls).tasks.sorted x
  rw [← TaskMap.find?, find?_ofCalls] at hlookup
  rw [typesOf, ← map_type_mergeAll, Option.toList_map, ← hlookup]
  simp only [List.filter_map, List.map_map]
  rfl

theorem mem_updatedSinceAdded {tasks : List MergeTask} {p : Nat} (h : p ∈ updatedSinceAdded tasks) :
    ∃ t ∈ tasks, p ∈ t.updatedProperties := by
  induction tasks using List.reverseRecOn with
  | nil => simp [updatedSinceAdded] at h
  | append_singleton tasks t ih =>
    rw [updatedSinceAdded, List.foldl_concat, ← updatedSinceAdded] at h
    have hbefore : p ∈ updatedSinceAdded tasks → ∃ u ∈ tasks ++ [t], p ∈ u.updatedProperties := by
      intro hp
      obtain ⟨u, hu, hpu⟩ := ih hp
      exact ⟨u, List.mem_append_left _ hu, hpu⟩
    cases htype : t.type with
    | ADD_ITEM => simp [htype] at h
    | REMOVE_ITEM =>
      simp only [htype] at h
      exact hbefore h
    | UPDATE_ITEM =>
      simp only [htype, Finset.mem_union] at h
      rcases h with h | h
      · exact hbefore h
      · exact ⟨t, by simp, h⟩

/-- The properties follow from the membership. -/
theorem propertiesCovered_of_same (h : SameMembership (merged s v calls) (oneByOne s v calls)) :
    PropertiesCovered s v calls := by
  intro x hx p hp
  obtain ⟨u, hu, hpu⟩ := mem_updatedSinceAdded hp
  rw [find?_ofCalls]
  cases hm : mergeAll (tasksOf x calls) with
  | none =>
    rw [mergeAll_eq_none_iff.mp hm] at hu
    exact absurd hu List.not_mem_nil
  | some t =>
    obtain ⟨-, hle⟩ := type_mergeAll hm
    refine ⟨t, rfl, ?_⟩
    cases htype : t.type with
    | ADD_ITEM => exact Or.inl rfl
    | REMOVE_ITEM =>
      -- then the item would not be one of the source items
      have hmerged := presence_merged s v calls x
      rw [typesOf, ← map_type_mergeAll, hm, Option.map_some, htype] at hmerged
      have hgone : decide (x ∈ (merged s v calls).sourceItems) = false :=
        congrArg Presence.inSource hmerged
      rw [h.1] at hgone
      exact absurd hx (of_decide_eq_false hgone)
    | UPDATE_ITEM =>
      have hupdates : ∀ u ∈ tasksOf x calls, u.type = UPDATE_ITEM := by
        intro u hu
        have := hle u hu
        cases hu : u.type <;> simp [htype, hu, ViewTasks.toNat] at this ⊢
      exact Or.inr ⟨rfl, (updatedProperties_mergeAll hupdates hm).mpr ⟨u, hu, hpu⟩⟩

/-- **When merging preserves the effect of the calls.** The list holds no item twice. The merged
    tasks lead to the same membership of every item as the calls one by one, and tell all properties
    that were updated, exactly if the calls for each item are merged well. -/
theorem merge_preserves_iff (s : ViewSettings T) (v : ListView T) (hv : v.matchingItems.Nodup)
    (calls : List (ItemCall T)) :
    (SameMembership (merged s v calls) (oneByOne s v calls) ∧ PropertiesCovered s v calls) ↔
      ∀ x, MergesWell s v calls x := by
  rw [and_iff_left_of_imp propertiesCovered_of_same, sameMembership_iff]
  refine forall_congr' fun x => ?_
  rw [presence_merged, presence_oneByOne]
  exact Presence.same_run_iff (List.nodup_iff_count_le_one.mp hv x)

/-- A view of numbers without filters. -/
def plainView : ViewSettings Nat := ⟨fun _ => true, fun _ => true, fun a b => decide (a < b)⟩

/-- One item is updated and removed, another one is added and updated. -/
def someCalls : List (ItemCall Nat) :=
  [.updateItem 1 {3}, .addItem 2, .updateItem 2 {4}, .removeItem 1]

theorem someCalls_mergesWell (x : Nat) : MergesWell plainView ⟨{1}, [1], 0⟩ someCalls x := by
  have hcases : x = 1 ∨ x = 2 ∨ typesOf x someCalls = [] := by
    by_cases h1 : 1 = x
    · exact Or.inl h1.symm
    · by_cases h2 : 2 = x
      · exact Or.inr (Or.inl h2.symm)
      · exact Or.inr (Or.inr (by simp [typesOf, tasksOf, someCalls, ItemCall.item, h1, h2]))
  rcases hcases with rfl | rfl | hnone
  · have htypes : typesOf 1 someCalls = [UPDATE_ITEM, REMOVE_ITEM] := by decide
    rw [MergesWell, htypes]
    refine fun _ => ⟨fun _ => ?_, fun hr => absurd (by decide) hr⟩
    rw [if_pos (by decide)]
    exact ⟨by simp [Presence.forall_suffix_cons], by decide⟩
  · have htypes : typesOf 2 someCalls = [ADD_ITEM, UPDATE_ITEM] := by decide
    rw [MergesWell, htypes]
    exact fun _ => ⟨fun hr => absurd hr (by decide), fun _ _ _ _ => by decide⟩
  · rw [MergesWell, hnone]
    exact fun _ => ⟨fun hr => absurd hr List.not_mem_nil, fun _ ha => absurd ha List.not_mem_nil⟩

theorem merge_preserves_someCalls :
    SameMembership (merged plainView ⟨{1}, [1], 0⟩ someCalls)
      (oneByOne plainView ⟨{1}, [1], 0⟩ someCalls) :=
  ((merge_preserves_iff plainView ⟨{1}, [1], 0⟩ (by simp) someCalls).mpr someCalls_mergesWell).1

/-- An item is removed and added again. -/
theorem merge_loses_item :
    ¬ ∀ (s : ViewSettings Nat) (v : ListView Nat) (calls : List (ItemCall Nat)),
      v.matchingItems.Nodup →
      SameMembership (merged s v calls) (oneByOne s v calls) := by
  intro hall
  have hsame := hall plainView ⟨{1}, [1], 0⟩ [.removeItem 1, .addItem 1] (by simp)
  have hmem : (1 : Nat) ∈ (oneByOne plainView ⟨{1}, [1], 0⟩
      [.removeItem 1, .addItem 1]).sourceItems := by
    decide
  have hgone : (1 : Nat) ∉ (merged plainView ⟨{1}, [1], 0⟩
      [.removeItem 1, .addItem 1]).sourceItems := by
    decide
  exact hgone (hsame.1 ▸ hmem)

end Airdcpp
