import Airdcpp.Lib.Threads

/-!
# `Core/DelayedEvents` — events that are executed later, and once

`addEvent` puts a function into a map, under a key, with the tick when it may run; adding to a key
that has one moves that tick. The timer collects the keys whose tick has passed under the lock, and
then takes each of them out under the lock again and calls its function outside of it. `runTask`
takes a key out and calls its function at once.

What was added, removed and executed is kept in a history. `Right` says what an execution must find
in it: that it is of the last function that was added for the key, after its delay, that it was not
removed since, and that nothing was executed for the key since. `Undisturbed` is the condition on
the sections for that: a function is not replaced by another one while it waits, and nobody adds or
removes the key while the function is in somebody's hands.
-/

namespace Airdcpp

open Lib

structure DelayTask (φ : Type) where
  runTick : Nat
  f : φ

/-- What was passed to `addEvent`, and when. -/
structure Addition (φ : Type) where
  f : φ
  aDelayTicks : Nat
  tick : Nat

/-- What has happened to a key. -/
inductive DelayedEvent (κ φ : Type)
  | added (aKey : κ) (a : Addition φ)
  | removed (aKey : κ)
  | executed (aKey : κ) (f : φ) (tick : Nat) (byTimer : Bool)

structure DelayedEvents (κ φ : Type) where
  eventList : κ → Option (DelayTask φ) := fun _ => none
  /-- The last tick that was read -/
  now : Nat := 0
  /-- The newest first -/
  history : List (DelayedEvent κ φ) := []

namespace DelayedEvents

variable {κ φ : Type} [DecidableEq κ]

/-- Where a thread is: the section that it runs next. -/
inductive Call (κ φ : Type)
  | addEvent (aKey : κ) (f : φ) (aDelayTicks : Nat)
  | removeEvent (aKey : κ)
  | runTask (aKey : κ)
  /-- `task->f()` in a `runTask` that is not the timer's -/
  | calling (aKey : κ) (f : φ)
  /-- The timer before it reads the tick -/
  | second
  | collecting (aTick : Nat)
  | taking (taskKeys : List κ)
  /-- `task->f()` in the timer -/
  | firing (aKey : κ) (f : φ) (taskKeys : List κ)

/-- What a section gets: the tick when it runs, and the order of the keys in the map. -/
structure Input (κ : Type) where
  tick : Nat
  order : List κ := []

def isDue (s : DelayedEvents κ φ) (aTick : Nat) (k : κ) : Prop :=
  ∃ task, s.eventList k = some task ∧ task.runTick < aTick

/-- The ticks are `uint64_t`. -/
def addTicks (tick aDelayTicks : Nat) : Nat := (tick + aDelayTicks) % 2 ^ 64

def log (s : DelayedEvents κ φ) (e : DelayedEvent κ φ) : DelayedEvents κ φ :=
  { s with history := e :: s.history }

def erase (s : DelayedEvents κ φ) (aKey : κ) : DelayedEvents κ φ :=
  { s with eventList := Function.update s.eventList aKey none }

def addEvent (s : DelayedEvents κ φ) (aKey : κ) (f : φ) (aDelayTicks : Nat) : DelayedEvents κ φ :=
  let runTick := addTicks s.now aDelayTicks
  let task := match s.eventList aKey with
    | some task => { task with runTick }
    | none => { runTick, f }
  { s with eventList := Function.update s.eventList aKey (some task) }

def next (s : DelayedEvents κ φ) (t : Call κ φ) (x : Input κ) :
    DelayedEvents κ φ × Option (Call κ φ) :=
  let s := { s with now := x.tick }
  match t with
  | .addEvent aKey f aDelayTicks =>
    ((s.addEvent aKey f aDelayTicks).log (.added aKey ⟨f, aDelayTicks, x.tick⟩), none)
  | .removeEvent aKey => ((s.erase aKey).log (.removed aKey), none)
  | .runTask aKey =>
    match s.eventList aKey with
    | none => (s, none)
    | some task => (s.erase aKey, some (.calling aKey task.f))
  | .calling aKey f => (s.log (.executed aKey f x.tick false), none)
  | .second => (s, some (.collecting x.tick))
  | .collecting _ => (s, some (.taking x.order))
  | .taking [] => (s, none)
  | .taking (k :: taskKeys) =>
    match s.eventList k with
    | none => (s, some (.taking taskKeys))
    | some task => (s.erase k, some (.firing k task.f taskKeys))
  | .firing aKey f taskKeys =>
    (s.log (.executed aKey f x.tick true), some (.taking taskKeys))

/-- The ticks do not decrease, and the keys that are collected are those that are due. -/
def accepts (s : DelayedEvents κ φ) (t : Call κ φ) (x : Input κ) : Prop :=
  s.now ≤ x.tick ∧ x.tick < 2 ^ 64 ∧
    match t with
    | .collecting aTick => x.order.Nodup ∧ ∀ k, k ∈ x.order ↔ s.isDue aTick k
    | _ => True

/-- A thread begins with a call from outside. -/
def enters (_ : DelayedEvents κ φ) : Call κ φ → Prop
  | .addEvent .. | .removeEvent _ | .runTask _ | .second => True
  | _ => False

def sections (κ φ : Type) [DecidableEq κ] : Sections (DelayedEvents κ φ) (Call κ φ) (Input κ) where
  enters
  accepts
  next

/-- Nothing was added yet. -/
def initial (s : Threads (DelayedEvents κ φ) (Call κ φ)) : Prop :=
  s.shared = { now := s.shared.now } ∧ s.inside = []

end DelayedEvents

/-! ## The history -/

namespace DelayedEvent

variable {κ φ : Type} [DecidableEq κ]

/-- What it adds for a key. -/
def addition (aKey : κ) : DelayedEvent κ φ → Option (Addition φ)
  | added k a => if k = aKey then some a else none
  | _ => none

def executes (aKey : κ) : DelayedEvent κ φ → Bool
  | executed k _ _ _ => k = aKey
  | _ => false

def removes (aKey : κ) : DelayedEvent κ φ → Bool
  | removed k => k = aKey
  | _ => false

/-- The last addition for a key. -/
def lastAdded (aKey : κ) (history : List (DelayedEvent κ φ)) : Option (Addition φ) :=
  history.findSome? (addition aKey)

/-- What has happened since. -/
def since (aKey : κ) (history : List (DelayedEvent κ φ)) : List (DelayedEvent κ φ) :=
  history.takeWhile fun e => (e.addition aKey).isNone

/-- What an execution must find in the history before it. -/
def RightAfter (older : List (DelayedEvent κ φ)) : DelayedEvent κ φ → Prop
  | executed aKey f tick byTimer =>
    ∃ a, lastAdded aKey older = some a ∧ (∀ e ∈ since aKey older, e.executes aKey = false) ∧
      (byTimer = true → f = a.f ∧ a.tick + a.aDelayTicks ≤ tick ∧
        ∀ e ∈ since aKey older, e.removes aKey = false)
  | _ => True

def Right : List (DelayedEvent κ φ) → Prop
  | [] => True
  | e :: older => e.RightAfter older ∧ Right older

variable {aKey k : κ} {a : Addition φ} {e : DelayedEvent κ φ} {history : List (DelayedEvent κ φ)}

theorem lastAdded_cons (h : e.addition k = none) (history : List (DelayedEvent κ φ)) :
    lastAdded k (e :: history) = lastAdded k history := by
  rw [lastAdded, List.findSome?_cons, h]
  rfl

theorem since_cons (h : e.addition k = none) (history : List (DelayedEvent κ φ)) :
    since k (e :: history) = e :: since k history :=
  List.takeWhile_cons_of_pos (by rw [h]; rfl)

/-- Since the last addition, which was `a`, nothing was executed for the key. -/
structure Unexecuted (k : κ) (a : Addition φ) (history : List (DelayedEvent κ φ)) : Prop where
  last : lastAdded k history = some a
  none_executed : ∀ e ∈ since k history, e.executes k = false

/-- It was not removed, either. -/
structure Unremoved (k : κ) (a : Addition φ) (history : List (DelayedEvent κ φ)) : Prop extends
    Unexecuted k a history where
  none_removed : ∀ e ∈ since k history, e.removes k = false

theorem Unexecuted.cons (h : Unexecuted k a history) (hadd : e.addition k = none)
    (hexec : e.executes k = false) : Unexecuted k a (e :: history) where
  last := (lastAdded_cons hadd history).trans h.last
  none_executed := by
    rw [since_cons hadd]
    exact List.forall_mem_cons.mpr ⟨hexec, h.none_executed⟩

theorem Unremoved.cons (h : Unremoved k a history) (hadd : e.addition k = none)
    (hexec : e.executes k = false) (hremove : e.removes k = false) :
    Unremoved k a (e :: history) where
  toUnexecuted := h.toUnexecuted.cons hadd hexec
  none_removed := by
    rw [since_cons hadd]
    exact List.forall_mem_cons.mpr ⟨hremove, h.none_removed⟩

/-- An addition is the last one at first. -/
theorem Unremoved.added (k : κ) (a : Addition φ) (history : List (DelayedEvent κ φ)) :
    Unremoved k a (.added k a :: history) := by
  have hadd : (DelayedEvent.added k a).addition k = some a := if_pos rfl
  have hsince : since k (.added k a :: history) = [] := List.takeWhile_cons_of_neg (by simp [hadd])
  refine ⟨⟨?_, ?_⟩, ?_⟩
  · rw [lastAdded, List.findSome?_cons, hadd]
  · simp [hsince]
  · simp [hsince]

theorem addition_added_of_ne (h : aKey ≠ k) : (DelayedEvent.added aKey a).addition k = none :=
    if_neg h

end DelayedEvent

/-! ## What a section may meet -/

namespace DelayedEvents

open DelayedEvent

variable {κ φ : Type} [DecidableEq κ]

/-- The function that a thread has taken out of the map. -/
def Call.holds (k : κ) : Call κ φ → Bool
  | calling aKey _ => aKey = k
  | firing aKey _ _ => aKey = k
  | _ => false

/-- The timer holds it. -/
def Call.fires (k : κ) : Call κ φ → Bool
  | firing aKey _ _ => aKey = k
  | _ => false

/-- Nobody adds another function for a key that has one. Nobody adds a key while a thread has its
    function and has not called it, or removes it while the timer has. And what the timer takes out
    is still due. -/
def Undisturbed (s : DelayedEvents κ φ) (others : List (Call κ φ)) :
    Call κ φ → Input κ → Prop
  | .addEvent aKey f aDelayTicks, x =>
    (∀ task, s.eventList aKey = some task → task.f = f) ∧ (∀ u ∈ others, u.holds aKey = false) ∧
      x.tick + aDelayTicks < 2 ^ 64
  | .removeEvent aKey, _ => ∀ u ∈ others, u.fires aKey = false
  | .taking (k :: _), x => ∀ task, s.eventList k = some task → task.runTick ≤ x.tick
  | _, _ => True

/-- What holds of every state. -/
structure Latest (s : DelayedEvents κ φ) (inside : List (Call κ φ)) : Prop where
  right : Right s.history
  waiting : ∀ k task, s.eventList k = some task →
    ∃ a, Unremoved k a s.history ∧ task.f = a.f ∧ task.runTick = a.tick + a.aDelayTicks
  called : ∀ k f, .calling k f ∈ inside → ∃ a, Unexecuted k a s.history
  fired : ∀ k f taskKeys, .firing k f taskKeys ∈ inside →
    ∃ a, Unremoved k a s.history ∧ f = a.f ∧ a.tick + a.aDelayTicks ≤ s.now
  -- a function is in the map or in the hands of one thread
  single : ∀ k, (s.eventList k).isSome.toNat + inside.countP (Call.holds k) ≤ 1

variable {s : DelayedEvents κ φ} {inside : List (Call κ φ)} {t : Call κ φ} {x : Input κ}
  {aKey k : κ}
  {f : φ} {aDelayTicks : Nat} {taskKeys : List κ} {task : DelayTask φ}

theorem Latest.perm {inside' : List (Call κ φ)} (hperm : inside.Perm inside')
    (h : Latest s inside) :
    Latest s inside' where
  right := h.right
  waiting := h.waiting
  called k f hmem := h.called k f (hperm.mem_iff.mpr hmem)
  fired k f taskKeys hmem := h.fired k f taskKeys (hperm.mem_iff.mpr hmem)
  single k := hperm.countP_eq (Call.holds k) ▸ h.single k

/-- Threads that hold nothing may come and go. -/
theorem Latest.cons (ht : ∀ k, t.holds k = false) (h : Latest s inside) :
    Latest s (t :: inside) where
  right := h.right
  waiting := h.waiting
  called k f hmem := by
    rcases List.mem_cons.mp hmem with rfl | hmem
    · exact absurd (ht k) (by simp [Call.holds])
    · exact h.called k f hmem
  fired k f taskKeys hmem := by
    rcases List.mem_cons.mp hmem with rfl | hmem
    · exact absurd (ht k) (by simp [Call.holds])
    · exact h.fired k f taskKeys hmem
  single k := by
    rw [List.countP_cons_of_neg (by simp [ht k])]
    exact h.single k

theorem Latest.tail (h : Latest s (t :: inside)) : Latest s inside where
  right := h.right
  waiting := h.waiting
  called k f hmem := h.called k f (List.mem_cons_of_mem _ hmem)
  fired k f taskKeys hmem := h.fired k f taskKeys (List.mem_cons_of_mem _ hmem)
  single k := by
    have hsingle := h.single k
    rw [List.countP_cons] at hsingle
    omega

/-- Time passes. -/
theorem Latest.tick (htick : s.now ≤ x.tick) (h : Latest s inside) :
    Latest { s with now := x.tick } inside where
  right := h.right
  waiting := h.waiting
  called := h.called
  fired k f taskKeys hmem := by
    obtain ⟨a, ha, hf, hdue⟩ := h.fired k f taskKeys hmem
    exact ⟨a, ha, hf, hdue.trans htick⟩
  single := h.single

theorem holds_of_count (h : inside.countP (Call.holds k) = 0) (ht : t ∈ inside) :
    t.holds k = false := by
  have hnone := List.countP_eq_zero.mp h t ht
  rwa [Bool.not_eq_true] at hnone

theorem count_of_holds (h : ∀ t ∈ inside, t.holds k = false) : inside.countP (Call.holds k) = 0 :=
  List.countP_eq_zero.mpr fun t ht => by simp [h t ht]

theorem Latest.addEvent (h : Latest s inside) (hsame : ∀ task, s.eventList aKey = some task →
    task.f = f)
    (hfree : ∀ u ∈ inside, u.holds aKey = false) (hsum : s.now + aDelayTicks < 2 ^ 64) :
    Latest ((s.addEvent aKey f aDelayTicks).log (.added aKey ⟨f, aDelayTicks, s.now⟩)) inside where
  right := ⟨trivial, h.right⟩
  waiting k task htask := by
    by_cases hk : k = aKey
    · subst hk
      refine ⟨_, Unremoved.added k _ _, ?_⟩
      have htask' : (match s.eventList k with
          | some task => { task with runTick := addTicks s.now aDelayTicks }
          | none => { runTick := addTicks s.now aDelayTicks, f := f }) = task := by
        simpa [DelayedEvents.addEvent, log] using htask
      subst htask'
      have hticks : addTicks s.now aDelayTicks = s.now + aDelayTicks := Nat.mod_eq_of_lt hsum
      cases hold : s.eventList k with
      | none => exact ⟨rfl, hticks⟩
      | some task => exact ⟨hsame task hold, hticks⟩
    · have hold : s.eventList k = some task := by
        simpa [DelayedEvents.addEvent, log, Function.update_of_ne hk] using htask
      obtain ⟨a, ha, hf, hrun⟩ := h.waiting k task hold
      exact ⟨a, ha.cons (addition_added_of_ne (Ne.symm hk)) rfl rfl, hf, hrun⟩
  called k g hmem := by
    obtain ⟨a, ha⟩ := h.called k g hmem
    have hk : aKey ≠ k := by
      rintro rfl
      simpa [Call.holds] using hfree _ hmem
    exact ⟨a, ha.cons (addition_added_of_ne hk) rfl⟩
  fired k g taskKeys hmem := by
    obtain ⟨a, ha, hf, hdue⟩ := h.fired k g taskKeys hmem
    have hk : aKey ≠ k := by
      rintro rfl
      simpa [Call.holds] using hfree _ hmem
    exact ⟨a, ha.cons (addition_added_of_ne hk) rfl rfl, hf, hdue⟩
  single k := by
    by_cases hk : k = aKey
    · subst hk
      rw [count_of_holds hfree]
      exact Bool.toNat_le _
    · have hold : ((s.addEvent aKey f aDelayTicks).log (.added aKey ⟨f, aDelayTicks,
        s.now⟩)).eventList k =
          s.eventList k := Function.update_of_ne hk _ _
      rw [hold]
      exact h.single k

theorem eventList_erase_of_ne (hk : k ≠ aKey) : (s.erase aKey).eventList k = s.eventList k :=
  Function.update_of_ne hk _ _

theorem eventList_erase_self (s : DelayedEvents κ φ) (aKey : κ) :
    (s.erase aKey).eventList aKey = none :=
  Function.update_self _ _ _

/-- What was taken out is in the hands of nobody else. -/
theorem Latest.erase (h : Latest s inside) (aKey : κ) : Latest (s.erase aKey) inside where
  right := h.right
  waiting k task htask := by
    by_cases hk : k = aKey
    · rw [hk, eventList_erase_self] at htask
      cases htask
    · exact h.waiting k task (eventList_erase_of_ne hk ▸ htask)
  called := h.called
  fired := h.fired
  single k := by
    by_cases hk : k = aKey
    · have hsingle := h.single k
      rw [hk, eventList_erase_self]
      rw [hk] at hsingle
      simp only [Option.isSome_none, Bool.toNat_false]
      omega
    · rw [eventList_erase_of_ne hk]
      exact h.single k

theorem Latest.removeEvent (h : Latest s inside) (hfree : ∀ u ∈ inside, u.fires aKey = false) :
    Latest ((s.erase aKey).log (.removed aKey)) inside where
  right := ⟨trivial, h.right⟩
  waiting k task htask := by
    obtain ⟨a, ha, hf, hrun⟩ := (h.erase aKey).waiting k task htask
    have hk : aKey ≠ k := by
      rintro rfl
      cases (eventList_erase_self s aKey).symm.trans htask
    exact ⟨a, ha.cons rfl rfl (by simp [removes, hk]), hf, hrun⟩
  called k f hmem := by
    obtain ⟨a, ha⟩ := h.called k f hmem
    exact ⟨a, ha.cons rfl rfl⟩
  fired k f taskKeys hmem := by
    obtain ⟨a, ha, hf, hdue⟩ := h.fired k f taskKeys hmem
    have hk : aKey ≠ k := by
      rintro rfl
      simpa [Call.fires] using hfree _ hmem
    exact ⟨a, ha.cons rfl rfl (by simp [removes, hk]), hf, hdue⟩
  single := (h.erase aKey).single

/-- The count when a thread takes a function out. -/
theorem single_take (h : Latest s inside) (htask : s.eventList aKey = some task)
    (ht : ∀ k, t.holds k = decide (aKey = k)) (k : κ) :
    ((s.erase aKey).eventList k).isSome.toNat + (t :: inside).countP (Call.holds k) ≤ 1 := by
  have hsingle := h.single k
  rw [List.countP_cons, ht k]
  by_cases hk : k = aKey
  · subst hk
    rw [htask] at hsingle
    simp only [Option.isSome_some, Bool.toNat_true] at hsingle
    rw [eventList_erase_self]
    simp only [Option.isSome_none, Bool.toNat_false, decide_true, if_true]
    omega
  · rw [eventList_erase_of_ne hk, decide_eq_false (Ne.symm hk)]
    exact hsingle

theorem Latest.calling (h : Latest s inside) (htask : s.eventList aKey = some task) :
    Latest (s.erase aKey) (.calling aKey task.f :: inside) where
  right := h.right
  waiting := (h.erase aKey).waiting
  called k f hmem := by
    rcases List.mem_cons.mp hmem with heq | hmem
    · cases heq
      obtain ⟨a, ha, -⟩ := h.waiting aKey task htask
      exact ⟨a, ha.toUnexecuted⟩
    · exact h.called k f hmem
  fired k f taskKeys hmem := by
    rcases List.mem_cons.mp hmem with heq | hmem
    · cases heq
    · exact h.fired k f taskKeys hmem
  single := single_take h htask fun _ => rfl

theorem Latest.firing (h : Latest s inside) (htask : s.eventList aKey = some task)
    (hdue : task.runTick ≤ s.now) (taskKeys : List κ) :
    Latest (s.erase aKey) (.firing aKey task.f taskKeys :: inside) where
  right := h.right
  waiting := (h.erase aKey).waiting
  called k f hmem := by
    rcases List.mem_cons.mp hmem with heq | hmem
    · cases heq
    · exact h.called k f hmem
  fired k f taskKeys hmem := by
    rcases List.mem_cons.mp hmem with heq | hmem
    · cases heq
      obtain ⟨a, ha, hf, hrun⟩ := h.waiting aKey task htask
      exact ⟨a, ha, hf, hrun ▸ hdue⟩
    · exact h.fired k f taskKeys hmem
  single := single_take h htask fun _ => rfl

/-- A function that is called is in nobody's hands afterwards. -/
theorem Latest.executed {byTimer : Bool} {tick : Nat} (h : Latest s (t :: inside))
    (ht : t.holds aKey = true)
    (hright : RightAfter s.history (.executed aKey f tick byTimer)) :
    Latest (s.log (.executed aKey f tick byTimer)) inside := by
  have hsingle := h.single aKey
  rw [List.countP_cons_of_pos ht] at hsingle
  have hfree : inside.countP (Call.holds aKey) = 0 := by omega
  refine ⟨⟨hright, h.right⟩, ?_, ?_, ?_, h.tail.single⟩
  · intro k task htask
    obtain ⟨a, ha, hf, hrun⟩ := h.waiting k task htask
    have hk : aKey ≠ k := by
      rintro rfl
      have hsome : s.eventList aKey = some task := htask
      rw [hsome, Option.isSome_some, Bool.toNat_true] at hsingle
      omega
    exact ⟨a, ha.cons rfl (by simp [executes, hk]) rfl, hf, hrun⟩
  · intro k g hmem
    obtain ⟨a, ha⟩ := h.tail.called k g hmem
    have hk : aKey ≠ k := by
      rintro rfl
      simpa [Call.holds] using holds_of_count hfree hmem
    exact ⟨a, ha.cons rfl (by simp [executes, hk])⟩
  · intro k g taskKeys hmem
    obtain ⟨a, ha, hf, hdue⟩ := h.tail.fired k g taskKeys hmem
    have hk : aKey ≠ k := by
      rintro rfl
      simpa [Call.holds] using holds_of_count hfree hmem
    exact ⟨a, ha.cons rfl (by simp [executes, hk]) rfl, hf, hdue⟩

/-- **One section**, met as `Undisturbed` says. -/
theorem Latest.next (h : Latest s (t :: inside)) (hx : accepts s t x)
    (hC : Undisturbed s inside t x) :
    Latest (s.next t x).1 ((s.next t x).2.toList ++ inside) := by
  obtain ⟨htick, -, horder⟩ := hx
  have hnow := h.tick htick
  have hothers := hnow.tail
  cases t with
  | addEvent aKey f aDelayTicks => exact hothers.addEvent hC.1 hC.2.1 hC.2.2
  | removeEvent aKey => exact hothers.removeEvent hC
  | runTask aKey =>
    cases htask : s.eventList aKey with
    | none =>
      simp only [DelayedEvents.next, htask]
      exact hothers
    | some task =>
      simp only [DelayedEvents.next, htask]
      exact hothers.calling htask
  | calling aKey f =>
    obtain ⟨a, ha⟩ := h.called aKey f List.mem_cons_self
    exact hnow.executed (by simp [Call.holds]) ⟨a, ha.last, ha.none_executed, fun h =>
      Bool.noConfusion h⟩
  | second => exact hothers.cons fun _ => rfl
  | collecting aTick => exact hothers.cons fun _ => rfl
  | taking taskKeys =>
    cases taskKeys with
    | nil => exact hothers
    | cons k taskKeys =>
      cases htask : s.eventList k with
      | none =>
        simp only [DelayedEvents.next, htask]
        exact hothers.cons fun _ => rfl
      | some task =>
        simp only [DelayedEvents.next, htask]
        exact hothers.firing htask (hC task htask) taskKeys
  | firing aKey f taskKeys =>
    obtain ⟨a, ha, hf, hdue⟩ := h.fired aKey f taskKeys List.mem_cons_self
    have hright : RightAfter s.history (.executed aKey f x.tick true) :=
      ⟨a, ha.last, ha.none_executed, fun _ => ⟨hf, hdue.trans htick, ha.none_removed⟩⟩
    exact Latest.cons (fun _ => rfl) (hnow.executed (by simp [Call.holds]) hright)

theorem Latest.enter (h : Latest s inside) (ht : enters s t) : Latest s (t :: inside) := by
  cases t with
  | addEvent | removeEvent | runTask | second => exact h.cons fun _ => rfl
  | calling | collecting | taking | firing => exact ht.elim

theorem latest_of_reaches {s : Threads (DelayedEvents κ φ) (Call κ φ)}
    (h : Reaches ((sections κ φ).system.restrict (Sections.atTurn Undisturbed)) initial s) :
    Latest s.shared s.inside := by
  refine Sections.invariant ?_ ?_ ?_ ?_ h
  · intro s hs
    rw [hs.1, hs.2]
    exact ⟨trivial, by simp, by simp, by simp, by simp⟩
  · exact fun s l l' hperm hl => hl.perm hperm
  · exact fun s ts t hs ht => hs.enter ht
  · exact fun s ts t x hs hx hC => hs.next hx hC

theorem isDue_iff_of_single {k₀ : κ} {aTick : Nat} (hk₀ : s.eventList k₀ = some task)
    (hdue : task.runTick < aTick) (hother : ∀ k, k ≠ k₀ → s.eventList k = none) (k : κ) :
    k ∈ [k₀] ↔ s.isDue aTick k := by
  rw [List.mem_singleton]
  constructor
  · rintro rfl
    exact ⟨task, hk₀, hdue⟩
  · rintro ⟨task', htask', -⟩
    by_contra hk
    rw [hother k hk] at htask'
    cases htask'

/-- Two additions for one key within its delay, and the timer. -/
def additions (f g : Nat) : List (Turn (Call UInt8 Nat) (Input UInt8)) :=
  [.enter (.addEvent 0 f 1000), .run 0 ⟨0, []⟩, .enter (.addEvent 0 g 1000), .run 0 ⟨10, []⟩,
    .enter .second, .run 0 ⟨2000, []⟩, .run 0 ⟨2000, [0]⟩, .run 0 ⟨2000, []⟩, .run 0 ⟨2000, []⟩]

def unused : Threads (DelayedEvents UInt8 Nat) (Call UInt8 Nat) := ⟨{}, []⟩

theorem additions_allowed (f g : Nat) : (sections UInt8 Nat).system.AllowedAlong unused
    (additions f g) := by
  have hother : ∀ k, k ≠ (0 : UInt8) → ((sections UInt8 Nat).system.run unused
      ((additions f g).take 6)).shared.eventList k = none := by
    intro k hk
    simp [System.run, additions, unused, sections, Sections.system, DelayedEvents.next,
      DelayedEvents.addEvent, log,
      Function.update_of_ne hk]
  have hlater : 10 ≤ 2000 := by decide
  have htick : 2000 < 2 ^ 64 := by decide
  have hdue : addTicks 10 1000 < 2000 := by decide
  exact ⟨trivial, ⟨_, rfl, le_refl 0, Nat.two_pow_pos 64, trivial⟩, trivial,
    ⟨_, rfl, Nat.zero_le 10, hlater.trans_lt htick, trivial⟩, trivial,
    ⟨_, rfl, hlater, htick, trivial⟩,
    ⟨_, rfl, le_refl 2000, htick, List.nodup_singleton 0, isDue_iff_of_single rfl hdue hother⟩,
    ⟨_, rfl, le_refl 2000, htick, trivial⟩, ⟨_, rfl, le_refl 2000, htick, trivial⟩, trivial⟩

theorem reaches_additions (f g : Nat) : Reaches (sections UInt8 Nat).system initial
    ((sections UInt8 Nat).system.run unused (additions f g)) :=
  Reaches.run (Reaches.start ⟨rfl, rfl⟩) (additions_allowed f g)

end DelayedEvents

end Airdcpp
