import Airdcpp.Core.Types
import Airdcpp.Lib.ListOps
import Airdcpp.Lib.Runs

/-!
# `Queue/PrioritySearchQueue` — which bundle to search alternates for next

`PrioritySearchQueue<ItemT>` holds items in one deque per priority and one more for recent
items, and hands them out in turn: a normal item by a weighted draw of a priority and then in
rotation, a recent item in rotation. The items' own fields decide where they are
looked for: an item is taken out of the deque its *current* priority and recent flag name, so
those must not change while it is in one, except by the pop, which re-reads the flag of every
recent item it passes and moves the item when the flag has gone.

The item type stays a parameter. What an operation asks of the world — whether an item may be
searched for, whether it is still recent, the clock, and what the random draw gave — is an
`Env`, any one at every call.

Two results. `Inv` says how often each item is in each deque, and every operation keeps it as
long as an item is not added that is there already (`preserves_inv`). And a pop with both timers due
finds something exactly when `Finds` holds: the loop over the recent items runs up to a bound
that is read again after each item, so every item it moves away costs it one at the end.
-/

namespace Airdcpp

open Lib

variable {α : Type*}

/-- What the items and the clock answer while an operation runs. -/
structure SearchEnv (α : Type*) where
  /-- `allowAutoSearch()` -/
  allowAutoSearch : α → Bool
  /-- What `checkRecent()` finds. -/
  stillRecent : α → Bool
  /-- `GET_TICK()` -/
  now : Nat
  /-- The setting of the shortest time between searches, in minutes. -/
  minInterval : Nat
  /-- The index `dist(gen)` draws. -/
  draw : Nat

/-- The queue, and the fields of the items it reads. -/
structure PrioritySearchQueue (α : Type*) where
  prioSearchQueue : Priority → List α
  recentSearchQueue : List α
  nextSearchNormal : Nat
  nextSearchRecent : Nat
  /-- `getPriority()` -/
  priority : α → Priority
  /-- `isRecent()` -/
  isRecent : α → Bool

namespace PrioritySearchQueue

/-- The priorities that are searched for, `LOW` to `HIGHEST`. -/
def searchPriorities : List Priority := [.low, .normal, .high, .highest]

/-- `aItem->getPriority() < Priority::LOW` -/
def belowLow (s : PrioritySearchQueue α) (aItem : α) : Bool :=
  decide ((s.priority aItem).toInt < Priority.low.toInt)

/-! ## The deques -/

/-- Which deque: the recent one, or that of a priority. -/
abbrev QueueKey := Option Priority

def queue (s : PrioritySearchQueue α) : QueueKey → List α
  | none => s.recentSearchQueue
  | some p => s.prioSearchQueue p

def setQueue (s : PrioritySearchQueue α) : QueueKey → List α → PrioritySearchQueue α
  | none, l => { s with recentSearchQueue := l }
  | some p, l => { s with prioSearchQueue := Function.update s.prioSearchQueue p l }

/-- The deque an item is in, by its fields as they are now. -/
def getQueue (s : PrioritySearchQueue α) (aItem : α) : QueueKey :=
  if s.isRecent aItem then none else some (s.priority aItem)

/-! ## Search times -/

def getValidItemCountRecent (e : SearchEnv α) (s : PrioritySearchQueue α) : Nat :=
  s.recentSearchQueue.countP e.allowAutoSearch

/-- The weight of each priority in the draw. -/
def probabilities (e : SearchEnv α) (s : PrioritySearchQueue α) : List Nat :=
  searchPriorities.map fun p =>
    (p.toInt - 1).toNat * (s.prioSearchQueue p).countP e.allowAutoSearch

def getValidItemCountNormal (e : SearchEnv α) (s : PrioritySearchQueue α) : Nat :=
  (searchPriorities.map fun p => (s.prioSearchQueue p).countP e.allowAutoSearch).sum

/-- The tick of the next search for one of the two kinds: sooner the more items there are, and
    never postponed unless forced. -/
def nextSearch (itemCount perItems minInterval current aTick : Nat) (aForce : Bool) : Nat :=
  if itemCount = 0 then 0
  else
    let next := aTick + max (perItems / itemCount) minInterval * 60 * 1000
    if !aForce && decide (0 < current) then min current next else next

def recalculateSearchTimes (e : SearchEnv α) (s : PrioritySearchQueue α) (aRecent aForce : Bool)
    (aTick : Nat) : PrioritySearchQueue α :=
  if aRecent then
    { s with nextSearchRecent :=
        nextSearch (s.getValidItemCountRecent e) 15 e.minInterval s.nextSearchRecent aTick aForce }
  else
    { s with nextSearchNormal :=
        nextSearch (s.getValidItemCountNormal e) 60 e.minInterval s.nextSearchNormal aTick aForce }

/-! ## Adding and removing -/

variable [DecidableEq α]

def addSearchPrio (e : SearchEnv α) (s : PrioritySearchQueue α) (aItem : α) :
    PrioritySearchQueue α :=
  if s.belowLow aItem then s
  else
    let key := s.getQueue aItem
    (s.setQueue key (s.queue key ++ [aItem])).recalculateSearchTimes e (s.isRecent aItem) false
      e.now

def removeSearchPrio (s : PrioritySearchQueue α) (aItem : α) : PrioritySearchQueue α :=
  if s.belowLow aItem then s
  else
    let key := s.getQueue aItem
    s.setQueue key ((s.queue key).filter fun x => x ≠ aItem)

/-! ## Popping -/

def maybePopNormal (e : SearchEnv α) (s : PrioritySearchQueue α) :
    PrioritySearchQueue α × Option α :=
  if s.getValidItemCountNormal e = 0 then (s, none)
  else
    match searchPriorities[e.draw]? with
    | none => (s, none)
    | some p =>
      match (s.prioSearchQueue p).find? e.allowAutoSearch with
      | none => (s, none)
      | some item =>
        -- move to the back
        (s.setQueue (some p) ((s.prioSearchQueue p).eraseP e.allowAutoSearch ++ [item]), some item)

/-- One item of the loop of `maybePopRecent`: it comes off the front, its recent flag is read
    again, and it goes to the back or to the deque of its priority. -/
def rotateRecent (e : SearchEnv α) (s : PrioritySearchQueue α) (item : α) (rest : List α) :
    PrioritySearchQueue α :=
  let s :=
    { s with
      recentSearchQueue := rest
      isRecent := Function.update s.isRecent item (e.stillRecent item) }
  if e.stillRecent item then { s with recentSearchQueue := s.recentSearchQueue ++ [item] }
  else s.addSearchPrio e item

/-- The loop of `maybePopRecent`, at index `i`. The bound is the size the deque has now. -/
def popRecentFrom (e : SearchEnv α) : Nat → Nat → PrioritySearchQueue α →
    PrioritySearchQueue α × Option α
  | 0, _, s => (s, none)
  | fuel + 1, i, s =>
    match s.recentSearchQueue with
    | [] => (s, none)
    | item :: rest =>
      if i < s.recentSearchQueue.length then
        let s := s.rotateRecent e item rest
        if e.allowAutoSearch item then (s, some item) else popRecentFrom e fuel (i + 1) s
      else (s, none)

/-- The deque never grows in the loop, so its first size is enough rounds. -/
def maybePopRecent (e : SearchEnv α) (s : PrioritySearchQueue α) :
    PrioritySearchQueue α × Option α :=
  popRecentFrom e s.recentSearchQueue.length 0 s

def maybePopSearchItem (e : SearchEnv α) (s : PrioritySearchQueue α) (aTick : Nat)
    (aIgnoreNextTick : Bool) : PrioritySearchQueue α × Option α :=
  let normal :=
    if decide (s.nextSearchNormal ≤ aTick) || aIgnoreNextTick then s.maybePopNormal e else (s, none)
  match normal with
  | (s, some item) => (s.recalculateSearchTimes e false true aTick, some item)
  | (s, none) =>
    let recent :=
      if decide (s.nextSearchRecent ≤ aTick) || aIgnoreNextTick then s.maybePopRecent e
      else (s, none)
    match recent with
    | (s, some item) => (s.recalculateSearchTimes e true true aTick, some item)
    | (s, none) => (s, none)

/-! ## What the operations leave in the deques -/

section Deques

variable {α : Type*} {s : PrioritySearchQueue α} {e : SearchEnv α}

@[simp] theorem setQueue_queue_self (key : QueueKey) (l : List α) :
    (s.setQueue key l).queue key = l := by
  cases key with
  | none => rfl
  | some p => exact Function.update_self ..

theorem setQueue_queue_ne {k key : QueueKey} (l : List α) (hne : k ≠ key) :
    (s.setQueue key l).queue k = s.queue k := by
  cases key with
  | none =>
    cases k with
    | none => exact absurd rfl hne
    | some p => rfl
  | some p =>
    cases k with
    | none => rfl
    | some p' => exact Function.update_of_ne (fun h => hne (congrArg some h)) ..

@[simp] theorem setQueue_priority (key : QueueKey) (l : List α) :
    (s.setQueue key l).priority = s.priority := by cases key <;> rfl

@[simp] theorem setQueue_isRecent (key : QueueKey) (l : List α) :
    (s.setQueue key l).isRecent = s.isRecent := by cases key <;> rfl

@[simp] theorem recalculateSearchTimes_queue (r f : Bool) (t : Nat) :
    (s.recalculateSearchTimes e r f t).queue = s.queue := by
  funext key
  unfold recalculateSearchTimes
  cases r <;> cases key <;> rfl

@[simp] theorem recalculateSearchTimes_priority (r f : Bool) (t : Nat) :
    (s.recalculateSearchTimes e r f t).priority = s.priority := by
  unfold recalculateSearchTimes; cases r <;> rfl

@[simp] theorem recalculateSearchTimes_isRecent (r f : Bool) (t : Nat) :
    (s.recalculateSearchTimes e r f t).isRecent = s.isRecent := by
  unfold recalculateSearchTimes; cases r <;> rfl

end Deques

/-! ## Every item where it belongs, once -/

/-- The queue, and which items have been added and not removed since. -/
structure Tracked (α : Type*) where
  queue : PrioritySearchQueue α
  added : α → Bool

/-- The item has been added, at a priority that is searched for, and its fields name the deque. -/
def Tracked.Belongs {α : Type*} (t : Tracked α) (a : α) (key : QueueKey) : Prop :=
  t.added a ∧ ¬ t.queue.belowLow a ∧ t.queue.getQueue a = key

/-- The item is once in the deque if it belongs there, and not in it otherwise. -/
def Tracked.Placed (t : Tracked α) (key : QueueKey) (a : α) : Prop :=
  (t.Belongs a key → (t.queue.queue key).count a = 1) ∧
    (¬ t.Belongs a key → (t.queue.queue key).count a = 0)

/-- Every item is once in the deque where it belongs and in no other. -/
def Inv (t : Tracked α) : Prop := ∀ key a, t.Placed key a

/-- The claim of the class: an item that was added and not removed, at a priority that is
    searched for, is in exactly one deque, exactly once. -/
def ExactlyOnce (t : Tracked α) : Prop :=
  ∀ a, t.added a → ¬ t.queue.belowLow a →
    ∃ key, (t.queue.queue key).count a = 1 ∧ ∀ k, k ≠ key → a ∉ t.queue.queue k

theorem Inv.exactlyOnce {t : Tracked α} (h : Inv t) : ExactlyOnce t := by
  intro a ha hlow
  refine ⟨t.queue.getQueue a, (h _ a).1 ⟨ha, hlow, rfl⟩, fun k hk => ?_⟩
  exact List.count_eq_zero.mp ((h k a).2 fun hb => hk hb.2.2.symm)

/-- The deques hold items that belong there. -/
theorem Inv.belongs_of_mem {t : Tracked α} (h : Inv t) {key : QueueKey} {a : α}
    (ha : a ∈ t.queue.queue key) : t.Belongs a key := by
  by_contra hn
  exact absurd ha (List.count_eq_zero.mp ((h key a).2 hn))

/-! ### Each operation -/

section Fields

variable {α : Type*} {t t' : Tracked α} {s : PrioritySearchQueue α} {e : SearchEnv α} {a b : α}

theorem addSearchPrio_queue (hlow : ¬ s.belowLow a) (key : QueueKey) :
    (s.addSearchPrio e a).queue key =
      if key = s.getQueue a then s.queue key ++ [a] else s.queue key := by
  rw [addSearchPrio, if_neg hlow, recalculateSearchTimes_queue]
  split
  · rename_i h; rw [h, setQueue_queue_self]
  · rename_i h; rw [setQueue_queue_ne _ h]

theorem addSearchPrio_fields :
    (s.addSearchPrio e a).priority = s.priority ∧ (s.addSearchPrio e a).isRecent = s.isRecent := by
  unfold addSearchPrio; split <;> simp

/-- Where an item belongs depends on its fields and on whether it was added. -/
theorem belongs_congr (hp : t'.queue.priority b = t.queue.priority b)
    (hr : t'.queue.isRecent b = t.queue.isRecent b) (ha : t'.added b = t.added b)
    (key : QueueKey) : t'.Belongs b key ↔ t.Belongs b key := by
  simp only [Tracked.Belongs, belowLow, getQueue, hp, hr, ha]

end Fields

section Operations

variable {t : Tracked α} {s : PrioritySearchQueue α} {e : SearchEnv α} {a : α}

theorem removeSearchPrio_queue (hlow : ¬ s.belowLow a) (key : QueueKey) :
    (s.removeSearchPrio a).queue key =
      if key = s.getQueue a then (s.queue key).filter (fun x => x ≠ a) else s.queue key := by
  rw [removeSearchPrio, if_neg hlow]
  split
  · rename_i h; rw [h, setQueue_queue_self]
  · rename_i h; rw [setQueue_queue_ne _ h]

theorem removeSearchPrio_fields :
    (s.removeSearchPrio a).priority = s.priority ∧
      (s.removeSearchPrio a).isRecent = s.isRecent := by
  unfold removeSearchPrio; split <;> simp

/-- An operation that leaves an item where it is and as it is. -/
theorem Inv.at_of_same (h : Inv t) (t' : Tracked α) {b : α}
    (hp : t'.queue.priority b = t.queue.priority b)
    (hr : t'.queue.isRecent b = t.queue.isRecent b) (ha : t'.added b = t.added b) (key : QueueKey)
    (hc : (t'.queue.queue key).count b = (t.queue.queue key).count b) : t'.Placed key b := by
  rw [Tracked.Placed, belongs_congr hp hr ha, hc]
  exact h key b

/-- An operation that moves items within their deques. -/
theorem Inv.of_counts {s' : PrioritySearchQueue α} (h : Inv t)
    (hp : s'.priority = t.queue.priority) (hr : s'.isRecent = t.queue.isRecent)
    (hc : ∀ key b, (s'.queue key).count b = (t.queue.queue key).count b) :
    Inv { t with queue := s' } := fun key b =>
  h.at_of_same { t with queue := s' } (congrFun hp b) (congrFun hr b) rfl key (hc key b)

theorem Inv.addSearchPrio (h : Inv t)
    (hnew : ¬ t.queue.belowLow a → a ∉ t.queue.queue (t.queue.getQueue a)) :
    Inv ⟨t.queue.addSearchPrio e a, Function.update t.added a true⟩ := by
  intro key b
  generalize ht' : (⟨t.queue.addSearchPrio e a, Function.update t.added a true⟩ : Tracked α) = t'
  have hqueue : t'.queue = t.queue.addSearchPrio e a := by rw [← ht']
  have hadded : t'.added = Function.update t.added a true := by rw [← ht']
  obtain ⟨hp, hr⟩ := addSearchPrio_fields (s := t.queue) (e := e) (a := a)
  by_cases hlow : t.queue.belowLow a
  · -- nothing happens, and the item belongs nowhere
    have hq : t'.queue = t.queue := by rw [hqueue, PrioritySearchQueue.addSearchPrio, if_pos hlow]
    rcases eq_or_ne b a with rfl | hb
    · have hnot : ¬ t.Belongs b key := fun hbel => hbel.2.1 hlow
      have hnot' : ¬ t'.Belongs b key := fun hbel => hbel.2.1 (by rw [hq]; exact hlow)
      rw [Tracked.Placed, hq]
      exact ⟨fun hbel => absurd hbel hnot', fun _ => (h key b).2 hnot⟩
    · exact h.at_of_same t' (by rw [hq]) (by rw [hq])
        (by rw [hadded]; exact Function.update_of_ne hb ..) key (by rw [hq])
  · have hq : t'.queue.queue key =
        if key = t.queue.getQueue a then t.queue.queue key ++ [a] else t.queue.queue key := by
      rw [hqueue]; exact addSearchPrio_queue hlow key
    rcases eq_or_ne b a with rfl | hb
    · have hbelongs : t'.Belongs b key ↔ key = t.queue.getQueue b := by
        have hlow' : ¬ t'.queue.belowLow b := by rw [belowLow, hqueue, hp]; exact hlow
        have hget : t'.queue.getQueue b = t.queue.getQueue b := by
          rw [getQueue, hqueue, hp, hr, getQueue]
        rw [Tracked.Belongs, hget, hadded, Function.update_self]
        exact ⟨fun hbel => hbel.2.2.symm, fun hk => ⟨rfl, hlow', hk.symm⟩⟩
      rw [Tracked.Placed, hbelongs, hq]
      by_cases hkey : key = t.queue.getQueue b
      · have hzero := List.count_eq_zero.mpr (hnew hlow)
        rw [← hkey] at hzero
        rw [if_pos hkey, List.count_append, hzero]
        simp [hkey]
      · rw [if_neg hkey]
        exact ⟨fun hk => absurd hk hkey, fun _ => (h key b).2 fun hbel => hkey hbel.2.2.symm⟩
    · refine h.at_of_same t' (by rw [hqueue, hp]) (by rw [hqueue, hr])
        (by rw [hadded]; exact Function.update_of_ne hb ..) key ?_
      rw [hq]
      split
      · simp [List.count_append, Ne.symm hb]
      · rfl

theorem Inv.removeSearchPrio (h : Inv t) :
    Inv ⟨t.queue.removeSearchPrio a, Function.update t.added a false⟩ := by
  intro key b
  generalize ht' : (⟨t.queue.removeSearchPrio a, Function.update t.added a false⟩ : Tracked α) = t'
  have hqueue : t'.queue = t.queue.removeSearchPrio a := by rw [← ht']
  have hadded : t'.added = Function.update t.added a false := by rw [← ht']
  obtain ⟨hp, hr⟩ := removeSearchPrio_fields (s := t.queue) (a := a)
  have hqlow : t.queue.belowLow a → t'.queue = t.queue := by
    intro hlow
    rw [hqueue, PrioritySearchQueue.removeSearchPrio, if_pos hlow]
  have hqhigh : ¬ t.queue.belowLow a → t'.queue.queue key = if key = t.queue.getQueue a then
      (t.queue.queue key).filter (fun x => x ≠ a) else t.queue.queue key := by
    intro hlow
    rw [hqueue]; exact removeSearchPrio_queue hlow key
  rcases eq_or_ne b a with rfl | hb
  · -- it was where it belonged, and is taken out there
    have hnot : ¬ t'.Belongs b key := by
      intro hbel
      have hfalse := hbel.1
      rw [hadded, Function.update_self] at hfalse
      exact absurd hfalse (by simp)
    refine ⟨fun hbel => absurd hbel hnot, fun _ => ?_⟩
    by_cases hlow : t.queue.belowLow b
    · rw [hqlow hlow]
      exact (h key b).2 fun hbel => hbel.2.1 hlow
    · rw [hqhigh hlow]
      split
      · exact List.count_eq_zero.mpr (by simp)
      · rename_i hkey
        exact (h key b).2 fun hbel => hkey hbel.2.2.symm
  · refine h.at_of_same t' (by rw [hqueue, hp]) (by rw [hqueue, hr])
      (by rw [hadded]; exact Function.update_of_ne hb ..) key ?_
    by_cases hlow : t.queue.belowLow a
    · rw [hqlow hlow]
    · rw [hqhigh hlow]
      split
      · exact List.count_filter (by simpa using hb)
      · rfl

/-- The fields of an item that is not in the queue may change. -/
theorem Inv.of_not_added {s' : PrioritySearchQueue α} (h : Inv t) (ha : t.added a = false)
    (hq : s'.queue = t.queue.queue) (hp : ∀ b, b ≠ a → s'.priority b = t.queue.priority b)
    (hr : ∀ b, b ≠ a → s'.isRecent b = t.queue.isRecent b) : Inv { t with queue := s' } := by
  intro key b
  rcases eq_or_ne b a with rfl | hb
  · have hnot : ∀ (r : Tracked α), r.added = t.added → ¬ r.Belongs b key := by
      intro r hr hbel
      have hadded := hbel.1
      rw [hr, ha] at hadded
      exact absurd hadded (by simp)
    rw [Tracked.Placed]
    simp only [hq]
    exact ⟨fun hbel => absurd hbel (hnot _ rfl), fun _ => (h key b).2 (hnot t rfl)⟩
  · exact h.at_of_same { t with queue := s' } (hp b hb) (hr b hb) rfl key
      (congrArg (fun l => (l key).count b) hq)

/-- `removeSearchPrio`, `setPriority`, `addSearchPrio`: an item changes its priority. -/
theorem Inv.setPriority (h : Inv t) (p : Priority) :
    let s := t.queue.removeSearchPrio a
    Inv ⟨PrioritySearchQueue.addSearchPrio e { s with priority := Function.update s.priority a p }
      a,
      Function.update t.added a true⟩ := by
  intro s
  have h₁ : Inv ⟨s, Function.update t.added a false⟩ := h.removeSearchPrio
  have h₂ : Inv ⟨{ s with priority := Function.update s.priority a p },
      Function.update t.added a false⟩ :=
    h₁.of_not_added (Function.update_self ..) rfl (fun b hb => Function.update_of_ne hb ..)
      fun b _ => rfl
  have h₃ := h₂.addSearchPrio (e := e) (a := a) fun _ hmem =>
    absurd (h₂.belongs_of_mem hmem).1 (by simp)
  rwa [Function.update_idem] at h₃

/-! ### The pops -/

/-- A normal item that is popped moves to the back of its deque. -/
theorem maybePopNormal_inv (h : Inv t) : Inv { t with queue := (t.queue.maybePopNormal e).1 } := by
  unfold maybePopNormal
  split
  · exact h
  · split
    · exact h
    · rename_i p _
      split
      · exact h
      · rename_i item hfind
        refine h.of_counts (by simp) (by simp) fun key b => ?_
        rcases eq_or_ne key (some p) with rfl | hkey
        · rw [setQueue_queue_self]
          exact (find?_rotate_perm hfind).count_eq b
        · rw [setQueue_queue_ne _ hkey]

/-- A recent item that is passed goes to the back, or to the deque of its priority. -/
theorem rotateRecent_inv (h : Inv t) {item : α} {rest : List α}
    (hs : t.queue.recentSearchQueue = item :: rest) :
    Inv { t with queue := t.queue.rotateRecent e item rest } := by
  have hmem : item ∈ t.queue.queue none := by
    rw [queue, hs]; exact List.mem_cons_self
  obtain ⟨hadded, hlow, hget⟩ := h.belongs_of_mem hmem
  have hrecent : t.queue.isRecent item = true := by
    by_contra hn
    rw [getQueue, if_neg hn] at hget
    exact absurd hget (by simp)
  unfold rotateRecent
  cases hstill : e.stillRecent item with
  | true =>
    simp only [if_true]
    refine h.of_counts rfl ?_ fun key b => ?_
    · show Function.update t.queue.isRecent item true = t.queue.isRecent
      rw [← hrecent, Function.update_eq_self]
    · cases key with
      | none =>
        show (rest ++ [item]).count b = t.queue.recentSearchQueue.count b
        rw [hs]
        exact (List.perm_append_singleton item rest).count_eq b
      | some p => rfl
  | false =>
    simp only [Bool.false_eq_true, if_false]
    -- off the recent deque it is like an item that was never added, and is added again
    have hcount : (item :: rest).count item = 1 := by
      have hone := (h none item).1 ⟨hadded, hlow, hget⟩
      rwa [queue, hs] at hone
    let off : Tracked α := ⟨{ t.queue with
      recentSearchQueue := rest
      isRecent := Function.update t.queue.isRecent item false }, Function.update t.added item false⟩
    have hremoved : Inv off := by
      intro key b
      rcases eq_or_ne b item with rfl | hb
      · refine ⟨fun hbel => absurd hbel.1 (by simp [off]), fun _ => ?_⟩
        cases key with
        | none =>
          rw [List.count_cons_self] at hcount
          exact Nat.succ_injective hcount
        | some p =>
          refine (h (some p) b).2 fun hbel => ?_
          exact absurd (hget.symm.trans hbel.2.2) (by simp)
      · refine h.at_of_same off rfl (Function.update_of_ne hb ..)
          (Function.update_of_ne hb ..) key ?_
        cases key with
        | none =>
          show rest.count b = t.queue.recentSearchQueue.count b
          rw [hs, List.count_cons_of_ne (Ne.symm hb)]
        | some p => rfl
    have hback := hremoved.addSearchPrio (e := e) (a := item) fun _ hm =>
      absurd (hremoved.belongs_of_mem hm).1 (by simp [off])
    simp only [off] at hback
    rw [Function.update_idem, ← hadded, Function.update_eq_self] at hback
    exact hback

/-- The loop of `maybePopRecent` only rotates. -/
theorem popRecentFrom_inv (fuel i : Nat) (h : Inv t) :
    Inv { t with queue := (popRecentFrom e fuel i t.queue).1 } := by
  induction fuel generalizing i t with
  | zero => exact h
  | succ fuel ih =>
    unfold popRecentFrom
    split
    · exact h
    · rename_i item rest hs
      split
      · have hrot := rotateRecent_inv (e := e) h hs
        split
        · exact hrot
        · have hnext := ih (i + 1) hrot
          exact hnext
      · exact h

theorem maybePopSearchItem_inv (h : Inv t) (aTick : Nat) (aIgnoreNextTick : Bool) :
    Inv { t with queue := (t.queue.maybePopSearchItem e aTick aIgnoreNextTick).1 } := by
  have hticks : ∀ (s : PrioritySearchQueue α) (r : Bool), Inv ⟨s, t.added⟩ →
      Inv ⟨s.recalculateSearchTimes e r true aTick, t.added⟩ := fun s r hs =>
    hs.of_counts (by simp) (by simp) (by simp)
  have hnormal : Inv ⟨(if decide (t.queue.nextSearchNormal ≤ aTick) || aIgnoreNextTick then
      t.queue.maybePopNormal e else (t.queue, none)).1, t.added⟩ := by
    split
    · exact maybePopNormal_inv h
    · exact h
  unfold maybePopSearchItem
  simp only
  split
  · rename_i s item heq
    rw [heq] at hnormal
    exact hticks s false hnormal
  · rename_i s heq
    rw [heq] at hnormal
    have hrecent : Inv ⟨(if decide (s.nextSearchRecent ≤ aTick) || aIgnoreNextTick then
        s.maybePopRecent e else (s, none)).1, t.added⟩ := by
      split
      · exact popRecentFrom_inv (t := ⟨s, t.added⟩) _ 0 hnormal
      · exact hnormal
    split
    · rename_i s' item heq'
      rw [heq'] at hrecent
      exact hticks s' true hrecent
    · rename_i s' heq'
      rw [heq'] at hrecent
      exact hrecent

end Operations

/-! ## When a pop finds something -/

section Finding

variable {α : Type*} {s : PrioritySearchQueue α} {e : SearchEnv α}

/-- The draw gives an index of positive weight, as `discrete_distribution` does. -/
def DrawsPositive (e : SearchEnv α) (s : PrioritySearchQueue α) : Prop :=
  s.getValidItemCountNormal e ≠ 0 → 0 < (s.probabilities e).getD e.draw 0

/-- Some normal item may be searched for. -/
def NormalAllowed (e : SearchEnv α) (s : PrioritySearchQueue α) : Prop :=
  ∃ p ∈ searchPriorities, ∃ a ∈ s.prioSearchQueue p, e.allowAutoSearch a

/-- The loop arrives at the first recent item that may be searched for: no more of the items
    in front of it have stopped being recent than there are items behind it. -/
def RecentReached (e : SearchEnv α) (moved : Nat) (l : List α) : Prop :=
  ∃ front a back, l = front ++ a :: back ∧ (∀ x ∈ front, e.allowAutoSearch x = false) ∧
    e.allowAutoSearch a ∧ moved + front.countP (fun x => !e.stillRecent x) ≤ back.length

theorem getValidItemCountNormal_eq_zero_iff :
    s.getValidItemCountNormal e = 0 ↔ ¬ NormalAllowed e s := by
  simp only [getValidItemCountNormal, NormalAllowed, List.sum_eq_zero_iff, List.forall_mem_map,
    List.countP_eq_zero]
  simp only [not_exists, not_and]

theorem maybePopNormal_of_none (h : ¬ NormalAllowed e s) : s.maybePopNormal e = (s, none) := by
  rw [maybePopNormal, if_pos (getValidItemCountNormal_eq_zero_iff.mpr h)]

/-- The weighted draw names a priority that has an item to search for. -/
theorem maybePopNormal_isSome (h : NormalAllowed e s) (hdraw : DrawsPositive e s) :
    (s.maybePopNormal e).2.isSome := by
  have hne : s.getValidItemCountNormal e ≠ 0 := fun h0 =>
    getValidItemCountNormal_eq_zero_iff.mp h0 h
  have hweight := hdraw hne
  rw [maybePopNormal, if_neg hne]
  rw [probabilities, List.getD_eq_getElem?_getD, List.getElem?_map] at hweight
  cases hp : searchPriorities[e.draw]? with
  | none => rw [hp] at hweight; exact absurd hweight (by simp)
  | some p =>
    rw [hp] at hweight
    have hcount : 0 < (s.prioSearchQueue p).countP e.allowAutoSearch :=
      Nat.pos_of_mul_pos_left hweight
    obtain ⟨a, ha, hallow⟩ := List.countP_pos_iff.mp hcount
    simp only
    cases hfind : (s.prioSearchQueue p).find? e.allowAutoSearch with
    | none => exact absurd hallow (by simpa using List.find?_eq_none.mp hfind a ha)
    | some item => rfl

theorem rotateRecent_recent [DecidableEq α] (item : α) (rest : List α) :
    (s.rotateRecent e item rest).recentSearchQueue =
      if e.stillRecent item then rest ++ [item] else rest := by
  unfold rotateRecent
  cases e.stillRecent item with
  | true => rfl
  | false =>
    simp only [Bool.false_eq_true, if_false]
    generalize hoff : ({ s with
      recentSearchQueue := rest
      isRecent := Function.update s.isRecent item false } : PrioritySearchQueue α) = off
    have hget : off.getQueue item ≠ none := by
      rw [getQueue, ← hoff]; simp
    have hrest : off.queue none = rest := by rw [← hoff]; rfl
    show (off.addSearchPrio e item).queue none = rest
    by_cases hlow : off.belowLow item
    · rw [addSearchPrio, if_pos hlow, hrest]
    · rw [addSearchPrio_queue hlow, if_neg hget.symm, hrest]

/-- **How far the loop gets.** With `todo` still to be passed and `kept` already put back, after
    `moved` items have left: the bound is `todo.length + kept.length`, the index
    `kept.length + moved`. -/
theorem popRecentFrom_isSome_iff [DecidableEq α] (todo kept : List α) (moved fuel : Nat)
    (hs : s.recentSearchQueue = todo ++ kept) (hfuel : todo.length ≤ fuel) :
    (popRecentFrom e fuel (kept.length + moved) s).2.isSome ↔ RecentReached e moved todo := by
  induction todo generalizing kept moved fuel s with
  | nil =>
    refine iff_of_false ?_ ?_
    · cases fuel with
      | zero => simp [popRecentFrom]
      | succ fuel =>
        unfold popRecentFrom
        split
        · simp
        · rename_i item rest heq
          rw [heq, List.nil_append] at hs
          have hlen : ¬ kept.length + moved < s.recentSearchQueue.length := by
            rw [heq, hs]; omega
          rw [if_neg hlen]
          simp
    · rintro ⟨front, a, back, h, -⟩
      exact absurd h (by simp)
  | cons x todo ih =>
    obtain ⟨fuel, rfl⟩ : ∃ f, fuel = f + 1 := ⟨fuel - 1, by simp at hfuel; omega⟩
    have hstep : popRecentFrom e (fuel + 1) (kept.length + moved) s =
        if kept.length + moved < s.recentSearchQueue.length then
          if e.allowAutoSearch x then (s.rotateRecent e x (todo ++ kept), some x)
          else popRecentFrom e fuel (kept.length + moved + 1) (s.rotateRecent e x (todo ++ kept))
        else (s, none) := by
      rw [popRecentFrom]
      split
      · rename_i heq; rw [heq] at hs; exact absurd hs (by simp)
      · rename_i item rest heq
        rw [heq, List.cons_append, List.cons.injEq] at hs
        obtain ⟨rfl, rfl⟩ := hs
        rfl
    rw [hstep]
    have hlen : s.recentSearchQueue.length = todo.length + 1 + kept.length := by
      rw [hs]; simp; omega
    by_cases hbound : kept.length + moved < s.recentSearchQueue.length
    · rw [if_pos hbound]
      cases hallow : e.allowAutoSearch x with
      | true =>
        refine iff_of_true rfl ⟨[], x, todo, rfl, by simp, hallow, ?_⟩
        simp only [List.countP_nil]
        omega
      | false =>
        -- the item is passed: it is put back, or it leaves and is one item less to come
        have hpassed : RecentReached e moved (x :: todo) ↔
            RecentReached e (moved + if e.stillRecent x then 0 else 1) todo := by
          constructor
          · rintro ⟨front, a, back, h, hfront, ha, hle⟩
            cases front with
            | nil =>
              rw [List.nil_append, List.cons.injEq] at h
              rw [← h.1, hallow] at ha
              exact absurd ha (by simp)
            | cons y front =>
              rw [List.cons_append, List.cons.injEq] at h
              obtain ⟨rfl, rfl⟩ := h
              refine ⟨front, a, back, rfl, fun z hz => hfront z (List.mem_cons_of_mem _ hz), ha, ?_⟩
              rw [List.countP_cons] at hle
              cases hst : e.stillRecent x <;> simp [hst] at hle ⊢ <;> omega
          · rintro ⟨front, a, back, rfl, hfront, ha, hle⟩
            refine ⟨x :: front, a, back, rfl, ?_, ha, ?_⟩
            · intro z hz
              rcases List.mem_cons.mp hz with rfl | hz
              · exact hallow
              · exact hfront z hz
            · rw [List.countP_cons]
              cases hst : e.stillRecent x <;> simp [hst] at hle ⊢ <;> omega
        simp only [Bool.false_eq_true, if_false]
        rw [hpassed]
        have hrot := rotateRecent_recent (s := s) (e := e) x (todo ++ kept)
        have hfuel' : todo.length ≤ fuel := by simpa using hfuel
        cases hst : e.stillRecent x with
        | true =>
          rw [hst, if_pos rfl, List.append_assoc] at hrot
          have hih := ih (kept ++ [x]) moved fuel hrot hfuel'
          rw [List.length_append, List.length_singleton] at hih
          have hidx : kept.length + moved + 1 = kept.length + 1 + moved := by omega
          rw [if_pos rfl, Nat.add_zero, hidx]
          exact hih
        | false =>
          rw [hst, if_neg (by simp)] at hrot
          rw [if_neg (by simp)]
          exact ih kept (moved + 1) fuel hrot hfuel'
    · rw [if_neg hbound]
      refine iff_of_false (by simp) ?_
      rintro ⟨front, a, back, h, -, -, hle⟩
      have hl := congrArg List.length h
      simp only [List.length_cons, List.length_append] at hl
      omega

/-- Both timers are due, or they are to be ignored. -/
def BothDue (s : PrioritySearchQueue α) (aTick : Nat) (aIgnoreNextTick : Bool) : Prop :=
  (s.nextSearchNormal ≤ aTick ∧ s.nextSearchRecent ≤ aTick) ∨ aIgnoreNextTick

theorem maybePopSearchItem_isSome_iff [DecidableEq α] {aTick : Nat} {aIgnoreNextTick : Bool}
    (hdue : BothDue s aTick aIgnoreNextTick) (hdraw : DrawsPositive e s) :
    (s.maybePopSearchItem e aTick aIgnoreNextTick).2.isSome ↔
      NormalAllowed e s ∨ RecentReached e 0 s.recentSearchQueue := by
  have hn : (decide (s.nextSearchNormal ≤ aTick) || aIgnoreNextTick) = true := by
    rcases hdue with ⟨h, -⟩ | h <;> simp [h]
  have hr : (decide (s.nextSearchRecent ≤ aTick) || aIgnoreNextTick) = true := by
    rcases hdue with ⟨-, h⟩ | h <;> simp [h]
  rw [maybePopSearchItem]
  simp only [hn, if_true]
  by_cases hnormal : NormalAllowed e s
  · have hsome := maybePopNormal_isSome hnormal hdraw
    refine iff_of_true ?_ (Or.inl hnormal)
    rcases hpop : s.maybePopNormal e with ⟨s', _ | item⟩
    · rw [hpop] at hsome; exact absurd hsome (by simp)
    · rfl
  · rw [maybePopNormal_of_none hnormal, or_iff_right hnormal]
    simp only [hr, if_true]
    have hloop := popRecentFrom_isSome_iff (s := s) (e := e) s.recentSearchQueue [] 0
      s.recentSearchQueue.length (by simp) le_rfl
    rw [← hloop]
    show (match s.maybePopRecent e with
      | (s, some item) => (s.recalculateSearchTimes e true true aTick, some item)
      | (s, none) => (s, none)).2.isSome = true ↔ (s.maybePopRecent e).2.isSome = true
    rcases s.maybePopRecent e with ⟨s', _ | item⟩ <;> rfl

end Finding

/-! ## The runs -/

/-- The operations, with what the world answers while each runs. -/
inductive SearchOp (α : Type*)
  | addSearchPrio (e : SearchEnv α) (aItem : α)
  | removeSearchPrio (aItem : α)
  /-- `removeSearchPrio(aItem); aItem->setPriority(p); addSearchPrio(aItem);` -/
  | setPriority (e : SearchEnv α) (aItem : α) (p : Priority)
  | maybePopSearchItem (e : SearchEnv α) (aTick : Nat) (aIgnoreNextTick : Bool)
  | recalculateSearchTimes (e : SearchEnv α) (aRecent aForce : Bool) (aTick : Nat)

def searchNext (t : Tracked α) : SearchOp α → Tracked α
  | .addSearchPrio e a => ⟨t.queue.addSearchPrio e a, Function.update t.added a true⟩
  | .removeSearchPrio a => ⟨t.queue.removeSearchPrio a, Function.update t.added a false⟩
  | .setPriority e a p =>
    let s := t.queue.removeSearchPrio a
    ⟨addSearchPrio e { s with priority := Function.update s.priority a p } a,
      Function.update t.added a true⟩
  | .maybePopSearchItem e aTick aIgnoreNextTick =>
    { t with queue := (t.queue.maybePopSearchItem e aTick aIgnoreNextTick).1 }
  | .recalculateSearchTimes e aRecent aForce aTick =>
    { t with queue := t.queue.recalculateSearchTimes e aRecent aForce aTick }

def searchAllowed (t : Tracked α) : SearchOp α → Prop
  | .maybePopSearchItem e _ _ => DrawsPositive e t.queue
  | _ => True

/-- The search queue and its operations. -/
def searching : System (Tracked α) (SearchOp α) := ⟨searchNext, searchAllowed⟩

/-- An item is not added to a deque it is in already. -/
def AddsNew (t : Tracked α) : SearchOp α → Prop
  | .addSearchPrio _ a => ¬ t.queue.belowLow a → a ∉ t.queue.queue (t.queue.getQueue a)
  | _ => True

/-- Empty deques, and items with any fields. -/
structure Start (t : Tracked α) : Prop where
  queue : ∀ key, t.queue.queue key = []
  added : ∀ a, t.added a = false

/-- **One step.** Every operation keeps every item where it belongs, once. -/
theorem preserves_inv : ((searching (α := α)).restrict AddsNew).Preserves Inv := by
  intro t o h ho
  obtain ⟨_, hnew⟩ := ho
  cases o with
  | addSearchPrio e a => exact h.addSearchPrio hnew
  | removeSearchPrio a => exact h.removeSearchPrio
  | setPriority e a p => exact h.setPriority p
  | maybePopSearchItem e aTick aIgnoreNextTick =>
    exact maybePopSearchItem_inv h aTick aIgnoreNextTick
  | recalculateSearchTimes e aRecent aForce aTick =>
    exact h.of_counts (by simp) (by simp) (by simp)

/-- A pop finds an item if there is one in any deque that may be searched for. -/
def Finds (t : Tracked α) (e : SearchEnv α) (aTick : Nat) (aIgnoreNextTick : Bool) : Prop :=
  (∃ key, ∃ a ∈ t.queue.queue key, e.allowAutoSearch a) →
    (t.queue.maybePopSearchItem e aTick aIgnoreNextTick).2.isSome

/-- A normal item may be searched for, or no recent one may, or the loop gets to the first recent
    item that may before its shrinking bound ends it. -/
def Reachable (t : Tracked α) (e : SearchEnv α) : Prop :=
  NormalAllowed e t.queue ∨ (∀ a ∈ t.queue.recentSearchQueue, e.allowAutoSearch a = false) ∨
    RecentReached e 0 t.queue.recentSearchQueue

/-- What is in a deque of a priority is of a priority that is searched for. -/
theorem Inv.normalAllowed {t : Tracked α} (h : Inv t) {e : SearchEnv α} {p : Priority} {a : α}
    (ha : a ∈ t.queue.prioSearchQueue p) (hallow : e.allowAutoSearch a) :
    NormalAllowed e t.queue := by
  have hbelongs : t.Belongs a (some p) := h.belongs_of_mem ha
  obtain ⟨_, hlow, hget⟩ := hbelongs
  have hp : t.queue.priority a = p := by
    unfold getQueue at hget
    split at hget
    · exact absurd hget (by simp)
    · exact Option.some.inj hget
  rw [belowLow, hp] at hlow
  refine ⟨p, ?_, a, ha, hallow⟩
  cases p <;> simp [searchPriorities, Priority.toInt] at hlow ⊢

theorem Inv.finds_iff {t : Tracked α} (h : Inv t) {e : SearchEnv α} {aTick : Nat}
    {aIgnoreNextTick : Bool} (hdue : BothDue t.queue aTick aIgnoreNextTick)
    (hdraw : DrawsPositive e t.queue) : Finds t e aTick aIgnoreNextTick ↔ Reachable t e := by
  rw [Finds, maybePopSearchItem_isSome_iff hdue hdraw, Reachable]
  constructor
  · intro hf
    by_cases hany : ∃ a ∈ t.queue.recentSearchQueue, e.allowAutoSearch a
    · rcases hf ⟨none, hany⟩ with hn | hr
      · exact Or.inl hn
      · exact Or.inr (Or.inr hr)
    · refine Or.inr (Or.inl fun a ha => ?_)
      exact Bool.eq_false_iff.mpr fun hallow => hany ⟨a, ha, hallow⟩
  · rintro (hn | hno | hr) ⟨key, a, ha, hallow⟩
    · exact Or.inl hn
    · cases key with
      | none => exact absurd hallow (by simp [hno a ha])
      | some p => exact Or.inl (h.normalAllowed ha hallow)
    · exact Or.inr hr

theorem Start.inv {t : Tracked α} (h : Start t) : Inv t := by
  intro key a
  refine ⟨fun hb => ?_, fun _ => by rw [h.queue key]; rfl⟩
  have hadded := hb.1
  rw [h.added a] at hadded
  exact absurd hadded (by simp)

/-- **Nothing lost, nothing doubled, and when something is found.** In every run that adds no
    item to a deque it is in already, every item is where it belongs exactly once, and a pop with
    both timers due finds what may be searched for exactly when the loop over the recent items
    can get there. -/
theorem searching_of_adds_new {t : Tracked α} (h : Reaches (searching.restrict AddsNew) Start t) :
    ExactlyOnce t ∧ ∀ e aTick aIgnoreNextTick, BothDue t.queue aTick aIgnoreNextTick →
      DrawsPositive e t.queue → (Finds t e aTick aIgnoreNextTick ↔ Reachable t e) := by
  have hinv : Inv t := h.invariant (fun _ hs => hs.inv) preserves_inv
  exact ⟨hinv.exactlyOnce, fun e aTick aIgnoreNextTick hdue hdraw => hinv.finds_iff hdue hdraw⟩

/-! ## Two recent items, the first one expired -/

/-- Only item 1 is still recent, and may be searched for. -/
def sampleEnv : SearchEnv Nat :=
  { allowAutoSearch := fun a => a == 1, stillRecent := fun a => a == 1, now := 0
    minInterval := 10, draw := 0 }

/-- Recent items, none of them added. -/
def sample : Tracked Nat :=
  { queue :=
      { prioSearchQueue := fun _ => [], recentSearchQueue := [], nextSearchNormal := 0
        nextSearchRecent := 0, priority := fun _ => .normal, isRecent := fun _ => true }
    added := fun _ => false }

theorem sample_start : Start sample where
  queue key := by cases key <;> rfl
  added _ := rfl

/-- Items 0 and 1 are added. -/
def sampleAdded : Tracked Nat :=
  searching.run sample [.addSearchPrio sampleEnv 0, .addSearchPrio sampleEnv 1]

theorem sampleAdded_reached : Reaches (searching.restrict AddsNew) Start sampleAdded :=
  Reaches.run (Reaches.start sample_start)
    ⟨⟨trivial, fun _ => by decide⟩, ⟨trivial, fun _ => by decide⟩, trivial⟩

theorem searching_sampleAdded :
    ExactlyOnce sampleAdded ∧ ∀ e aTick aIgnoreNextTick,
      BothDue sampleAdded.queue aTick aIgnoreNextTick → DrawsPositive e sampleAdded.queue →
      (Finds sampleAdded e aTick aIgnoreNextTick ↔ Reachable sampleAdded e) :=
  searching_of_adds_new sampleAdded_reached

/-- Item 0 leaves the recent deque, and the loop ends before it gets to item 1. -/
theorem searching_misses : ¬ ∀ t : Tracked Nat, Reaches searching Start t →
    ExactlyOnce t ∧ ∀ e aTick aIgnoreNextTick, BothDue t.queue aTick aIgnoreNextTick →
      DrawsPositive e t.queue → Finds t e aTick aIgnoreNextTick := by
  intro h
  have hdraw : DrawsPositive sampleEnv sampleAdded.queue := fun hne => absurd rfl hne
  have hfinds :=
    (h sampleAdded sampleAdded_reached.of_restrict).2 sampleEnv 0 true (Or.inr rfl) hdraw
    ⟨none, 1, by decide, rfl⟩
  exact absurd hfinds (by decide)

end PrioritySearchQueue

end Airdcpp
