import Airdcpp.Core.Types
import Airdcpp.Lib.ListOps
import Airdcpp.Lib.Runs

/-!
# `Search/SearchQueue` — the searches that wait for their hub

`SearchQueue`: a deque of searches by priority, from which the hub's timer takes the front one when
enough time has passed since the last. Ticks are the milliseconds the program has run.

The queue is compared with what it is for: `pending` are the searches in the order they came in,
without those that were taken, replaced, cancelled or cleared. The deque is `pending` sorted by
priority, and stably (`InOrder`), whatever the callers do.
-/

namespace Airdcpp

/-- `CallerPtr`, an address. -/
abbrev CallerPtr := Nat

/-- A queued `Search`; `ptr` is where it lies. -/
structure Search where
  ptr : Nat
  priority : Priority
  owner : Option CallerPtr
deriving DecidableEq, Repr

namespace Search

/-- `PrioritySort` -/
def prioritySort (left right : Search) : Bool :=
  decide (right.priority.toInt < left.priority.toInt)

/-- `CompareOwner(aOwner)`; without an owner to compare to, every search fits. -/
def compareOwner (aOwner : Option CallerPtr) (p : Search) : Bool :=
  aOwner.isNone || p.owner == aOwner

end Search

structure SearchQueue where
  minInterval : Int := 5000
  lastSearchTick : Nat
  searchQueue : List Search := []
deriving DecidableEq, Repr

namespace SearchQueue

def getInterval (q : SearchQueue) (aPriority : Priority) : Int :=
  let ret := match aPriority with
    | .highest | .high => 5000
    | .normal => 10000
    | .low => 15000
    | _ => 20000
  max ret q.minInterval

def clear (q : SearchQueue) : SearchQueue := { q with searchQueue := [] }

/-- How long the front search has to wait at the tick `now`. -/
def getCurrentQueueTime (q : SearchQueue) (now : Nat) : Nat :=
  match q.searchQueue with
  | [] => 0
  | front :: _ =>
    let nextAllowedSearch := q.lastSearchTick + (q.getInterval front.priority).toNat
    if now < nextAllowedSearch then nextAllowedSearch - now else 0

/-- The loop of `getQueueTime` over the rest of the deque. -/
def queueTimeFrom (q : SearchQueue) (now : Nat) (aCompareF : Search → Bool) :
    (first : Bool) → (queueTime : Nat) → List Search → Option Nat
  | _, _, [] => none
  | first, queueTime, i :: rest =>
    let queueTime := queueTime +
      if first then q.getCurrentQueueTime now else (q.getInterval i.priority).toNat
    if aCompareF i then some queueTime else queueTimeFrom q now aCompareF false queueTime rest

def getQueueTime (q : SearchQueue) (now : Nat) (aCompareF : Search → Bool) : Option Nat :=
  queueTimeFrom q now aCompareF true 0 q.searchQueue

/-- The first search that fits is erased. -/
def cancelSearch (q : SearchQueue) (aOwner : Option CallerPtr) : SearchQueue × Bool :=
  ({ q with searchQueue := q.searchQueue.eraseP (Search.compareOwner aOwner) },
    q.searchQueue.any (Search.compareOwner aOwner))

/-- The insertion at the upper bound. -/
def insertSearch (q : SearchQueue) (aSearch : Search) : SearchQueue :=
  { q with
    searchQueue :=
      Lib.insertAt (Lib.upperBound Search.prioritySort aSearch q.searchQueue) aSearch
        q.searchQueue }

/-- The queue after `add`, and the queue time it returns. -/
def add (q : SearchQueue) (aSearch : Search) (now : Nat) : SearchQueue × Option Nat :=
  let q := if aSearch.owner.isSome then (q.cancelSearch aSearch.owner).1 else q
  let q := q.insertSearch aSearch
  (q, q.getQueueTime now (· == aSearch))

/-- The clock is read twice: before the front search is allowed, and when it has been taken. -/
def maybePop (q : SearchQueue) (now later : Nat) : SearchQueue × Option Search :=
  if 0 < q.getCurrentQueueTime now then (q, none)
  else
    match q.searchQueue with
    | [] => (q, none)
    | s :: rest => ({ q with lastSearchTick := later, searchQueue := rest }, some s)

/-! ## The callers -/

/-- A search that has been taken, and when. -/
structure Popped where
  search : Search
  tick : Nat
deriving DecidableEq, Repr

inductive Op
  | add (aSearch : Search) (now : Nat)
  | cancelSearch (aOwner : Option CallerPtr)
  | clear
  | maybePop (now later : Nat)
deriving DecidableEq, Repr

/-- The queue, and what became of the searches that were added: each list in the order in which it
    happened. -/
structure Record where
  queue : SearchQueue
  /-- the last tick anyone has read -/
  tick : Nat
  added : List Search := []
  pending : List Search := []
  popped : List Popped := []
  /-- replaced, cancelled and cleared searches -/
  dropped : List Search := []
deriving DecidableEq, Repr

/-- Cancelling takes the search that is found out of those that are pending. -/
def Record.cancel (w : Record) (aOwner : Option CallerPtr) : Record :=
  match w.queue.searchQueue.find? (Search.compareOwner aOwner) with
  | none => { w with queue := (w.queue.cancelSearch aOwner).1 }
  | some s =>
    { w with
      queue := (w.queue.cancelSearch aOwner).1
      pending := w.pending.erase s
      dropped := w.dropped ++ [s] }

def Record.next (w : Record) : Op → Record
  | .add aSearch now =>
    let w := if aSearch.owner.isSome then w.cancel aSearch.owner else w
    { w with
      queue := w.queue.insertSearch aSearch
      tick := now
      added := w.added ++ [aSearch]
      pending := w.pending ++ [aSearch] }
  | .cancelSearch aOwner => w.cancel aOwner
  | .clear => { w with queue := w.queue.clear, pending := [], dropped := w.dropped ++ w.pending }
  | .maybePop now later =>
    match w.queue.maybePop now later with
    | (queue, none) => { w with queue := queue, tick := later }
    | (queue, some s) =>
      { w with
        queue := queue
        tick := later
        pending := w.pending.erase s
        popped := w.popped ++ [⟨s, later⟩] }

/-- The ticks of an operation come after those of the operations before. -/
def Op.TicksFrom (tick : Nat) : Op → Prop
  | .add _ now => tick ≤ now
  | .maybePop now later => tick ≤ now ∧ now ≤ later
  | _ => True

/-- The queue under its callers. -/
def system : Lib.System Record Op where
  next := Record.next
  allowed w o := o.TicksFrom w.tick

/-- A new queue. -/
def Initial (w : Record) : Prop :=
  ∃ minInterval tick, w = { queue := { minInterval := minInterval, lastSearchTick := tick }, tick }

/-- What an operation does to the queue alone. -/
def Op.apply (q : SearchQueue) : Op → SearchQueue
  | .add aSearch now => (q.add aSearch now).1
  | .cancelSearch aOwner => (q.cancelSearch aOwner).1
  | .clear => q.clear
  | .maybePop now later => (q.maybePop now later).1

theorem cancel_queue (w : Record) (aOwner : Option CallerPtr) :
    (w.cancel aOwner).queue = (w.queue.cancelSearch aOwner).1 := by
  unfold Record.cancel
  split <;> rfl

/-- The record follows the queue and does not disturb it. -/
theorem next_queue (w : Record) (o : Op) : (w.next o).queue = o.apply w.queue := by
  cases o with
  | add aSearch now =>
    simp only [Record.next, Op.apply, add]
    split
    · rw [cancel_queue]
    · rfl
  | cancelSearch aOwner => exact cancel_queue w aOwner
  | clear => rfl
  | maybePop now later =>
    simp only [Record.next, Op.apply]
    split
    · next h => rw [h]
    · next h => rw [h]

/-! ## The order of the deque -/

/-- `queue` is `pending` by priority; equal priorities keep their order. -/
structure InOrder (queue pending : List Search) : Prop where
  sorted : queue.Pairwise fun a b => b.priority.toInt ≤ a.priority.toInt
  stable : ∀ p, queue.filter (·.priority == p) = pending.filter (·.priority == p)

theorem InOrder.perm {queue pending : List Search} (h : InOrder queue pending) :
    queue.Perm pending := by
  rw [List.perm_iff_count]
  intro s
  have hs := congrArg (List.count s) (h.stable s.priority)
  rwa [List.count_filter (p := fun x : Search => x.priority == s.priority) (beq_self_eq_true _),
    List.count_filter (p := fun x : Search => x.priority == s.priority) (beq_self_eq_true _)] at hs

/-- Sorted insertion puts a search behind those of its priority. -/
theorem InOrder.insert {queue pending : List Search} (h : InOrder queue pending) (s : Search) :
    InOrder (Lib.insertAt (Lib.upperBound Search.prioritySort s queue) s queue)
      (pending ++ [s]) := by
  have hsorted : queue.Pairwise fun x y => ¬ Search.prioritySort y x := by
    refine h.sorted.imp ?_
    intro a b hab
    simp only [Search.prioritySort, decide_eq_true_eq]
    omega
  have htrans : ∀ x y, Search.prioritySort s x → ¬ Search.prioritySort y x →
      Search.prioritySort s y := by
    intro x y hx hy
    simp only [Search.prioritySort, decide_eq_true_eq] at hx hy ⊢
    omega
  obtain ⟨l₁, l₂, rfl, hinsert, hlow, hhigh⟩ := Lib.insertAt_upperBound_split htrans hsorted
  simp only [Search.prioritySort, decide_eq_true_eq] at hlow hhigh
  obtain ⟨hl₁, hl₂, hl⟩ := List.pairwise_append.mp h.sorted
  rw [hinsert]
  constructor
  · refine List.pairwise_append.mpr ⟨hl₁, List.pairwise_cons.mpr ⟨?_, hl₂⟩, ?_⟩
    · intro y hy
      exact Int.le_of_lt (hhigh y hy)
    · intro x hx y hy
      rcases List.mem_cons.mp hy with rfl | hy
      · exact Int.not_lt.mp (hlow x hx)
      · exact hl x hx y hy
  · intro p
    have hstable := h.stable p
    rw [List.filter_append] at hstable ⊢
    rw [List.filter_append, ← hstable]
    by_cases hp : s.priority = p
    · -- what stands behind `s` has a lower priority
      have hnone : l₂.filter (·.priority == p) = [] := by
        rw [List.filter_eq_nil_iff]
        intro x hx
        have hlt := hhigh x hx
        rw [beq_iff_eq]
        rintro rfl
        rw [hp] at hlt
        exact absurd hlt (Int.lt_irrefl _)
      rw [List.filter_cons_of_pos (by simpa using hp), hnone]
      simp [hp]
    · rw [List.filter_cons_of_neg (by simpa using hp)]
      simp [hp]

theorem InOrder.erase {queue pending : List Search} (h : InOrder queue pending) (s : Search) :
    InOrder (queue.erase s) (pending.erase s) := by
  refine ⟨h.sorted.sublist List.erase_sublist, ?_⟩
  intro p
  rw [← List.erase_filter, ← List.erase_filter, h.stable p]

/-! ## What holds of the record -/

/-- Two searches of one owner. -/
def SameOwner (a b : Search) : Prop := a.owner.isSome ∧ a.owner = b.owner

structure Fair (w : Record) : Prop where
  /-- highest priority first, then first in first out -/
  order : InOrder w.queue.searchQueue w.pending
  /-- at most one search for each owner … -/
  owners : w.queue.searchQueue.Pairwise fun a b => ¬ SameOwner a b
  /-- … which is the last one it added -/
  latest : ∀ s ∈ w.queue.searchQueue, s.owner.isSome →
    (w.added.filter (·.owner == s.owner)).getLast? = some s
  /-- every added search is in one place -/
  conserved : w.added.Perm (w.queue.searchQueue ++ (w.popped.map Popped.search ++ w.dropped))
  /-- searches are taken at intervals -/
  spaced : w.popped.IsChain fun a b =>
    a.tick + (w.queue.getInterval b.search.priority).toNat ≤ b.tick
  last : ∀ p ∈ w.popped.getLast?, w.queue.lastSearchTick = p.tick

theorem fair_initial {w : Record} (h : Initial w) : Fair w := by
  obtain ⟨minInterval, tick, rfl⟩ := h
  exact ⟨⟨.nil, fun _ => rfl⟩, .nil, by simp, .nil, .nil, by simp⟩

theorem sameOwner_symm {a b : Search} (h : SameOwner a b) : SameOwner b a :=
  ⟨h.2 ▸ h.1, h.2.symm⟩

/-- A search leaves the deque. -/
theorem Fair.remove {w : Record} (h : Fair w) {s : Search} (hs : s ∈ w.queue.searchQueue) :
    InOrder (w.queue.searchQueue.erase s) (w.pending.erase s) ∧
      (w.queue.searchQueue.erase s).Pairwise (fun a b => ¬ SameOwner a b) ∧
      (∀ x ∈ w.queue.searchQueue.erase s, x.owner.isSome →
        (w.added.filter (·.owner == x.owner)).getLast? = some x) ∧
      w.added.Perm (w.queue.searchQueue.erase s ++ s ::
        (w.popped.map Popped.search ++ w.dropped)) :=
    by
  refine ⟨h.order.erase s, h.owners.sublist List.erase_sublist, ?_, ?_⟩
  · intro x hx
    exact h.latest x (List.mem_of_mem_erase hx)
  · refine h.conserved.trans ?_
    calc (w.queue.searchQueue ++ (w.popped.map Popped.search ++ w.dropped)).Perm
          (s :: w.queue.searchQueue.erase s ++ (w.popped.map Popped.search ++ w.dropped)) :=
            (List.perm_cons_erase hs).append_right _
      _ |>.Perm (w.queue.searchQueue.erase s ++ s :: (w.popped.map Popped.search ++ w.dropped)) :=
            List.perm_middle.symm

theorem Fair.cancel {w : Record} (h : Fair w) (aOwner : Option CallerPtr) :
    Fair (w.cancel aOwner) := by
  unfold Record.cancel
  cases hfind : w.queue.searchQueue.find? (Search.compareOwner aOwner) with
  | none =>
    have hnone := List.find?_eq_none.mp hfind
    have hsame : (w.queue.cancelSearch aOwner).1 = w.queue := by
      unfold cancelSearch
      rw [List.eraseP_of_forall_not hnone]
    simp only [hsame]
    exact h
  | some s =>
    have herase : (w.queue.cancelSearch aOwner).1.searchQueue = w.queue.searchQueue.erase s :=
      Lib.eraseP_eq_erase_of_find? hfind
    obtain ⟨horder, howners, hlatest, hconserved⟩ := h.remove (List.mem_of_find?_eq_some hfind)
    constructor
    · simpa only [herase] using horder
    · simpa only [herase] using howners
    · simpa only [herase] using hlatest
    · simp only [herase]
      refine hconserved.trans (.append_left _ ?_)
      rw [← List.append_assoc]
      exact (List.perm_append_singleton s _).symm
    · exact h.spaced
    · exact h.last

/-- After its owner has cancelled, no search of that owner is left. -/
theorem Fair.cancel_owner {w : Record} (h : Fair w) {aOwner : Option CallerPtr}
    (hsome : aOwner.isSome) :
    ∀ s ∈ (w.cancel aOwner).queue.searchQueue, s.owner ≠ aOwner := by
  have hcompare : ∀ s, Search.compareOwner aOwner s = true ↔ s.owner = aOwner := by
    intro s
    cases aOwner with
    | none => exact absurd hsome (by simp)
    | some o => simp [Search.compareOwner]
  intro s hs
  rw [cancel_queue] at hs
  change s ∈ w.queue.searchQueue.eraseP _ at hs
  have howners := h.owners
  generalize w.queue.searchQueue = queue at hs howners
  induction queue with
  | nil => exact absurd hs (by simp)
  | cons x xs ih =>
    obtain ⟨hx, hxs⟩ := List.pairwise_cons.mp howners
    cases hcmp : Search.compareOwner aOwner x with
    | true =>
      rw [List.eraseP_cons_of_pos hcmp] at hs
      have hxo := (hcompare x).mp hcmp
      intro hso
      exact hx s hs ⟨by rw [hxo]; exact hsome, by rw [hxo, hso]⟩
    | false =>
      have hneg : ¬ Search.compareOwner aOwner x = true := by simp [hcmp]
      rw [List.eraseP_cons_of_neg hneg] at hs
      rcases List.mem_cons.mp hs with rfl | hs
      · exact fun hso => hneg ((hcompare _).mpr hso)
      · exact ih hs hxs

/-- A search comes in whose owner has none in the deque. -/
theorem Fair.insert {w : Record} (h : Fair w) {s : Search} (tick : Nat)
    (hs : s.owner.isSome → ∀ x ∈ w.queue.searchQueue, x.owner ≠ s.owner) :
    Fair { w with
      queue := w.queue.insertSearch s
      tick := tick
      added := w.added ++ [s]
      pending := w.pending ++ [s] } := by
  have hperm : (w.queue.insertSearch s).searchQueue.Perm (s :: w.queue.searchQueue) :=
    Lib.insertAt_perm
  have howner : ∀ x ∈ w.queue.searchQueue, ¬ SameOwner s x := fun x hx hsame =>
    hs hsame.1 x hx hsame.2.symm
  constructor
  · exact h.order.insert s
  · rw [hperm.pairwise_iff fun hab hba => hab (sameOwner_symm hba)]
    exact List.pairwise_cons.mpr ⟨howner, h.owners⟩
  · intro x hx hsome
    rw [List.filter_append]
    rcases List.mem_cons.mp (hperm.mem_iff.mp hx) with rfl | hx
    · simp
    · have hne : ¬ s.owner = x.owner := fun hso => howner x hx ⟨hso ▸ hsome, hso⟩
      simpa [hne] using h.latest x hx hsome
  · calc (w.added ++ [s]).Perm (s :: w.added) := List.perm_append_singleton s _
      _ |>.Perm (s :: (w.queue.searchQueue ++ (w.popped.map Popped.search ++ w.dropped))) :=
          h.conserved.cons s
      _ |>.Perm ((w.queue.insertSearch s).searchQueue ++
          (w.popped.map Popped.search ++ w.dropped)) := hperm.symm.append_right _
  · exact h.spaced
  · exact h.last

theorem Fair.clear {w : Record} (h : Fair w) : Fair (w.next .clear) := by
  constructor
  · exact ⟨.nil, fun _ => rfl⟩
  · exact .nil
  · intro s hs
    exact absurd hs (by simp [Record.next, SearchQueue.clear])
  · refine h.conserved.trans ?_
    calc (w.queue.searchQueue ++ (w.popped.map Popped.search ++ w.dropped)).Perm
          ((w.popped.map Popped.search ++ w.dropped) ++ w.queue.searchQueue) :=
            List.perm_append_comm
      _ |>.Perm ((w.popped.map Popped.search ++ w.dropped) ++ w.pending) :=
            h.order.perm.append_left _
      _ = [] ++ (w.popped.map Popped.search ++ (w.dropped ++ w.pending)) := by simp
  · exact h.spaced
  · exact h.last

/-- A successful `maybePop` waits for the interval of the search it takes. -/
theorem maybePop_some {q q' : SearchQueue} {now later : Nat} {s : Search}
    (h : q.maybePop now later = (q', some s)) :
    q.searchQueue = s :: q'.searchQueue ∧ q'.minInterval = q.minInterval ∧
      q'.lastSearchTick = later ∧ q.lastSearchTick + (q.getInterval s.priority).toNat ≤ now := by
  unfold maybePop at h
  split at h
  · cases h
  · next hwait =>
    cases hq : q.searchQueue with
    | nil => rw [hq] at h; cases h
    | cons front rest =>
      rw [hq] at h
      simp only [Prod.mk.injEq, Option.some.injEq] at h
      obtain ⟨rfl, rfl⟩ := h
      refine ⟨rfl, rfl, rfl, ?_⟩
      simp only [getCurrentQueueTime, hq] at hwait
      split at hwait <;> omega

theorem maybePop_none {q q' : SearchQueue} {now later : Nat}
    (h : q.maybePop now later = (q', none)) : q' = q := by
  unfold maybePop at h
  split at h
  · cases h; rfl
  · split at h
    · cases h; rfl
    · cases h

theorem Fair.maybePop {w : Record} (h : Fair w) {now later : Nat} (hnow : now ≤ later) :
    Fair (w.next (.maybePop now later)) := by
  simp only [Record.next]
  split
  · next hpop =>
    obtain rfl := maybePop_none hpop
    exact ⟨h.order, h.owners, h.latest, h.conserved, h.spaced, h.last⟩
  · next queue s hpop =>
    obtain ⟨hqueue, hmin, hlast, hwait⟩ := maybePop_some hpop
    have herase : w.queue.searchQueue.erase s = queue.searchQueue := by
      rw [hqueue, List.erase_cons_head]
    have hinterval : queue.getInterval = w.queue.getInterval := by
      funext p
      simp only [getInterval, hmin]
    obtain ⟨horder, howners, hlatest, hconserved⟩ := h.remove (s := s) (by rw [hqueue]; simp)
    rw [herase] at horder howners hlatest hconserved
    refine ⟨horder, howners, hlatest, ?_, ?_, ?_⟩
    · refine hconserved.trans (.append_left _ ?_)
      simpa using (@List.perm_middle _ s (w.popped.map Popped.search) w.dropped).symm
    · simp only [hinterval]
      refine List.isChain_append.mpr ⟨h.spaced, .singleton _, ?_⟩
      intro a ha b hb
      obtain rfl : ⟨s, later⟩ = b := by simpa using hb
      have := h.last a ha
      simp only
      omega
    · simpa using hlast

/-- **The queue is fair after every sequence of calls.** -/
theorem reaches_fair {w : Record} (h : Lib.Reaches system Initial w) : Fair w := by
  refine Lib.Reaches.invariant (I := Fair) (fun _ hw => fair_initial hw) ?_ h
  intro w o hw ho
  cases o with
  | add aSearch now =>
    change Fair (w.next (.add aSearch now))
    simp only [Record.next]
    by_cases howner : aSearch.owner.isSome = true
    · rw [if_pos howner]
      exact (hw.cancel aSearch.owner).insert now fun hsome => hw.cancel_owner hsome
    · rw [if_neg howner]
      exact hw.insert now fun hsome => absurd hsome howner
  | cancelSearch aOwner => exact hw.cancel aOwner
  | clear => exact hw.clear
  | maybePop now later => exact hw.maybePop ho.2

/-- Why a search is not in the deque any more. -/
def Op.Removes (q : SearchQueue) (s : Search) : Op → Prop
  | .add aSearch _ => aSearch.owner.isSome ∧ s.owner = aSearch.owner
  | .cancelSearch aOwner => Search.compareOwner aOwner s = true
  | .clear => True
  | .maybePop now later => (q.maybePop now later).2 = some s

theorem mem_cancelSearch {q : SearchQueue} {aOwner : Option CallerPtr} {s : Search}
    (hs : s ∈ q.searchQueue) (hcmp : ¬ Search.compareOwner aOwner s = true) :
    s ∈ (q.cancelSearch aOwner).1.searchQueue := by
  change s ∈ q.searchQueue.eraseP _
  rwa [List.mem_eraseP_of_neg hcmp]

theorem mem_insertSearch {q : SearchQueue} {s x : Search} (hs : s ∈ q.searchQueue) :
    s ∈ (q.insertSearch x).searchQueue :=
  (Lib.insertAt_perm.mem_iff).mpr (List.mem_cons_of_mem x hs)

/-- A search stays in the deque until it is taken, replaced, cancelled or cleared. -/
theorem removes_of_gone {q : SearchQueue} {o : Op} {s : Search} (hs : s ∈ q.searchQueue)
    (hgone : s ∉ (o.apply q).searchQueue) : o.Removes q s := by
  cases o with
  | add aSearch now =>
    simp only [Op.apply, add] at hgone
    by_cases howner : aSearch.owner.isSome = true
    · rw [if_pos howner] at hgone
      by_cases hcmp : Search.compareOwner aSearch.owner s = true
      · refine ⟨howner, ?_⟩
        cases ho : aSearch.owner with
        | none => rw [ho] at howner; exact absurd howner (by simp)
        | some owner => simpa [Search.compareOwner, ho] using hcmp
      · exact absurd (mem_insertSearch (mem_cancelSearch hs hcmp)) hgone
    · rw [if_neg howner] at hgone
      exact absurd (mem_insertSearch hs) hgone
  | cancelSearch aOwner =>
    by_cases hcmp : Search.compareOwner aOwner s = true
    · exact hcmp
    · exact absurd (mem_cancelSearch hs hcmp) hgone
  | clear => exact trivial
  | maybePop now later =>
    simp only [Op.Removes]
    simp only [Op.apply] at hgone
    cases hpop : q.maybePop now later with
    | mk q' popped =>
      rw [hpop] at hgone
      cases popped with
      | none =>
        obtain rfl := maybePop_none hpop
        exact absurd hs hgone
      | some front =>
        obtain ⟨hqueue, -⟩ := maybePop_some hpop
        rw [hqueue] at hs
        rcases List.mem_cons.mp hs with rfl | hs
        · rfl
        · exact absurd hs hgone

/-- **The search queue is a fair priority queue.** In every state its callers can bring it to, the
    record is `Fair`, no search has been returned more often than it was added, and whatever the
    next call is, a queued search only leaves the deque when it is taken, replaced, cancelled or
    cleared. -/
theorem searchQueue_fair {w : Record} (h : Lib.Reaches system Initial w) :
    Fair w ∧ (∀ s, (w.popped.map Popped.search).count s ≤ w.added.count s) ∧
      ∀ o s, s ∈ w.queue.searchQueue → s ∉ (w.next o).queue.searchQueue →
        o.Removes w.queue s := by
  have hfair := reaches_fair h
  refine ⟨hfair, ?_, ?_⟩
  · intro s
    rw [hfair.conserved.count_eq, List.count_append, List.count_append]
    omega
  · intro o s hs hgone
    rw [next_queue] at hgone
    exact removes_of_gone hs hgone

/-- An automatic search, and a manual one that overtakes it; the second is taken five seconds after
    the queue was made, the first has to wait for another fifteen. -/
theorem searchQueue_fair_overtaking :
    let low : Search := ⟨0, .low, none⟩
    let high : Search := ⟨1, .high, some 7⟩
    let w : Record := { queue := { lastSearchTick := 0 }, tick := 0 }
    let ops := [.add low 0, .add high 10, .maybePop 5000 5001, .maybePop 20000 20000]
    (system.run w ops).popped = [⟨high, 5001⟩] ∧ (system.run w ops).pending = [low] ∧
      Fair (system.run w ops) := by
  refine ⟨by decide, by decide, (searchQueue_fair (Lib.Reaches.run (.start ⟨5000, 0, rfl⟩) ?_)).1⟩
  simp only [Lib.System.AllowedAlong, system, Op.TicksFrom, Record.next]
  decide

end SearchQueue
end Airdcpp
