import Airdcpp.Core.Types
import Airdcpp.Lib.Threads

/-!
# `Share/ShareTasks` — the queue of share refreshes

`addRefreshTask` drops the directories that are queued already, adds a task for the others and
starts `runTasks` unless `tasksRunning` says that somebody does. `runTasks` takes the tasks from the
front until it finds the queue empty. The queue is locked by each access; the flag is atomic.

A task is known by its `address`, the number of tasks added before it (tokens are random). `ran`
and `answers` record what was run and what the callers were told. With the priority `BLOCKING` the
caller runs the tasks itself, otherwise a thread is started: either way one thread is inside
`runTasks`.
-/

namespace Airdcpp
namespace ShareTasks

abbrev ShareRefreshTaskToken := Nat

structure ShareRefreshTask where
  address : Nat
  token : ShareRefreshTaskToken
  dirs : Finset Str
  canceled : Bool := false
  running : Bool := false
deriving DecidableEq

inductive RefreshTaskQueueResult
  | started
  | queued
  | existing
deriving DecidableEq

/-- The members that the threads share. -/
structure State where
  tasks : List ShareRefreshTask := []
  tasksRunning : Bool := false
  added : Nat := 0
  ran : List Nat := []
  answers : List (Option ShareRefreshTaskToken × RefreshTaskQueueResult) := []

/-- Where a thread is: the section that it runs next. -/
inductive Call
  | addRefreshTask (aDirs : List Str)
  | add (dirs : List Str)
  | testAndSet (token : ShareRefreshTaskToken)
  | start (token : ShareRefreshTaskToken)
  | getFront
  | runRefreshTask (address : Nat)
  | popFront
  | clear
  | abortRefresh (aToken : Option ShareRefreshTaskToken)
deriving DecidableEq

/-- Remove the exact directories that have already been queued for refreshing. -/
def validateRefreshTask (tasks : List ShareRefreshTask) (dirs_ : List Str) : List Str :=
  tasks.foldl (fun dirs t => if t.canceled then dirs else dirs.filter fun p => p ∉ t.dirs) dirs_

/-- The next section of a thread; the input is what `ValueGenerator::rand` gives. -/
def next (s : State) : Call → ShareRefreshTaskToken → State × Option Call
  | .addRefreshTask aDirs, _ =>
    let dirs := validateRefreshTask s.tasks aDirs
    if dirs = [] then ({ s with answers := (none, .existing) :: s.answers }, none)
    else (s, some (.add dirs))
  | .add dirs, token =>
    let task : ShareRefreshTask := { address := s.added, token := token, dirs := dirs.toFinset }
    ({ s with tasks := s.tasks ++ [task], added := s.added + 1 }, some (.testAndSet token))
  | .testAndSet token, _ =>
    if s.tasksRunning then ({ s with answers := (some token, .queued) :: s.answers }, none)
    else ({ s with tasksRunning := true }, some (.start token))
  | .start token, _ =>
    ({ s with answers := (some token, .started) :: s.answers }, some .getFront)
  | .getFront, _ =>
    match s.tasks with
    | [] => (s, some .clear)
    | task :: rest =>
      ({ s with tasks := { task with running := true } :: rest },
        some (.runRefreshTask task.address))
  | .runRefreshTask address, _ => ({ s with ran := s.ran ++ [address] }, some .popFront)
  | .popFront, _ => ({ s with tasks := s.tasks.tail }, some .getFront)
  | .clear, _ => ({ s with tasksRunning := false }, none)
  | .abortRefresh aToken, _ =>
    ({ s with
      tasks := s.tasks.map fun t =>
        if aToken = none ∨ aToken = some t.token then { t with canceled := true } else t }, none)

/-- The functions that other threads call. -/
def Call.isEntry : Call → Bool
  | .addRefreshTask _ | .abortRefresh _ => true
  | _ => false

def sections : Lib.Sections State Call ShareRefreshTaskToken where
  enters _ t := t.isEntry
  accepts _ _ _ := True
  next := next

instance (s : State) (t : Call) : Decidable (sections.enters s t) :=
  inferInstanceAs (Decidable (t.isEntry = true))

instance (s : State) (t : Call) (x : ShareRefreshTaskToken) :
    Decidable (sections.accepts s t x) :=
  inferInstanceAs (Decidable True)

def Initial (s : Lib.Threads State Call) : Prop := s = ⟨{}, []⟩

/-- Inside `runTasks`. -/
def Call.inRunTasks : Call → Bool
  | .getFront | .runRefreshTask _ | .popFront | .clear => true
  | _ => false

/-- Inside `addRefreshTask`. -/
def Call.inAddRefreshTask : Call → Bool
  | .addRefreshTask _ | .add _ | .testAndSet _ | .start _ => true
  | _ => false

/-- What the queue promises: nothing is left where nobody is inside, one thread at most runs the
    tasks, an added task is run once before it leaves the queue and not again, and two tasks that
    are not canceled have no directory in common. -/
structure Sound (s : State) (inside : List Call) : Prop where
  drained : (∀ t ∈ inside, t.inAddRefreshTask = false ∧ t.inRunTasks = false) → s.tasks = []
  single : inside.countP Call.inRunTasks ≤ 1
  once : ∀ a < s.added, s.ran.count a ≤ 1 ∧ (s.ran.count a = 1 ∨ ∃ t ∈ s.tasks, t.address = a)
  distinct : s.tasks.Pairwise fun t u =>
    t.canceled = false → u.canceled = false → Disjoint t.dirs u.dirs

/-- On the way to the flag. -/
def Call.willTest : Call → Bool
  | .add _ | .testAndSet _ => true
  | _ => false

/-- Where a section is in time: the flag is not tested between the last look at the queue and
    clearing it, unless another caller is about to test it as well; and what was validated is still
    not queued when it is added. -/
def Timely (s : State) (others : List Call) : Call → ShareRefreshTaskToken → Prop
  | .testAndSet _, _ => Call.clear ∈ others → ∃ t ∈ others, t.willTest = true
  | .add dirs, _ => validateRefreshTask s.tasks dirs = dirs
  | _, _ => True

instance (s : State) (others : List Call) (t : Call) (x : ShareRefreshTaskToken) :
    Decidable (Timely s others t x) := by
  cases t <;> simp only [Timely] <;> infer_instance

end ShareTasks
end Airdcpp
