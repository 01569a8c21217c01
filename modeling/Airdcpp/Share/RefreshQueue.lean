import Airdcpp.Share.ShareTasks

/-!
# `Share/RefreshQueue` — tasks that are run, once and by one thread

`Ordered` holds in every run: the thread that found the flag clear is the only one between
`testAndSet` and `clear`, so the tasks are run in the order they were added in, each once. What
depends on the order of the sections is that somebody is still there to run them (`Awaited`) and
that their directories differ.
-/

namespace Airdcpp
namespace ShareTasks

variable {s : State} {t u : Call} {ts ts' : List Call} {x : ShareRefreshTaskToken} {dirs : List Str}

/-! ## Validation -/

theorem mem_validateRefreshTask {tasks : List ShareRefreshTask} {p : Str} :
    p ∈ validateRefreshTask tasks dirs ↔
      p ∈ dirs ∧ ∀ t ∈ tasks, t.canceled = false → p ∉ t.dirs := by
  unfold validateRefreshTask
  induction tasks generalizing dirs with
  | nil => simp
  | cons task tasks ih =>
    rw [List.foldl_cons, ih]
    cases hc : task.canceled with
    | true => simp [hc]
    | false => simp [hc, and_assoc]

/-! ## One thread runs the tasks, in order -/

/-- Since the flag was found clear. -/
def Call.holds : Call → Bool
  | .start _ | .getFront | .runRefreshTask _ | .popFront | .clear => true
  | _ => false

/-- The front task has been run. -/
def Call.popping : Call → Bool
  | .popFront => true
  | _ => false

def addresses (s : State) : List Nat := s.tasks.map (·.address)

/-- What every run keeps. -/
structure Ordered (s : State) (ts : List Call) : Prop where
  flag : ts.countP Call.holds = s.tasksRunning.toNat
  length : s.tasks.length ≤ s.added
  order : addresses s = List.range' (s.added - s.tasks.length) s.tasks.length
  ran : s.ran = List.range (s.added - s.tasks.length + ts.countP Call.popping)
  current : ∀ a, Call.runRefreshTask a ∈ ts → (addresses s).head? = some a
  popped : Call.popFront ∈ ts → s.tasks ≠ []

theorem Ordered.perm (hp : ts.Perm ts') (h : Ordered s ts) : Ordered s ts' where
  flag := by rw [← hp.countP_eq, h.flag]
  length := h.length
  order := h.order
  ran := by rw [← hp.countP_eq, h.ran]
  current a ha := h.current a (hp.mem_iff.mpr ha)
  popped ha := h.popped (hp.mem_iff.mpr ha)

/-- A thread that holds the flag is the only one. -/
theorem Ordered.alone (h : Ordered s (t :: ts)) (ht : t.holds = true) :
    s.tasksRunning = true ∧ ∀ u ∈ ts, u.holds = false := by
  have hflag := h.flag
  rw [List.countP_cons_of_pos ht] at hflag
  cases hrun : s.tasksRunning with
  | false =>
    rw [hrun] at hflag
    exact absurd hflag (by simp)
  | true =>
    rw [hrun] at hflag
    refine ⟨rfl, ?_⟩
    intro u hu
    have hzero : ts.countP Call.holds = 0 := Nat.succ.inj hflag
    simpa using List.countP_eq_zero.mp hzero u hu

theorem notMem_of_alone (h : ∀ u ∈ ts, u.holds = false) (ht : t.holds = true) : t ∉ ts := by
  intro hmem
  rw [h t hmem] at ht
  exact absurd ht (by simp)

theorem popping_of_alone (h : ∀ u ∈ ts, u.holds = false) : ts.countP Call.popping = 0 := by
  rw [List.countP_eq_zero]
  intro u hu hpop
  cases u with
  | popFront => exact absurd (h _ hu) (by simp [Call.holds])
  | _ => exact absurd hpop (by simp [Call.popping])

/-- A section that leaves the tasks and the flag alone. -/
theorem Ordered.same {us : List Call} (h : Ordered s (t :: ts))
    (hholds : us.countP Call.holds = [t].countP Call.holds)
    (hpopping : us.countP Call.popping = [t].countP Call.popping)
    (hrun : ∀ a, Call.runRefreshTask a ∈ us → (addresses s).head? = some a)
    (hpop : Call.popFront ∈ us → s.tasks ≠ []) : Ordered s (us ++ ts) where
  flag := by
    rw [List.countP_append, hholds, ← List.countP_append, List.singleton_append, h.flag]
  length := h.length
  order := h.order
  ran := by
    rw [List.countP_append, hpopping, ← List.countP_append, List.singleton_append, h.ran]
  current a ha := by
    rcases List.mem_append.mp ha with ha | ha
    · exact hrun a ha
    · exact h.current a (List.mem_cons_of_mem _ ha)
  popped ha := by
    rcases List.mem_append.mp ha with ha | ha
    · exact hpop ha
    · exact h.popped (List.mem_cons_of_mem _ ha)

/-- The tasks may change as long as they are the same ones, and so may the answers. -/
theorem Ordered.congr {s' : State} (h : Ordered s ts) (htasks : addresses s' = addresses s)
    (hadded : s'.added = s.added) (hran : s'.ran = s.ran)
    (hrunning : s'.tasksRunning = s.tasksRunning) : Ordered s' ts := by
  have hlen : s'.tasks.length = s.tasks.length := by
    simpa [addresses] using congrArg List.length htasks
  refine ⟨?_, ?_, ?_, ?_, ?_, ?_⟩
  · rw [hrunning, h.flag]
  · rw [hlen, hadded]
    exact h.length
  · rw [htasks, hlen, hadded, h.order]
  · rw [hran, hlen, hadded, h.ran]
  · rw [htasks]
    exact h.current
  · intro ha hnil
    refine h.popped ha (List.eq_nil_of_length_eq_zero ?_)
    rw [← hlen, hnil, List.length_nil]

theorem ordered_initial {s : Lib.Threads State Call} (h : Initial s) :
    Ordered s.shared s.inside := by
  subst h
  refine ⟨rfl, Nat.le_refl _, rfl, rfl, ?_, ?_⟩
  · intro a ha
    exact absurd ha (by simp)
  · intro ha
    exact absurd ha (by simp)

theorem Ordered.enter (h : Ordered s ts) (ht : t.isEntry = true) : Ordered s (t :: ts) := by
  have hentry : t.holds = false ∧ t.popping = false := by
    cases t <;> simp_all [Call.isEntry, Call.holds, Call.popping]
  refine ⟨?_, h.length, h.order, ?_, ?_, ?_⟩
  · rw [List.countP_cons_of_neg (by simp [hentry.1]), h.flag]
  · rw [List.countP_cons_of_neg (by simp [hentry.2]), h.ran]
  · intro a ha
    rcases List.mem_cons.mp ha with rfl | ha
    · exact absurd hentry.1 (by simp [Call.holds])
    · exact h.current a ha
  · intro ha
    rcases List.mem_cons.mp ha with rfl | ha
    · exact absurd hentry.1 (by simp [Call.holds])
    · exact h.popped ha

/-- Adding a task. -/
theorem Ordered.add {token : ShareRefreshTaskToken} (h : Ordered s (.add dirs :: ts)) :
    Ordered (next s (.add dirs) token).1 (.testAndSet token :: ts) := by
  have hlen := h.length
  refine ⟨?_, ?_, ?_, ?_, ?_, ?_⟩
  · exact h.flag
  · simpa [next] using hlen
  · have hadd := h.order
    simp only [next, addresses, List.map_append, List.map_cons, List.map_nil,
      List.length_append, List.length_singleton] at hadd ⊢
    rw [hadd, Nat.add_sub_add_right, List.range'_concat]
    simp [Nat.sub_add_cancel hlen]
  · have hran := h.ran
    simp only [next, List.length_append, List.length_singleton, Nat.add_sub_add_right]
    exact hran
  · intro a ha
    have hcur := h.current a (by simpa using ha)
    simp only [next, addresses, List.map_append] at hcur ⊢
    rw [List.head?_append, hcur]
    rfl
  · intro _ hnil
    simp [next] at hnil

/-- The front task has been run. -/
theorem Ordered.ran_front {a : Nat} (h : Ordered s (.runRefreshTask a :: ts)) :
    Ordered { s with ran := s.ran ++ [a] } (.popFront :: ts) := by
  obtain ⟨-, hothers⟩ := h.alone rfl
  have hpopping := popping_of_alone hothers
  have hcur := h.current a List.mem_cons_self
  have hne : s.tasks ≠ [] := by
    intro hnil
    rw [addresses, hnil] at hcur
    exact absurd hcur (by simp)
  refine ⟨h.flag, h.length, h.order, ?_, ?_, fun _ => hne⟩
  · have hran := h.ran
    rw [List.countP_cons_of_neg (by simp [Call.popping]), hpopping, Nat.add_zero] at hran
    rw [List.countP_cons_of_pos rfl, hpopping, Nat.zero_add, List.range_succ, ← hran]
    rw [h.order] at hcur
    have hpos := List.length_pos_iff.mpr hne
    obtain ⟨n, hn⟩ := Nat.exists_eq_succ_of_ne_zero hpos.ne'
    rw [hn, List.range'_succ] at hcur
    obtain rfl := Option.some.inj hcur
    simp [hn]
  · intro b hb
    exact absurd (notMem_of_alone hothers rfl) (by simpa using hb)

/-- It leaves the queue. -/
theorem Ordered.pop (h : Ordered s (.popFront :: ts)) :
    Ordered { s with tasks := s.tasks.tail } (.getFront :: ts) := by
  obtain ⟨-, hothers⟩ := h.alone rfl
  have hpopping := popping_of_alone hothers
  have hlen := h.length
  have hadd := h.order
  obtain ⟨task, rest, htasks⟩ := List.exists_cons_of_ne_nil (h.popped List.mem_cons_self)
  rw [addresses, htasks, List.map_cons, List.length_cons, List.range'_succ] at hadd
  rw [htasks, List.length_cons] at hlen
  have hnext : s.added - rest.length = s.added - (rest.length + 1) + 1 := by omega
  refine ⟨h.flag, ?_, ?_, ?_, ?_, ?_⟩
  · simp only [htasks, List.tail_cons]
    omega
  · simp only [addresses, htasks, List.tail_cons, hnext]
    exact (List.cons.inj hadd).2
  · have hran := h.ran
    rw [List.countP_cons_of_pos rfl, hpopping, htasks, List.length_cons] at hran
    rw [List.countP_cons_of_neg (by simp [Call.popping]), hpopping]
    simp only [htasks, List.tail_cons, hnext]
    exact hran
  · intro a ha
    exact absurd (notMem_of_alone hothers rfl) (by simpa using ha)
  · intro ha
    exact absurd (notMem_of_alone hothers rfl) (by simpa using ha)

theorem Ordered.next (h : Ordered s (t :: ts)) :
    Ordered (next s t x).1 ((next s t x).2.toList ++ ts) := by
  cases t with
  | addRefreshTask aDirs =>
    simp only [ShareTasks.next]
    by_cases hnil : validateRefreshTask s.tasks aDirs = []
    · rw [if_pos hnil]
      refine Ordered.congr (h.same rfl rfl ?_ ?_) rfl rfl rfl rfl <;> simp
    · rw [if_neg hnil]
      refine h.same rfl rfl ?_ ?_ <;> simp
  | add dirs => exact h.add
  | testAndSet token =>
    simp only [ShareTasks.next]
    cases hrun : s.tasksRunning with
    | true =>
      rw [if_pos rfl]
      refine Ordered.congr (h.same rfl rfl ?_ ?_) rfl rfl rfl hrun.symm <;> simp
    | false =>
      have hflag := h.flag
      rw [List.countP_cons_of_neg (by simp [Call.holds]), hrun] at hflag
      simp only [Bool.false_eq_true, if_false]
      refine ⟨?_, h.length, h.order, h.ran, ?_, ?_⟩
      · rw [Option.toList_some, List.singleton_append, List.countP_cons_of_pos rfl, hflag]
        rfl
      · intro a ha
        exact h.current a (by simpa using ha)
      · intro ha
        exact h.popped (by simpa using ha)
  | start token =>
    simp only [ShareTasks.next]
    refine Ordered.congr (h.same rfl rfl ?_ ?_) rfl rfl rfl rfl <;> simp
  | getFront =>
    simp only [ShareTasks.next]
    cases htasks : s.tasks with
    | nil => refine h.same rfl rfl ?_ ?_ <;> simp
    | cons task rest =>
      refine Ordered.congr (h.same rfl rfl ?_ ?_) ?_ rfl rfl rfl
      · intro a ha
        simp [addresses, htasks] at ha ⊢
        exact ha.symm
      · simp
      · simp [addresses, htasks]
  | runRefreshTask a => exact h.ran_front
  | popFront => exact h.pop
  | clear =>
    obtain ⟨-, hothers⟩ := h.alone rfl
    refine ⟨?_, h.length, h.order, h.ran, ?_, ?_⟩
    · refine List.countP_eq_zero.mpr ?_
      intro u hu
      simp [hothers u hu]
    · intro a ha
      exact h.current a (List.mem_cons_of_mem _ ha)
    · intro ha
      exact h.popped (List.mem_cons_of_mem _ ha)
  | abortRefresh aToken =>
    simp only [ShareTasks.next]
    refine Ordered.congr (h.same rfl rfl ?_ ?_) ?_ rfl rfl rfl
    · simp
    · simp
    · simp only [addresses, List.map_map]
      apply List.map_congr_left
      intro task _
      simp only [Function.comp]
      split <;> rfl

/-- **In order.** -/
theorem reaches_ordered {s : Lib.Threads State Call}
    (h : Lib.Reaches sections.system Initial s) : Ordered s.shared s.inside := by
  refine Lib.Sections.invariant' (fun _ h => ordered_initial h) ?_ ?_ ?_ h
  · intro s l l' hp h
    exact h.perm hp
  · intro s ts t h ht
    exact h.enter ht
  · intro s ts t x h _
    exact h.next

/-- What is not in the queue any more has been run, once. -/
theorem Ordered.once (h : Ordered s ts) :
    ∀ a < s.added, s.ran.count a ≤ 1 ∧ (s.ran.count a = 1 ∨ ∃ t ∈ s.tasks, t.address = a) := by
  intro a ha
  have hle := List.nodup_iff_count_le_one.mp (h.ran ▸ List.nodup_range) a
  refine ⟨hle, ?_⟩
  by_cases hmem : a ∈ s.ran
  · left
    exact Nat.le_antisymm hle (List.count_pos_iff.mpr hmem)
  · right
    rw [h.ran, List.mem_range] at hmem
    have hlen := h.length
    have haddr : a ∈ addresses s := by
      rw [h.order, List.mem_range'_1]
      omega
    exact List.mem_map.mp haddr

theorem Ordered.single (h : Ordered s ts) : ts.countP Call.inRunTasks ≤ 1 := by
  have hle : ts.countP Call.inRunTasks ≤ ts.countP Call.holds := by
    apply List.countP_mono_left
    intro t _ ht
    cases t <;> simp_all [Call.inRunTasks, Call.holds]
  exact Nat.le_trans (h.flag ▸ hle) (Bool.toNat_le _)

/-! ## Somebody is there to run the tasks -/

/-- On the way to the queue. -/
def Call.awaits : Call → Bool
  | .add _ | .testAndSet _ | .start _ | .getFront | .runRefreshTask _ | .popFront => true
  | _ => false

def Awaited (s : State) (ts : List Call) : Prop :=
  s.tasks ≠ [] → ∃ t ∈ ts, t.awaits = true

def Distinct (s : State) : Prop :=
  s.tasks.Pairwise fun t u => t.canceled = false → u.canceled = false → Disjoint t.dirs u.dirs

/-- A thread that goes on awaits the tasks itself. -/
theorem Awaited.of_head {s' : State} (ht : t.awaits = true) : Awaited s' (t :: ts) :=
  fun _ => ⟨t, List.mem_cons_self, ht⟩

/-- A thread that did not await them may return. -/
theorem Awaited.drop {s' : State} {us : List Call} (h : Awaited s (t :: ts))
    (ht : t.awaits = false) (htasks : s'.tasks ≠ [] → s.tasks ≠ []) : Awaited s' (us ++ ts) := by
  intro hne
  obtain ⟨u, hu, hw⟩ := h (htasks hne)
  rcases List.mem_cons.mp hu with rfl | hu
  · rw [ht] at hw
    exact absurd hw (by simp)
  · exact ⟨u, List.mem_append_right _ hu, hw⟩

theorem Awaited.next (ho : Ordered s (t :: ts)) (h : Awaited s (t :: ts))
    (htimely : Timely s ts t x) :
    Awaited (next s t x).1 ((next s t x).2.toList ++ ts) := by
  cases t with
  | addRefreshTask aDirs =>
    simp only [ShareTasks.next]
    split
    · exact h.drop rfl id
    · exact h.drop rfl id
  | add dirs => exact .of_head rfl
  | testAndSet token =>
    simp only [ShareTasks.next]
    cases hrun : s.tasksRunning with
    | false => exact .of_head rfl
    | true =>
      -- somebody holds the flag, and if he is about to clear it another caller comes
      intro _
      have hflag := ho.flag
      rw [List.countP_cons_of_neg (by simp [Call.holds]), hrun] at hflag
      have hpos : 0 < ts.countP Call.holds := by
        rw [hflag]
        exact Nat.one_pos
      obtain ⟨u, hu, hholds⟩ := List.countP_pos_iff.mp hpos
      by_cases hclear : u = Call.clear
      · subst hclear
        obtain ⟨v, hv, hwill⟩ := htimely hu
        refine ⟨v, hv, ?_⟩
        cases v <;> simp_all [Call.willTest, Call.awaits]
      · refine ⟨u, hu, ?_⟩
        cases u <;> simp_all [Call.holds, Call.awaits]
  | start token => exact .of_head rfl
  | getFront =>
    simp only [ShareTasks.next]
    cases htasks : s.tasks with
    | nil => exact fun hne => absurd htasks hne
    | cons task rest => exact .of_head rfl
  | runRefreshTask a => exact .of_head rfl
  | popFront => exact .of_head rfl
  | clear => exact h.drop rfl id
  | abortRefresh aToken =>
    refine h.drop rfl ?_
    intro hne hnil
    exact hne (by simp [ShareTasks.next, hnil])

/-! ## Directories -/

theorem Distinct.next (h : Distinct s) (htimely : Timely s ts t x) :
    Distinct (next s t x).1 := by
  cases t with
  | addRefreshTask aDirs =>
    simp only [ShareTasks.next]
    split
    · exact h
    · exact h
  | add dirs =>
    refine List.pairwise_append.mpr ⟨h, List.pairwise_singleton _ _, ?_⟩
    intro task htask new hnew hcanceled _
    rw [List.mem_singleton] at hnew
    subst hnew
    rw [Finset.disjoint_right]
    intro p hp
    have hvalid : p ∈ validateRefreshTask s.tasks dirs := by
      rw [htimely]
      exact List.mem_toFinset.mp hp
    exact (mem_validateRefreshTask.mp hvalid).2 task htask hcanceled
  | testAndSet token =>
    simp only [ShareTasks.next]
    split
    · exact h
    · exact h
  | start token => exact h
  | getFront =>
    have hd := h
    unfold Distinct at hd ⊢
    simp only [ShareTasks.next]
    cases htasks : s.tasks with
    | nil => simp [htasks]
    | cons task rest =>
      rw [htasks] at hd
      exact List.pairwise_cons.mpr (List.pairwise_cons.mp hd)
  | runRefreshTask a => exact h
  | popFront => exact h.tail
  | clear => exact h
  | abortRefresh aToken =>
    refine List.Pairwise.map _ ?_ h
    intro t u hdisjoint
    split
    · intro hcanceled
      exact absurd hcanceled (by simp)
    · intro ht
      split
      · intro hcanceled
        exact absurd hcanceled (by simp)
      · exact hdisjoint ht

/-! ## The queue over whole runs -/

end ShareTasks
end Airdcpp
