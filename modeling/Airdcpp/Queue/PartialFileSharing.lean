import Airdcpp.Lib.ChainSet
import Airdcpp.Lib.Runs
import Airdcpp.Lib.StrictWeak
import Airdcpp.Queue.QueueItem

/-!
# `Queue/PartialFileSharing` — the sources to exchange part information with

Results of users that have some parts of a queued file are kept in a set, and every minute the
oldest of them are asked again. The set is ordered by `PartialFileSource::Sort`, which compares both
the users and the files and asks for both to be less.

Results arrive from several threads. The timer thread goes through the set in steps, and results may
arrive between them.
-/

namespace Airdcpp

open Lib

def PARTIAL_SHARE_MIN_SIZE : Int := 20971520

/-- `PartialFileSource`. The address tells two of them apart; the item is known by its token. -/
structure PartialFileSource where
  address : Nat
  queueItem : QueueToken
  hintedUser : HintedUser
  hubIpPort : Str := []
  ip : Str := []
  udpPort : Str := []
deriving DecidableEq, Repr

/-- What changes in a `PartialFileSource`. -/
structure PartialFileQuery where
  nextQueryTime : UInt64 := 0
  pendingQueryCount : UInt8 := 0
deriving DecidableEq, Repr

namespace PartialFileSource

/-- `Sort` -/
def sort (a b : PartialFileSource) : Bool :=
  decide (a.hintedUser.user.toList < b.hintedUser.user.toList) && decide (a.queueItem < b.queueItem)

/-- The user and the file. -/
def key (x : PartialFileSource) : CID × QueueToken := (x.hintedUser.user, x.queueItem)

def requestPartialSourceInfo (x : PartialFileSource) (query : PartialFileQuery) (aNow : UInt64) :
    Bool :=
  decide (query.nextQueryTime ≤ aNow) && decide (query.pendingQueryCount < 10) && !x.udpPort.isEmpty

end PartialFileSource

structure PartialFileSharingManager where
  sources : ChainSet PartialFileSource PartialFileSource.sort := ChainSet.empty
  queries : Nat → PartialFileQuery := fun _ => {}
  nextAddress : Nat := 0
  /-- `buffer`: what the timer thread has still to check -/
  buffer : List PartialFileSource := []
  /-- `buffer`: what is a current source -/
  checked : List PartialFileSource := []

namespace PartialFileSource

variable {a b c : PartialFileSource}

theorem sort_iff : sort a b = true ↔
    a.hintedUser.user.toList < b.hintedUser.user.toList ∧ a.queueItem < b.queueItem := by
  rw [sort, Bool.and_eq_true, decide_eq_true_eq, decide_eq_true_eq]

instance : IsTrans PartialFileSource fun a b => sort a b = true where
  trans a b c hab hbc := by
    rw [sort_iff] at *
    exact ⟨lt_trans hab.1 hbc.1, lt_trans hab.2 hbc.2⟩

theorem not_sort_self : sort a a = false := by
  rw [Bool.eq_false_iff]
  intro h
  exact lt_irrefl _ (sort_iff.mp h).1

theorem sort_asymm (h : sort a b = true) : ¬ sort b a = true := by
  intro h'
  exact lt_asymm (sort_iff.mp h).1 (sort_iff.mp h').1

/-- Two sources of one key are in the same order to all others. -/
theorem sort_congr (h : a.key = b.key) : sort a c = sort b c ∧ sort c a = sort c b := by
  obtain ⟨huser, hitem⟩ := Prod.mk.inj h
  simp only [sort, huser, hitem, and_self]

end PartialFileSource

namespace PartialFileSharingManager

open PartialFileSource

/-! ## Operations -/

/-- `handlePartialResultHooked`. `added` is the answer of `addPartialSourceHooked`. -/
def handlePartialResultHooked (m : PartialFileSharingManager) (aQI : QueueItem)
    (aPartialSource : PartialFileSource) (added : Bool) : PartialFileSharingManager :=
  -- finished files get no sources
  if aQI.isDownloaded then m
  else if aQI.size < PARTIAL_SHARE_MIN_SIZE then m
  else if added then { m with sources := m.sources.insert aPartialSource }
  else m

/-- The sources whose queries are due, in the order of their next queries (a `multimap`). -/
def collect (m : PartialFileSharingManager) (now : UInt64) : List PartialFileSource :=
  let due := m.sources.toList.filter fun x => x.requestPartialSourceInfo (m.queries x.address) now
  due.mergeSort fun a b =>
    decide ((m.queries a.address).nextQueryTime ≤ (m.queries b.address).nextQueryTime)

/-- One round of the `erase_if` in `findPFSSources`. `current` is the answer of
    `isCurrentSource`. -/
def check (m : PartialFileSharingManager) (current : Bool) : PartialFileSharingManager :=
  match m.buffer with
  | [] => m
  | x :: buffer =>
    if current then { m with buffer, checked := m.checked ++ [x] }
    else { m with buffer, sources := m.sources.erase x }

/-- `requestPartialSourceInfo`: the first of the checked sources are asked. -/
def request (m : PartialFileSharingManager) (aTick aNextQueryTime : UInt64) :
    PartialFileSharingManager :=
  let asked := (m.checked.take 10).map PartialFileSource.address
  { m with
    checked := []
    queries := fun address =>
      if address ∈ asked then
        { nextQueryTime := aTick + aNextQueryTime
          pendingQueryCount := (m.queries address).pendingQueryCount + 1 }
      else m.queries address }


/-- What the threads do to the set. -/
inductive Op
  /-- `onPSR`; `added` is the answer of `addPartialSourceHooked` -/
  | result (aQI : QueueItem) (aUser : HintedUser) (hubIpPort ip udpPort : Str) (added : Bool)
  /-- The first section of `findPFSSources` -/
  | collect (now : UInt64)
  | check (current : Bool)
  | request (aTick aNextQueryTime : UInt64)

/-- The source that is made of a result. -/
def newSource (m : PartialFileSharingManager) (aQI : QueueItem) (aUser : HintedUser)
    (hubIpPort ip udpPort : Str) : PartialFileSource :=
  { address := m.nextAddress, queueItem := aQI.token, hintedUser := aUser, hubIpPort, ip, udpPort }

def step (m : PartialFileSharingManager) : Op → PartialFileSharingManager
  | .result aQI aUser hubIpPort ip udpPort added =>
    let source := m.newSource aQI aUser hubIpPort ip udpPort
    { m with nextAddress := m.nextAddress + 1 }.handlePartialResultHooked aQI source added
  | .collect now => { m with buffer := m.collect now }
  | .check current => m.check current
  | .request aTick aNextQueryTime => m.request aTick aNextQueryTime

/-! ## Runs -/

/-- The manager, and the keys of the sources that were inserted and not erased. -/
structure Sharing where
  manager : PartialFileSharingManager := {}
  inserted : List (CID × QueueToken) := []

/-- The source an operation inserts. -/
def insertion (m : PartialFileSharingManager) : Op → Option PartialFileSource
  | .result aQI aUser hubIpPort ip udpPort added =>
    if !aQI.isDownloaded ∧ PARTIAL_SHARE_MIN_SIZE ≤ aQI.size ∧ added then
      some (m.newSource aQI aUser hubIpPort ip udpPort)
    else none
  | _ => none

/-- The source an operation erases. -/
def erasure (m : PartialFileSharingManager) : Op → Option PartialFileSource
  | .check false => m.buffer.head?
  | _ => none

/-- One thread goes through the set, and starts again when it is done. -/
def sharing : System Sharing Op where
  next s o :=
    { manager := s.manager.step o
      inserted := ((s.manager.insertion o).map key).toList ++
        s.inserted.filter fun k => some k ≠ (s.manager.erasure o).map key }
  allowed s
    | .collect _ => s.manager.buffer = [] ∧ s.manager.checked = []
    | .request _ _ => s.manager.buffer = []
    | _ => True

/-- There is an element for everything that was inserted and not erased. -/
def Kept (s : Sharing) : Prop := ∀ k ∈ s.inserted, ∃ x ∈ s.manager.sources.toList, x.key = k

/-- What is inserted is comparable to the sources of other users or other files. -/
def Comparable (s : Sharing) (o : Op) : Prop :=
  ∀ x ∈ s.manager.insertion o, ∀ y ∈ s.manager.sources.toList, y.key ≠ x.key →
    sort x y = true ∨ sort y x = true

/-- The thread only looks at what is in the set. -/
structure Inv (s : Sharing) : Prop where
  kept : Kept s
  buffer : ∀ x ∈ s.manager.buffer, x ∈ s.manager.sources
  nodup : s.manager.buffer.Nodup

variable {m : PartialFileSharingManager} {s : Sharing} {o : Op} {x y : PartialFileSource}
  {k : CID × QueueToken}

theorem mem_buffer_of_erasure (h : x ∈ m.erasure o) : x ∈ m.buffer := by
  cases o with
  | check current =>
    cases current with
    | true => cases h
    | false => exact List.mem_of_mem_head? h
  | result | collect | request => cases h

theorem sources_step (m : PartialFileSharingManager) (o : Op) : (m.step o).sources =
    match m.insertion o, m.erasure o with
    | some x, _ => m.sources.insert x
    | none, some x => m.sources.erase x
    | none, none => m.sources := by
  cases o with
  | result aQI aUser hubIpPort ip udpPort added =>
    simp only [step, handlePartialResultHooked, insertion, erasure, Bool.not_eq_true']
    by_cases hdone : aQI.isDownloaded = true
    · simp [hdone]
    · by_cases hsize : aQI.size < PARTIAL_SHARE_MIN_SIZE
      · simp [hdone, hsize, not_le.mpr hsize]
      · cases added with
        | true => simp [hdone, hsize, not_lt.mp hsize]
        | false => simp [hdone, hsize]
  | collect now => rfl
  | check current =>
    show (m.check current).sources = _
    rw [check]
    cases hbuffer : m.buffer with
    | nil => cases current <;> simp [insertion, erasure, hbuffer]
    | cons x buffer => cases current <;> simp [insertion, erasure, hbuffer]
  | request aTick aNextQueryTime => rfl

theorem mem_step_of_insertion (h : x ∈ m.insertion o) : y ∈ (m.step o).sources ↔
    y ∈ m.sources ∨ y = x ∧ ∀ z ∈ m.sources, sort x z = true ∨ sort z x = true := by
  rw [sources_step, Option.mem_def.mp h]
  exact ChainSet.mem_insert

theorem mem_step_of_mem (hbuffer : ∀ x ∈ m.buffer, x ∈ m.sources) (hy : y ∈ m.sources)
    (hne : ∀ x ∈ m.erasure o, x ≠ y) : y ∈ (m.step o).sources := by
  cases hinsert : m.insertion o with
  | some x => exact (mem_step_of_insertion hinsert).mpr (.inl hy)
  | none =>
    rw [sources_step, hinsert]
    cases herase : m.erasure o with
    | some x =>
      have hx := hbuffer x (mem_buffer_of_erasure herase)
      exact ChainSet.mem_erase.mpr ⟨hy, ChainSet.comparable hx hy (hne x herase)⟩
    | none => exact hy

theorem mem_inserted : k ∈ (sharing.next s o).inserted ↔
    (∃ x ∈ s.manager.insertion o, x.key = k) ∨
      k ∈ s.inserted ∧ ∀ x ∈ s.manager.erasure o, x.key ≠ k := by
  have herase : some k ≠ (s.manager.erasure o).map key ↔
      ∀ x ∈ s.manager.erasure o, x.key ≠ k := by
    cases s.manager.erasure o with
    | none => simp
    | some x => simp [eq_comm]
  simp only [sharing, List.mem_append, Option.mem_toList, Option.mem_def, Option.map_eq_some_iff,
    List.mem_filter, decide_eq_true_eq, herase]

/-- **Everything is kept by an operation exactly when what it inserts is comparable to what is
    there.** -/
theorem kept_next_iff (h : Inv s) : Kept (sharing.next s o) ↔ Comparable s o := by
  constructor
  · intro hkept x hx y hy hne
    obtain ⟨z, hz, hkey⟩ := hkept x.key (mem_inserted.mpr (.inl ⟨x, hx, rfl⟩))
    rcases (mem_step_of_insertion hx).mp hz with hz | ⟨-, hall⟩
    · -- there was a source with its key already
      have hzy : z ≠ y := fun heq => hne (heq ▸ hkey)
      obtain ⟨hleft, hright⟩ := sort_congr (c := y) hkey
      rw [← hleft, ← hright]
      exact ChainSet.comparable hz hy hzy
    · exact hall y hy
  · intro hcomp k hk
    rcases mem_inserted.mp hk with ⟨x, hx, rfl⟩ | ⟨hk, hne⟩
    · by_cases hall : ∀ z ∈ s.manager.sources, sort x z = true ∨ sort z x = true
      · exact ⟨x, (mem_step_of_insertion hx).mpr (.inr ⟨rfl, hall⟩), rfl⟩
      · push Not at hall
        obtain ⟨z, hz, hxz, hzx⟩ := hall
        have hkey : z.key = x.key := by
          by_contra hne
          rcases hcomp x hx z hz hne with h | h
          · exact hxz h
          · exact hzx h
        exact ⟨z, (mem_step_of_insertion hx).mpr (.inl hz), hkey⟩
    · obtain ⟨x, hx, rfl⟩ := h.kept k hk
      exact ⟨x, mem_step_of_mem h.buffer hx fun e he heq => hne e he (heq ▸ rfl), rfl⟩

theorem mem_collect {now : UInt64} (h : x ∈ m.collect now) : x ∈ m.sources := by
  rw [collect, List.mem_mergeSort] at h
  exact List.mem_of_mem_filter h

theorem nodup_collect (m : PartialFileSharingManager) (now : UInt64) : (m.collect now).Nodup := by
  refine (List.mergeSort_perm _ _).nodup_iff.mpr (List.Nodup.filter _ ?_)
  refine m.sources.sorted.imp fun hlt heq => ?_
  rw [heq, not_sort_self] at hlt
  cases hlt

theorem buffer_step (m : PartialFileSharingManager) (o : Op) : (m.step o).buffer =
    match o with
    | .collect now => m.collect now
    | .check _ => m.buffer.tail
    | _ => m.buffer := by
  cases o with
  | result aQI aUser hubIpPort ip udpPort added =>
    show (handlePartialResultHooked _ _ _ _).buffer = m.buffer
    rw [handlePartialResultHooked]
    split_ifs <;> rfl
  | collect now => rfl
  | check current =>
    show (m.check current).buffer = m.buffer.tail
    rw [check]
    cases hbuffer : m.buffer with
    | nil => exact hbuffer
    | cons x buffer => cases current <;> rfl
  | request aTick aNextQueryTime => rfl

/-- What is checked next is not in the rest of the buffer. -/
theorem ne_of_mem_tail (h : m.buffer.Nodup) (hx : x ∈ m.buffer.tail) (hy : y ∈ m.buffer.head?) :
    y ≠ x := by
  cases hbuffer : m.buffer with
  | nil => simp [hbuffer] at hx
  | cons z buffer =>
    rw [hbuffer] at h hx hy
    obtain rfl : z = y := Option.some.inj hy
    rintro rfl
    exact (List.nodup_cons.mp h).1 hx

theorem inv_next (h : Inv s) (ho : Comparable s o) : Inv (sharing.next s o) := by
  refine ⟨(kept_next_iff h).mpr ho, ?_, ?_⟩
  · intro x hx
    change x ∈ (s.manager.step o).buffer at hx
    show x ∈ (s.manager.step o).sources
    rw [buffer_step] at hx
    cases o with
    | collect now => exact mem_collect hx
    | check current =>
      refine mem_step_of_mem h.buffer (h.buffer x (List.mem_of_mem_tail hx)) fun e he => ?_
      cases current with
      | true => cases he
      | false => exact ne_of_mem_tail h.nodup hx he
    | result | request => exact mem_step_of_mem h.buffer (h.buffer x hx) fun e he => by cases he
  · show (s.manager.step o).buffer.Nodup
    rw [buffer_step]
    cases o with
    | collect now => exact nodup_collect _ _
    | check current => exact h.nodup.tail
    | result | request => exact h.nodup

theorem inv_start : Inv {} where
  kept _ hk := absurd hk List.not_mem_nil
  buffer _ hx := absurd hx List.not_mem_nil
  nodup := List.nodup_nil

/-- A result of a user for a file. -/
def sampleResult (user : UInt8) (item : QueueToken) : Op :=
  .result { QueueItem.sample PARTIAL_SHARE_MIN_SIZE with token := item }
    ⟨Vector.replicate 24 user, []⟩ [] [] [] true

end PartialFileSharingManager
end Airdcpp
