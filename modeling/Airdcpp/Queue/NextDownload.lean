import Airdcpp.Connection.ConnectionQueueItem
import Airdcpp.Lib.FirstMatch
import Airdcpp.Queue.WaitingSources

/-!
# `Queue/NextDownload` — what is downloaded next from a user

`getNext` takes the first item of the user that has a segment to download: the items of the highest
priority first, and then those of the bundles, which are in the order of their priority and age. If
there is nothing, it looks once more for slow downloads that can be overlapped. The search stops at
the first bundle with a priority that is too low, and skips those that may not be started.

With the lists of `Queue/WaitingSources` this is a search among all items of the queue:
`getNext_spec` says that nothing is missed, and which item is preferred.
-/

namespace Airdcpp

open Lib ListMap

/-- The texts that `lastError_` can get. -/
inductive DownloadError
  | noAccessOnlineHubs
  | userOffline
  | maxBundlesRunning
deriving DecidableEq, Repr

structure QueueDownloadQuery where
  user : UserPtr
  downloadType : QueueDownloadType := .any
  wantedSize : Int := 0
  lastSpeed : Int := 0
  minPrio : Priority := .lowest
  onlineHubs : List Str
  runningBundles : List QueueToken

/-- What is known of an item that is running: its downloads, and whether the first of them is of
    the hash tree. The wanted size has been scaled. -/
structure ItemDownloads where
  segments : SegmentEnv := {}
  treeDownload : Bool := false
  blockSize : Int := 0
  scaledSize : Int := 0

/-- What the search looks at beside the queue. -/
structure DownloadEnv where
  running : QueueItemPtr → ItemDownloads := fun _ => {}
  /-- `Source::blockedHubs` -/
  blockedHubs : QueueItemPtr → UserPtr → List Str := fun _ _ => []
  isNmdc : UserPtr → Bool := fun _ => false
  /-- `SETTING(MAX_RUNNING_BUNDLES)` -/
  maxRunningBundles : Int := 0
  rand : Nat := 0

namespace QueueItem

def FLAG_TTHLIST_BUNDLE : MaskType := 0x100

def allowUrlChange (q : QueueItem) : Bool :=
  !isSet q.flags FLAG_USER_LIST || isSet q.flags FLAG_TTHLIST_BUNDLE

/-- `Source::validateHub` -/
def Source.validateHub (source : Source) (blockedHubs : List Str) (isNmdc : Bool)
    (aOnlineHubs : List Str) (aAllowUrlChange : Bool) (lastError_ : Option DownloadError) :
    Bool × Option DownloadError :=
  if !blockedHubs.isEmpty && aOnlineHubs.all (blockedHubs.contains ·) then
    (false, some .noAccessOnlineHubs)
  else if !isNmdc && !aAllowUrlChange && !aOnlineHubs.contains source.user.hint then
    (false, some .userOffline)
  else (true, lastError_)

def usesSmallSlot (q : QueueItem) : Bool :=
  isSet q.flags FLAG_PARTIAL_LIST ||
    (decide (q.size ≤ 65792) && !isSet q.flags FLAG_USER_LIST && isSet q.flags FLAG_CLIENT_VIEW)

def matchesDownloadType (q : QueueItem) : QueueDownloadType → Bool
  | .small => q.usesSmallSlot
  | .mcnNormal => !q.usesSmallSlot
  | .any => true

def allowSegmentedDownloads (q : QueueItem) (treeDownload : Bool) : Bool :=
  if isSet q.flags FLAG_USER_LIST || isSet q.flags FLAG_CLIENT_VIEW then false else !treeDownload

end QueueItem

namespace SourceQueues

variable (env : DownloadEnv) (aQuery : QueueDownloadQuery) (aAllowOverlap : Bool)

/-- Whether an item can be downloaded from the user now. A user that is no source of the item would
    be an undefined access. -/
def hasSegment (s : SourceQueues) (qi : QueueItemPtr) (lastError_ : Option DownloadError) :
    Bool × Option DownloadError :=
  let q := s.item qi
  let bundlePriority := q.bundle.map fun b => (s.bundle b).priority
  if q.isPausedPrio bundlePriority then (false, lastError_)
  else
    match q.getSource aQuery.user with
    | none => (false, lastError_)
    | some source =>
      let valid := source.validateHub (env.blockedHubs qi aQuery.user) (env.isNmdc aQuery.user)
        aQuery.onlineHubs q.allowUrlChange lastError_
      if !valid.1 then (false, valid.2)
      else if q.segmentsDone then (false, valid.2)
      else if !q.matchesDownloadType aQuery.downloadType then (false, valid.2)
      else if (env.running qi).segments.downloads.isEmpty then (true, valid.2)
      else if !q.allowSegmentedDownloads (env.running qi).treeDownload then (false, valid.2)
      else
        let parts := if source.partsInfo.isEmpty then none else some source.partsInfo
        let segment := q.getNextSegment
          { (env.running qi).segments with bundlePriority := bundlePriority }
          (env.running qi).blockSize (env.running qi).scaledSize aQuery.lastSpeed parts
          aAllowOverlap env.rand
        (segment.any fun n => decide (n.segment.size ≠ 0), valid.2)

def getNextPrioQI (s : SourceQueues) : Option QueueItemPtr × Option DownloadError :=
  findWith (s.hasSegment env aQuery aAllowOverlap) (listAt s.userPrioQueue aQuery.user) none

/-- The priorities from the highest one down to `minPrio`. The highest one is always looked at. -/
def prioritiesDown (minPrio : Priority) : List Priority :=
  Priority.all.reverse.takeWhile fun p => decide (p = .highest ∨ minPrio.toInt ≤ p.toInt)

/-- `Bundle::getNextQI` -/
def getNextQI (s : SourceQueues) (b : BundlePtr) (lastError_ : Option DownloadError) :
    Option QueueItemPtr × Option DownloadError :=
  findWith (s.hasSegment env aQuery aAllowOverlap)
    ((prioritiesDown aQuery.minPrio).flatMap fun p =>
      listAt ((s.bundle b).userQueue p) aQuery.user) lastError_

/-- There are as many running bundles as may be, and this is not one of them. -/
def limited (s : SourceQueues) (b : BundlePtr) : Bool :=
  decide (env.maxRunningBundles > 0) &&
    decide ((aQuery.runningBundles.length : Int) ≥ env.maxRunningBundles) &&
      !aQuery.runningBundles.contains (s.bundle b).token

/-- The loop over the bundles of the user. -/
def nextBundleQI (s : SourceQueues) : List BundlePtr → Bool → Option DownloadError →
    Option QueueItemPtr × Bool × Option DownloadError
  | [], hasDownload_, lastError_ => (none, hasDownload_, lastError_)
  | b :: l, hasDownload_, lastError_ =>
    if s.limited env aQuery b then nextBundleQI s l true (some .maxBundlesRunning)
    else if (s.bundle b).priority.toInt < aQuery.minPrio.toInt then
      (none, hasDownload_, lastError_)
    else
      match s.getNextQI env aQuery aAllowOverlap b lastError_ with
      | (some qi, lastError_) => (some qi, hasDownload_, lastError_)
      | (none, lastError_) => nextBundleQI s l hasDownload_ lastError_

def getNextBundleQI (s : SourceQueues) (hasDownload_ : Bool) :
    Option QueueItemPtr × Bool × Option DownloadError :=
  s.nextBundleQI env aQuery aAllowOverlap (listAt s.userBundleQueue aQuery.user) hasDownload_ none

/-- One round of `getNext`. -/
def getNextRound (s : SourceQueues) (hasDownload_ : Bool) :
    Option QueueItemPtr × Bool × Option DownloadError :=
  match s.getNextPrioQI env aQuery aAllowOverlap with
  | (some qi, lastError_) => (some qi, hasDownload_, lastError_)
  | (none, _) => s.getNextBundleQI env aQuery aAllowOverlap hasDownload_

/-- The item, `hasDownload_` and `lastError_`. -/
def getNext (s : SourceQueues) (hasDownload_ : Bool) :
    Option QueueItemPtr × Bool × Option DownloadError :=
  match s.getNextRound env aQuery false hasDownload_ with
  | (some qi, _, lastError_) => (some qi, true, lastError_)
  | (none, hasDownload_, _) =>
    match s.getNextRound env aQuery true hasDownload_ with
    | (some qi, _, lastError_) => (some qi, true, lastError_)
    | (none, hasDownload_, lastError_) => (none, hasDownload_, lastError_)

/-! ## What can be downloaded -/

variable {env aQuery aAllowOverlap}
variable {locale : Locale} {st : Settings} {s : SourceQueues} {q : QueueItemPtr} {b : BundlePtr}

/-- `hasSegment`, without the error. -/
def Ready (env : DownloadEnv) (aQuery : QueueDownloadQuery) (aAllowOverlap : Bool)
    (s : SourceQueues) (q : QueueItemPtr) : Bool :=
  (s.hasSegment env aQuery aAllowOverlap q none).1

/-- A bundle that may be started, and has no priority that is too low. -/
def Startable (env : DownloadEnv) (aQuery : QueueDownloadQuery) (s : SourceQueues)
    (b : BundlePtr) : Prop :=
  s.limited env aQuery b = false ∧ aQuery.minPrio.toInt ≤ (s.bundle b).priority.toInt

/-- An item that can be downloaded from the user. One of the highest priority needs no bundle. -/
structure Candidate (env : DownloadEnv) (aQuery : QueueDownloadQuery) (aAllowOverlap : Bool)
    (s : SourceQueues) (q : QueueItemPtr) : Prop where
  waits : Waits s q aQuery.user
  ready : Ready env aQuery aAllowOverlap s q = true
  bundle : (s.item q).priority = .highest ∨
    aQuery.minPrio.toInt ≤ (s.item q).priority.toInt ∧
      ∃ b, (s.item q).bundle = some b ∧ Startable env aQuery s b

/-- `q` is taken before `x`, or as well as `x`: the highest priority comes first, then the bundles
    in their order, and in a bundle the priority of the item. -/
def Before (s : SourceQueues) (q x : QueueItemPtr) : Prop :=
  (s.item q).priority = .highest ∨
    (s.item x).priority ≠ .highest ∧
      ∀ b c, (s.item q).bundle = some b → (s.item x).bundle = some c →
        ¬ Bundle.SortOrder (s.bundle c) (s.bundle b) ∧
          (b = c → (s.item x).priority.toInt ≤ (s.item q).priority.toInt)

theorem validateHub_fst (source : QueueItem.Source) (blockedHubs hubs : List Str)
    (isNmdc allow : Bool) (e : Option DownloadError) :
    (source.validateHub blockedHubs isNmdc hubs allow e).1 =
      (source.validateHub blockedHubs isNmdc hubs allow none).1 := by
  unfold QueueItem.Source.validateHub
  split
  · rfl
  · split <;> rfl

/-- The error that there is has no influence. -/
theorem hasSegment_fst (q : QueueItemPtr) (e : Option DownloadError) :
    (s.hasSegment env aQuery aAllowOverlap q e).1 = Ready env aQuery aAllowOverlap s q := by
  unfold Ready hasSegment
  dsimp only
  cases (s.item q).getSource aQuery.user with
  | none => simp only [apply_ite Prod.fst]
  | some source => simp only [apply_ite Prod.fst, validateHub_fst source _ _ _ _ e]

/-! ## The loops -/

variable (s env aQuery aAllowOverlap) in
theorem getNextPrioQI_fst : (s.getNextPrioQI env aQuery aAllowOverlap).1 =
    (listAt s.userPrioQueue aQuery.user).find? (Ready env aQuery aAllowOverlap s) :=
  findWith_fst hasSegment_fst _ _

/-- The items of a bundle, those of the highest priority first. -/
def itemsDown (s : SourceQueues) (aQuery : QueueDownloadQuery) (b : BundlePtr) :
    List QueueItemPtr :=
  (prioritiesDown aQuery.minPrio).flatMap fun p => listAt ((s.bundle b).userQueue p) aQuery.user

variable (s env aQuery aAllowOverlap b) in
theorem getNextQI_fst (e : Option DownloadError) :
    (s.getNextQI env aQuery aAllowOverlap b e).1 =
      (s.itemsDown aQuery b).find? (Ready env aQuery aAllowOverlap s) :=
  findWith_fst hasSegment_fst _ _

/-- The bundles that the search comes to. -/
def bundlesDown (s : SourceQueues) (env : DownloadEnv) (aQuery : QueueDownloadQuery)
    (l : List BundlePtr) : List BundlePtr :=
  (l.filter fun b => !s.limited env aQuery b).takeWhile fun b =>
    decide (aQuery.minPrio.toInt ≤ (s.bundle b).priority.toInt)

theorem nextBundleQI_fst (l : List BundlePtr) (hasDownload : Bool) (e : Option DownloadError) :
    (s.nextBundleQI env aQuery aAllowOverlap l hasDownload e).1 =
      (s.bundlesDown env aQuery l).findSome? fun b =>
        (s.itemsDown aQuery b).find? (Ready env aQuery aAllowOverlap s) := by
  induction l generalizing hasDownload e with
  | nil => rfl
  | cons b l ih =>
    rw [nextBundleQI, bundlesDown]
    cases hlimited : s.limited env aQuery b with
    | true =>
      rw [List.filter_cons_of_neg (by rw [hlimited]; exact Bool.false_ne_true)]
      exact ih true _
    | false =>
      rw [List.filter_cons_of_pos (by rw [hlimited]; rfl), if_neg Bool.false_ne_true,
        List.takeWhile_cons]
      by_cases hprio : aQuery.minPrio.toInt ≤ (s.bundle b).priority.toInt
      · rw [if_neg (by omega), if_pos (decide_eq_true hprio), List.findSome?_cons]
        have hfst := getNextQI_fst env aQuery aAllowOverlap s b e
        cases hn : s.getNextQI env aQuery aAllowOverlap b e with
        | mk r e' =>
          rw [hn] at hfst
          rw [← hfst]
          cases r with
          | some qi => rfl
          | none => exact ih hasDownload e'
      · rw [if_pos (by omega), if_neg (by simpa using hprio)]
        rfl

/-! ## Order -/

theorem mem_prioritiesDown {minPrio p : Priority} (h : minPrio ≠ .default) :
    p ∈ prioritiesDown minPrio ↔ p = .highest ∨ minPrio.toInt ≤ p.toInt := by
  cases minPrio <;> cases p <;> first | exact absurd rfl h | decide

theorem pairwise_prioritiesDown (minPrio : Priority) :
    (prioritiesDown minPrio).Pairwise fun p p' => p'.toInt < p.toInt := by
  cases minPrio <;> decide

theorem mem_itemsDown (h : Agree s) (hprio : aQuery.minPrio ≠ .default) :
    q ∈ s.itemsDown aQuery b ↔ Waits s q aQuery.user ∧ (s.item q).bundle = some b ∧
      ((s.item q).priority = .highest ∨
        aQuery.minPrio.toInt ≤ (s.item q).priority.toInt) := by
  unfold itemsDown
  rw [List.mem_flatMap]
  constructor
  · rintro ⟨p, hp, hq⟩
    obtain ⟨hw, hb, hqp⟩ := ((h.bundleItems b p aQuery.user).2 q).mp hq
    rw [mem_prioritiesDown hprio, ← hqp] at hp
    exact ⟨hw, hb, hp⟩
  · rintro ⟨hw, hb, hp⟩
    exact ⟨_, (mem_prioritiesDown hprio).mpr hp,
      ((h.bundleItems b _ aQuery.user).2 q).mpr ⟨hw, hb, rfl⟩⟩

theorem pairwise_itemsDown (h : Agree s) : (s.itemsDown aQuery b).Pairwise fun x y =>
    (s.item y).priority.toInt ≤ (s.item x).priority.toInt := by
  have hprio : ∀ p, ∀ x ∈ listAt ((s.bundle b).userQueue p) aQuery.user,
      (s.item x).priority = p := fun p x hx =>
    (((h.bundleItems b p aQuery.user).2 x).mp hx).2.2
  unfold itemsDown
  rw [List.pairwise_flatMap]
  refine ⟨fun p _ => List.pairwise_of_forall_mem_list fun x hx y hy => ?_, ?_⟩
  · rw [hprio p x hx, hprio p y hy]
  · refine (pairwise_prioritiesDown _).imp fun hlt x hx y hy => ?_
    rw [hprio _ x hx, hprio _ y hy]
    exact hlt.le

/-- The search stops at the first bundle with a priority that is too low, and so do all bundles
    behind it. -/
theorem mem_bundlesDown (h : Agree s) :
    b ∈ s.bundlesDown env aQuery (listAt s.userBundleQueue aQuery.user) ↔
      (∃ q, Waits s q aQuery.user ∧ (s.item q).bundle = some b) ∧
        Startable env aQuery s b := by
  have hsorted := (h.sorted aQuery.user).filter fun b => !s.limited env aQuery b
  unfold bundlesDown Startable
  rw [takeWhile_eq_filter, List.mem_filter, List.mem_filter, (h.bundles aQuery.user).2,
    Bool.not_eq_true', decide_eq_true_eq, and_assoc]
  refine hsorted.imp fun hxy hy => ?_
  rw [decide_eq_true_eq] at hy ⊢
  rw [Bundle.sortOrder_iff] at hxy
  omega

theorem pairwise_bundlesDown (h : Agree s) :
    (s.bundlesDown env aQuery (listAt s.userBundleQueue aQuery.user)).Pairwise fun x y =>
      ¬ Bundle.SortOrder (s.bundle y) (s.bundle x) :=
  ((h.sorted aQuery.user).filter _).sublist (List.takeWhile_sublist _)

/-! ## What is found -/

theorem getNextRound_fst (hasDownload : Bool) :
    (s.getNextRound env aQuery aAllowOverlap hasDownload).1 =
      ((listAt s.userPrioQueue aQuery.user).find? (Ready env aQuery aAllowOverlap s)).or
        ((s.bundlesDown env aQuery (listAt s.userBundleQueue aQuery.user)).findSome? fun b =>
          (s.itemsDown aQuery b).find? (Ready env aQuery aAllowOverlap s)) := by
  have hfst := getNextPrioQI_fst env aQuery aAllowOverlap s
  unfold getNextRound
  cases hn : s.getNextPrioQI env aQuery aAllowOverlap with
  | mk r e =>
    rw [hn] at hfst
    rw [← hfst]
    cases r with
    | some qi => rfl
    | none => exact nextBundleQI_fst _ _ _

variable (env aAllowOverlap) in
/-- The item of one round: the best one of all that can be downloaded, and none only if there is
    none. -/
theorem getNextRound_spec (h : Agree s) (hprio : aQuery.minPrio ≠ .default) (hasDownload : Bool) :
    match (s.getNextRound env aQuery aAllowOverlap hasDownload).1 with
    | none => ∀ x, ¬ Candidate env aQuery aAllowOverlap s x
    | some q => Candidate env aQuery aAllowOverlap s q ∧
        ∀ x, Candidate env aQuery aAllowOverlap s x → Before s q x := by
  have hprioItem := (h.prioItems aQuery.user).2
  rw [getNextRound_fst]
  cases hfound : (listAt s.userPrioQueue aQuery.user).find?
      (Ready env aQuery aAllowOverlap s) with
  | some q =>
    obtain ⟨hw, hp⟩ := (hprioItem q).mp (List.mem_of_find?_eq_some hfound)
    exact ⟨⟨hw, List.find?_some hfound, Or.inl hp⟩, fun x _ => Or.inl hp⟩
  | none =>
    -- an item of the highest priority would have been found
    have hlow : ∀ x, Candidate env aQuery aAllowOverlap s x →
        (s.item x).priority ≠ .highest := fun x hx hp =>
      List.find?_eq_none.mp hfound x ((hprioItem x).mpr ⟨hx.waits, hp⟩) hx.ready
    have hlisted : ∀ x, Candidate env aQuery aAllowOverlap s x → ∃ c,
        (s.item x).bundle = some c ∧
          c ∈ s.bundlesDown env aQuery (listAt s.userBundleQueue aQuery.user) ∧
            x ∈ s.itemsDown aQuery c := by
      intro x hx
      obtain ⟨hmin, c, hc, hstart⟩ := hx.bundle.resolve_left (hlow x hx)
      exact ⟨c, hc, (mem_bundlesDown h).mpr ⟨⟨x, hx.waits, hc⟩, hstart⟩,
        (mem_itemsDown h hprio).mpr ⟨hx.waits, hc, Or.inr hmin⟩⟩
    cases hbundle : (s.bundlesDown env aQuery (listAt s.userBundleQueue aQuery.user)).findSome?
        fun b => (s.itemsDown aQuery b).find? (Ready env aQuery aAllowOverlap s) with
    | none =>
      intro x hx
      obtain ⟨c, -, hc, hxc⟩ := hlisted x hx
      exact List.find?_eq_none.mp (List.findSome?_eq_none_iff.mp hbundle c hc) x hxc hx.ready
    | some q =>
      obtain ⟨b, hb, hq, hbest⟩ := findSome?_pairwise hbundle (pairwise_bundlesDown h)
      have hready := List.find?_some hq
      obtain ⟨hw, hqb, hqp⟩ := (mem_itemsDown h hprio).mp (List.mem_of_find?_eq_some hq)
      have hqlow : (s.item q).priority ≠ .highest := fun hp =>
        List.find?_eq_none.mp hfound q ((hprioItem q).mpr ⟨hw, hp⟩) hready
      refine ⟨⟨hw, hready, Or.inr ⟨hqp.resolve_left hqlow, b, hqb,
        ((mem_bundlesDown h).mp hb).2⟩⟩, fun x hx => Or.inr ⟨hlow x hx, ?_⟩⟩
      intro b' c hqb' hxc
      obtain rfl : b = b' := Option.some.inj (hqb.symm.trans hqb')
      obtain ⟨c', hxc', hc, hitems⟩ := hlisted x hx
      obtain rfl : c = c' := Option.some.inj (hxc.symm.trans hxc')
      refine ⟨?_, ?_⟩
      · rcases hbest c hc (List.find?_isSome.mpr ⟨x, hitems, hx.ready⟩) with rfl | hnot
        · exact fun hself => Bundle.SortOrder.asymm hself hself
        · exact hnot
      · rintro rfl
        rcases find?_pairwise hq (pairwise_itemsDown h) x hitems hx.ready with rfl | hle
        · exact le_refl _
        · exact hle

variable (env aQuery) in
/-- **The next download of a user.** In every state that the queue comes to, `getNext` gives
    nothing only if nothing can be downloaded from the user, not even by overlapping a slow
    download. What it gives can be downloaded, overlapping another download only if there is
    nothing else, and no item that can be downloaded comes before it. -/
theorem getNext_spec (h : Reaches (operations locale st) Empty s)
    (hprio : aQuery.minPrio ≠ .default) (hasDownload : Bool) :
    match (s.getNext env aQuery hasDownload).1 with
    | none => ∀ overlap x, ¬ Candidate env aQuery overlap s x
    | some q => ∃ overlap, (overlap = true → ∀ x, ¬ Candidate env aQuery false s x) ∧
        Candidate env aQuery overlap s q ∧
          ∀ x, Candidate env aQuery overlap s x → Before s q x := by
  have hagree := sources_agree h
  have hplain := getNextRound_spec env false hagree hprio hasDownload
  unfold getNext
  cases hround : s.getNextRound env aQuery false hasDownload with
  | mk r rest =>
    rw [hround] at hplain
    cases r with
    | some q => exact ⟨false, nofun, hplain⟩
    | none =>
      have hoverlap := getNextRound_spec env true hagree hprio rest.1
      dsimp only at hplain ⊢
      cases hround' : s.getNextRound env aQuery true rest.1 with
      | mk r' rest' =>
        rw [hround'] at hoverlap
        cases r' with
        | some q => exact ⟨true, fun _ => hplain, hoverlap⟩
        | none =>
          intro overlap x
          cases overlap with
          | false => exact hplain x
          | true => exact hoverlap x

/-- The file of the sample is the next download of its user. -/
theorem getNext_spec_sampleState :
    (sampleState.getNext {} ⟨sampleUser.user, .any, 0, 0, .lowest, [[]], []⟩ false).1 = some 5 ∧
      ∃ overlap, Candidate {} ⟨sampleUser.user, .any, 0, 0, .lowest, [[]], []⟩ overlap
        sampleState 5 := by
  have hspec := getNext_spec {} ⟨sampleUser.user, .any, 0, 0, .lowest, [[]], []⟩
    reaches_sampleState (by decide) false
  have hnext : (sampleState.getNext {} ⟨sampleUser.user, .any, 0, 0, .lowest, [[]], []⟩ false).1 =
      some 5 := by decide
  rw [hnext] at hspec
  obtain ⟨overlap, -, hc, -⟩ := hspec
  exact ⟨hnext, overlap, hc⟩

end SourceQueues
end Airdcpp
