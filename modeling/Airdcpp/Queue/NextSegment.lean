import Airdcpp.Lib.Loop
import Airdcpp.Queue.PartsInfo

/-!
# `Queue/NextSegment` — the part of a file that a connection downloads next

`getNextSegment` hands out the whole file at once, or looks for a free place among the finished and
the running segments. The search is a loop (`scanRound`): it probes the range of the wanted size at
its position, shrinks the probe block by block while it overlaps something, and goes on behind it.
A single block is taken unless it is finished entirely, or somebody downloads some of it. With the
parts of a peer the search does not stop at the first free range; it collects what the peer has of
each, and one of these is drawn by lot.

The size that is wanted comes out of floating-point arithmetic, and is an argument here
(`scaledSize`).
-/

namespace Airdcpp

open Lib

namespace Util

/-- It rounds to the nearest multiple. -/
def roundDown (size blockSize : Int) : Int :=
  (size + blockSize.tdiv 2).tdiv blockSize * blockSize

def roundUp (size blockSize : Int) : Int := (size + blockSize - 1).tdiv blockSize * blockSize

end Util

/-- `Download`, as far as it is asked for the next segment. -/
structure RunningDownload where
  segment : Segment
  pos : Int
  overlapped : Bool := false
  start : Int := 0
  secondsLeft : Int := 0

/-- What an item is asked for the next segment with. -/
structure SegmentEnv where
  multiChunk : Bool := true
  overlapSlowSources : Bool := true
  /-- `GET_TICK()` -/
  tick : Int := 0
  /-- The priority of the item's bundle, if it has one -/
  bundlePriority : Option Priority := none
  downloads : List RunningDownload := []

/-- A segment, and whether it is marked as overlapping a running one. -/
structure NextSegment where
  segment : Segment
  overlapped : Bool := false
deriving DecidableEq

namespace QueueItem

open PartsInfo SegmentSet

def isPaused (priority : Priority) : Bool := priority == .pausedForce || priority == .paused

def isPausedPrio (q : QueueItem) (bundlePriority : Option Priority) : Bool :=
  match bundlePriority with
  | some bundle =>
    if q.priority = .highest ∧ bundle ≠ .pausedForce then false
    else if isPaused bundle then true
    else isPaused q.priority
  | none => isPaused q.priority

/-- The loop over the downloads overlaps the first slow one. -/
def checkOverlaps (env : SegmentEnv) (aBlockSize aLastSpeed : Int) (aPartsInfo : Option PartsInfo)
    (aAllowOverlap : Bool) : NextSegment :=
  if aAllowOverlap && aPartsInfo.isNone && env.bundlePriority.isSome && env.overlapSlowSources &&
      decide (aLastSpeed > 0) then
    let slow := env.downloads.findSome? fun d =>
      if d.overlapped then none
      else if d.start = 0 ∨ env.tick - d.start < 4000 then none
      else if d.secondsLeft < 20 then none
      else
        let pos := d.pos - d.pos.tmod aBlockSize
        let chunkSize := d.segment.size - pos
        let newChunkLeft := chunkSize.tdiv aLastSpeed
        if 2 * newChunkLeft < d.secondsLeft then
          some { segment := ⟨d.segment.start + pos, chunkSize⟩, overlapped := true : NextSegment }
        else none
    slow.getD { segment := ⟨0, 0⟩ }
  else { segment := ⟨0, 0⟩ }

/-- What is downloaded without segments. -/
def wholeFileSegment (q : QueueItem) (aBlockSize : Int) : Segment :=
  match q.done.toList with
  | [] => ⟨0, min q.size q.size - 0⟩
  | first :: rest =>
    if first.start > 0 then ⟨0, min q.size (Util.roundUp first.start aBlockSize) - 0⟩
    else
      let start := Util.roundDown first.getEnd aBlockSize
      match rest with
      | [] => ⟨start, min q.size q.size - start⟩
      | second :: _ => ⟨start, min q.size (Util.roundUp second.start aBlockSize) - start⟩

/-! ## The search -/

/-- Where the search is. -/
structure Scan where
  start : Int := 0
  curSize : Int
  neededParts : List Segment := []

/-- What it ends with. -/
inductive Scanned
  | block (block : Segment)
  | parts (neededParts : List Segment)

/-- A finished segment is in the way; a single block has to be finished entirely. -/
def inTheWay (aBlockSize curSize : Int) (block i : Segment) : Bool :=
  if curSize ≤ aBlockSize then decide (i.start ≤ block.start) && decide (i.getEnd ≥ block.getEnd)
  else block.overlaps i

def isTaken (q : QueueItem) (env : SegmentEnv) (aBlockSize curSize : Int) (block : Segment) :
    Bool :=
  q.done.toList.any (inTheWay aBlockSize curSize block) ||
    env.downloads.any fun d => block.overlaps d.segment

/-- What a peer has of a range. -/
def chunks (posArray : List Int) (block : Segment) : List Segment :=
  (pairs posArray).filterMap fun j =>
    if j.1 ≤ block.start ∧ block.start < j.2 ∨ block.start ≤ j.1 ∧ j.1 < block.getEnd then
      some (Segment.between (max block.start j.1) (min block.getEnd j.2))
    else none

/-- One round of the loop. -/
def scanRound (q : QueueItem) (env : SegmentEnv) (aBlockSize targetSize : Int)
    (posArray : Option (List Int)) (s : Scan) : Option (Scanned ⊕ Scan) :=
  if s.start < q.size then
    let fin := min q.size (s.start + s.curSize)
    let block := Segment.between s.start fin
    if isTaken q env aBlockSize s.curSize block then
      if s.curSize > aBlockSize then some (.inr { s with curSize := s.curSize - aBlockSize })
      else some (.inr { s with start := fin, curSize := targetSize })
    else
      match posArray with
      | none => some (.inl (.block block))
      | some pos =>
        some (.inr { start := fin, curSize := targetSize
                     neededParts := s.neededParts ++ chunks pos block })
  else some (.inl (.parts s.neededParts))

/-- Rounds enough (`scan_eq_some_iff`). -/
def rounds (q : QueueItem) (targetSize : Int) : Nat :=
  q.size.toNat * (targetSize.toNat + 1) + targetSize.toNat + 1

/-- Block indices as positions in the file. -/
def positions (q : QueueItem) (aBlockSize : Int) (aPartsInfo : PartsInfo) : List Int :=
  aPartsInfo.map fun (index : Nat) => min q.size (index * aBlockSize)

def scan (q : QueueItem) (env : SegmentEnv) (aBlockSize targetSize : Int)
    (aPartsInfo : Option PartsInfo) : Option Scanned :=
  Loop.run (scanRound q env aBlockSize targetSize (aPartsInfo.map (q.positions aBlockSize)))
    (rounds q targetSize) { curSize := targetSize }

/-- The wanted size in blocks, at least one. -/
def roundTarget (scaledSize aBlockSize : Int) : Int :=
  if scaledSize > aBlockSize then Util.roundDown scaledSize aBlockSize else aBlockSize

/-- `rand` is what the random number generator gives. -/
def getNextSegment (q : QueueItem) (env : SegmentEnv) (aBlockSize scaledSize aLastSpeed : Int)
    (aPartsInfo : Option PartsInfo) (aAllowOverlap : Bool) (rand : Nat) : Option NextSegment :=
  if q.size = -1 ∨ aBlockSize = 0 then some { segment := ⟨0, -1⟩ }
  else if !env.multiChunk || decide (aBlockSize ≥ q.size) then
    if env.downloads.isEmpty then some { segment := q.wholeFileSegment aBlockSize }
    else some (checkOverlaps env aBlockSize aLastSpeed aPartsInfo aAllowOverlap)
  else if q.isPausedPrio env.bundlePriority || decide (env.downloads.length ≥ q.maxSegments) then
    some { segment := ⟨-1, 0⟩ }
  else
    let targetSize := roundTarget scaledSize aBlockSize
    (q.scan env aBlockSize targetSize aPartsInfo).map fun scanned =>
      match scanned with
      | .block block => { segment := block }
      | .parts neededParts =>
        if neededParts.isEmpty then
          checkOverlaps env aBlockSize aLastSpeed aPartsInfo aAllowOverlap
        else
          let selected := neededParts.getD (rand % neededParts.length) ⟨0, 0⟩
          { segment := ⟨selected.start, min selected.size targetSize⟩ }

/-! ## What the search finds -/

/-- Nothing is in the way of a block: it is not finished entirely, and nobody downloads any of
    it. -/
def Free (q : QueueItem) (env : SegmentEnv) (bs k : Int) : Prop :=
  (∀ i ∈ q.done.toList, ¬ (i.start ≤ k * bs ∧ min q.size ((k + 1) * bs) ≤ i.getEnd)) ∧
    ∀ d ∈ env.downloads,
      (Segment.between (k * bs) (min q.size ((k + 1) * bs))).overlaps d.segment = false

/-- A range of blocks that are all free. -/
structure Clear (q : QueueItem) (env : SegmentEnv) (bs : Int) (b : Segment) : Prop where
  low : 0 ≤ b.start
  aligned : bs ∣ b.start
  nonempty : b.start < b.getEnd
  inside : b.getEnd ≤ q.size
  alignedEnd : bs ∣ b.getEnd ∨ b.getEnd = q.size
  free : ∀ k, b.start ≤ k * bs → k * bs < b.getEnd → Free q env bs k
  running : ∀ d ∈ env.downloads, b.overlaps d.segment = false

/-- What holds in each round: a free block behind which the search is lies in a clear range, and
    what the peer has of that range was collected. -/
structure ScanInv (q : QueueItem) (env : SegmentEnv) (bs target : Int) (pos : Option (List Int))
    (s : Scan) : Prop where
  low : 0 ≤ s.start
  inside : s.start ≤ q.size
  aligned : bs ∣ s.start ∨ s.start = q.size
  curAligned : bs ∣ s.curSize
  curLow : bs ≤ s.curSize
  curHigh : s.curSize ≤ target
  tried : ∀ k, 0 ≤ k → k * bs < s.start → Free q env bs k →
    ∃ p, pos = some p ∧ ∃ b, Clear q env bs b ∧ b.start ≤ k * bs ∧ k * bs < b.getEnd ∧
      ∀ c ∈ chunks p b, c ∈ s.neededParts
  collected : ∀ c ∈ s.neededParts, ∃ p, pos = some p ∧ ∃ b, Clear q env bs b ∧ c ∈ chunks p b

section Search

variable {q : QueueItem} {env : SegmentEnv} {bs target : Int} {pos : Option (List Int)}
  {s t : Scan} {block : Segment}

theorem overlaps_of_contained {b c d : Segment} (hstart : b.start ≤ c.start)
    (hend : c.getEnd ≤ b.getEnd) (h : b.overlaps d = false) : c.overlaps d = false := by
  simp only [Segment.overlaps, Bool.and_eq_false_iff, decide_eq_false_iff_not, not_lt] at h ⊢
  rcases h with h | h
  · exact .inl (le_trans h hstart)
  · exact .inr (le_trans hend h)

/-- **A probe that nothing is in the way of is clear.** -/
theorem clear_of_not_taken (hbs : 0 < bs) (h : ScanInv q env bs target pos s)
    (hlt : s.start < q.size)
    (hfree : isTaken q env bs s.curSize
      (Segment.between s.start (min q.size (s.start + s.curSize))) = false) :
    Clear q env bs (Segment.between s.start (min q.size (s.start + s.curSize))) := by
  have hcur : 0 < s.curSize := lt_of_lt_of_le hbs h.curLow
  have haligned : bs ∣ s.start := h.aligned.resolve_right hlt.ne
  have hfin : bs ∣ s.start + s.curSize := Int.dvd_add haligned h.curAligned
  obtain ⟨hdone, hrunning⟩ := Bool.or_eq_false_iff.mp hfree
  have hrunning' := List.any_eq_false.mp hrunning
  refine ⟨h.low, haligned, ?_, ?_, ?_, ?_, fun d hd => by simpa using hrunning' d hd⟩
  · rw [Segment.between_start, Segment.between_getEnd]
    exact lt_min hlt (lt_add_of_pos_right _ hcur)
  · rw [Segment.between_getEnd]
    exact min_le_left _ _
  · rw [Segment.between_getEnd]
    rcases le_total q.size (s.start + s.curSize) with hle | hle
    · exact .inr (min_eq_left hle)
    · rw [min_eq_right hle]
      exact .inl hfin
  · intro k hk hk'
    rw [Segment.between_start] at hk
    rw [Segment.between_getEnd] at hk'
    -- the block does not reach behind the probe
    have hnext : (k + 1) * bs ≤ s.start + s.curSize := by
      obtain ⟨m, hm⟩ := hfin
      rw [hm, mul_comm bs]
      refine mul_le_mul_of_nonneg_right ?_ hbs.le
      have hlt' : k * bs < m * bs := by
        rw [mul_comm m, ← hm]
        exact lt_of_lt_of_le hk' (min_le_right _ _)
      exact lt_of_mul_lt_mul_right hlt' hbs.le
    refine ⟨fun i hi hcontains => ?_, fun d hd => ?_⟩
    · have hway := List.any_eq_false.mp hdone i hi
      refine hway ?_
      rw [inTheWay]
      split
      · rename_i hone
        -- the probe is this very block
        have hk1 : k * bs = s.start := by
          have hk2 : (k + 1) * bs = k * bs + bs := by ring
          omega
        have hk2 : (k + 1) * bs = s.start + s.curSize := by
          have hk3 : (k + 1) * bs = k * bs + bs := by ring
          have := h.curLow
          omega
        rw [Segment.between_start, Segment.between_getEnd, Bool.and_eq_true, decide_eq_true_eq,
          decide_eq_true_eq, ← hk2, ← hk1]
        exact hcontains
      · have hk3 : k * bs < (k + 1) * bs := by
          rw [add_mul, one_mul]
          exact lt_add_of_pos_right _ hbs
        have hin : k * bs < min q.size ((k + 1) * bs) :=
          lt_min (lt_of_lt_of_le hk' (min_le_left _ _)) hk3
        rw [Segment.overlaps, Segment.between_start, Segment.between_getEnd, Bool.and_eq_true,
          decide_eq_true_eq, decide_eq_true_eq]
        exact ⟨lt_of_le_of_lt hk (lt_of_lt_of_le hin hcontains.2), lt_of_le_of_lt hcontains.1 hk'⟩
    · refine overlaps_of_contained hk ?_ (by simpa using hrunning' d hd)
      rw [Segment.between_getEnd, Segment.between_getEnd]
      exact min_le_min_left _ hnext

/-- A single block that something is in the way of is not free. -/
theorem not_free_of_taken {k : Int} (hk : s.start = k * bs) (hcur : s.curSize = bs)
    (htaken : isTaken q env bs s.curSize
      (Segment.between s.start (min q.size (s.start + s.curSize))) = true) :
    ¬ Free q env bs k := by
  have hfin : s.start + s.curSize = (k + 1) * bs := by
    rw [hk, hcur]
    ring
  rw [hfin, hk, isTaken, Bool.or_eq_true, List.any_eq_true, List.any_eq_true] at htaken
  intro hfree
  rcases htaken with ⟨i, hi, hway⟩ | ⟨d, hd, hover⟩
  · rw [inTheWay, if_pos hcur.le, Segment.between_start, Segment.between_getEnd, Bool.and_eq_true,
      decide_eq_true_eq, decide_eq_true_eq] at hway
    exact hfree.1 i hi hway
  · rw [hfree.2 d hd] at hover
    cases hover

/-- The search behind a probe. -/
theorem ScanInv.behind {parts : List Segment} (hbs : 0 < bs) (htarget : bs ≤ target)
    (htargetDvd : bs ∣ target) (h : ScanInv q env bs target pos s) (hlt : s.start < q.size)
    (hparts : ∀ c ∈ s.neededParts, c ∈ parts)
    (hcollected : ∀ c ∈ parts, ∃ p, pos = some p ∧ ∃ b, Clear q env bs b ∧ c ∈ chunks p b)
    (htried : ∀ k, s.start ≤ k * bs → k * bs < min q.size (s.start + s.curSize) →
      Free q env bs k → ∃ p, pos = some p ∧ ∃ b, Clear q env bs b ∧ b.start ≤ k * bs ∧
        k * bs < b.getEnd ∧ ∀ c ∈ chunks p b, c ∈ parts) :
    ScanInv q env bs target pos
      { start := min q.size (s.start + s.curSize), curSize := target, neededParts := parts } where
  low := le_min (le_trans h.low hlt.le) (add_nonneg h.low (le_trans hbs.le h.curLow))
  inside := min_le_left _ _
  aligned := by
    rcases le_total q.size (s.start + s.curSize) with hle | hle
    · exact .inr (min_eq_left hle)
    · rw [min_eq_right hle]
      exact .inl (Int.dvd_add (h.aligned.resolve_right hlt.ne) h.curAligned)
  curAligned := htargetDvd
  curLow := htarget
  curHigh := le_rfl
  tried k hk hkfin hfree := by
    by_cases hbefore : k * bs < s.start
    · obtain ⟨p, hp, b, hb, hkb, hkb', hin⟩ := h.tried k hk hbefore hfree
      exact ⟨p, hp, b, hb, hkb, hkb', fun c hc => hparts c (hin c hc)⟩
    · exact htried k (not_lt.mp hbefore) hkfin hfree
  collected := hcollected

/-- **One round.** -/
theorem scanRound_spec (hbs : 0 < bs) (htarget : bs ≤ target) (htargetDvd : bs ∣ target)
    (h : ScanInv q env bs target pos s) :
    (∃ b, scanRound q env bs target pos s = some (.inl (.block b)) ∧ pos = none ∧
        Clear q env bs b) ∨
      scanRound q env bs target pos s = some (.inl (.parts s.neededParts)) ∧ s.start = q.size ∨
      ∃ t, scanRound q env bs target pos s = some (.inr t) ∧ ScanInv q env bs target pos t ∧
        (t.start = s.start ∧ t.curSize < s.curSize ∧ s.start < q.size ∨
          s.start < t.start ∧ t.curSize = target) := by
  rw [scanRound]
  split
  · rename_i hlt
    have hcur : 0 < s.curSize := lt_of_lt_of_le hbs h.curLow
    have hfin : s.start < min q.size (s.start + s.curSize) :=
      lt_min hlt (lt_add_of_pos_right _ hcur)
    dsimp only
    split
    · rename_i htaken
      split
      · rename_i hwide
        refine .inr (.inr ⟨_, rfl, ?_, .inl ⟨rfl, sub_lt_self _ hbs, hlt⟩⟩)
        have hle : bs ≤ s.curSize - bs := by
          obtain ⟨m, hm⟩ := h.curAligned
          have hm1 : 1 < m := by
            refine lt_of_mul_lt_mul_left ?_ hbs.le
            rw [mul_one, ← hm]
            exact hwide
          have hm2 : bs * 2 ≤ bs * m := mul_le_mul_of_nonneg_left hm1 hbs.le
          omega
        exact ⟨h.low, h.inside, h.aligned, Int.dvd_sub h.curAligned (Int.dvd_refl _), hle,
          le_trans (sub_le_self _ hbs.le) h.curHigh, h.tried, h.collected⟩
      · rename_i hone
        have hcurSize : s.curSize = bs := le_antisymm (not_lt.mp hone) h.curLow
        refine .inr (.inr ⟨_, rfl, ?_, .inr ⟨hfin, rfl⟩⟩)
        refine h.behind hbs htarget htargetDvd hlt (fun c hc => hc) h.collected ?_
        intro k hk hk' hfree
        -- the block is the one that is taken
        obtain ⟨m, hm⟩ := h.aligned.resolve_right hlt.ne
        have hkm : k = m := by
          have hlow : m * bs ≤ k * bs := by rwa [mul_comm m, ← hm]
          have hend : (m + 1) * bs = s.start + s.curSize := by
            rw [hm, hcurSize]
            ring
          have hhigh : k * bs < (m + 1) * bs := hend ▸ lt_of_lt_of_le hk' (min_le_right _ _)
          have h1 := le_of_mul_le_mul_right hlow hbs
          have h2 := lt_of_mul_lt_mul_right hhigh hbs.le
          omega
        exact absurd hfree (not_free_of_taken (by rw [hkm, hm, mul_comm]) hcurSize htaken)
    · rename_i hfree
      have hclear := clear_of_not_taken hbs h hlt (Bool.eq_false_iff.mpr hfree)
      cases pos with
      | none => exact .inl ⟨_, rfl, rfl, hclear⟩
      | some p =>
        refine .inr (.inr ⟨_, rfl, ?_, .inr ⟨hfin, rfl⟩⟩)
        refine h.behind hbs htarget htargetDvd hlt (fun c hc => List.mem_append_left _ hc) ?_ ?_
        · intro c hc
          rcases List.mem_append.mp hc with hc | hc
          · exact h.collected c hc
          · exact ⟨p, rfl, _, hclear, hc⟩
        · intro k hk hk' _
          refine ⟨p, rfl, _, hclear, hk, ?_, fun c hc => List.mem_append_right _ hc⟩
          rwa [Segment.between_getEnd]
  · rename_i hnot
    exact .inr (.inl ⟨rfl, le_antisymm h.inside (not_lt.mp hnot)⟩)

theorem scanInv_start (hbs : 0 < bs) (hsize : 0 ≤ q.size) (htarget : bs ≤ target)
    (htargetDvd : bs ∣ target) : ScanInv q env bs target pos { curSize := target } where
  low := le_rfl
  inside := hsize
  aligned := .inl (Int.dvd_zero bs)
  curAligned := htargetDvd
  curLow := htarget
  curHigh := le_rfl
  tried _ hk hlt _ := absurd hlt (not_lt.mpr (mul_nonneg hk hbs.le))
  collected := by simp

/-- What is left to search, and the size of the probe. -/
def scanMeasure (q : QueueItem) (target : Int) (s : Scan) : Nat :=
  (q.size - s.start).toNat * (target.toNat + 1) + s.curSize.toNat

theorem scanMeasure_lt (hs : ScanInv q env bs target pos s) (ht : ScanInv q env bs target pos t)
    (hbs : 0 < bs)
    (h : t.start = s.start ∧ t.curSize < s.curSize ∧ s.start < q.size ∨
      s.start < t.start ∧ t.curSize = target) :
    scanMeasure q target t < scanMeasure q target s := by
  have hcur : 0 < s.curSize := lt_of_lt_of_le hbs hs.curLow
  unfold scanMeasure
  rcases h with ⟨hstart, hlt, -⟩ | ⟨hstart, hcur'⟩
  · rw [hstart]
    omega
  · -- the part that is left is smaller, which outweighs the probe
    have hleft : (q.size - t.start).toNat + 1 ≤ (q.size - s.start).toNat := by
      have := ht.inside
      omega
    have hmul := Nat.mul_le_mul_right (target.toNat + 1) hleft
    rw [Nat.add_mul, Nat.one_mul] at hmul
    rw [hcur']
    omega

/-- What the search ends with. -/
def Found (q : QueueItem) (env : SegmentEnv) (bs : Int) (pos : Option (List Int)) : Scanned → Prop
  | .block b => pos = none ∧ Clear q env bs b
  | .parts l =>
    (∀ k, 0 ≤ k → k * bs < q.size → Free q env bs k → ∃ p, pos = some p ∧
      ∃ b, Clear q env bs b ∧ b.start ≤ k * bs ∧ k * bs < b.getEnd ∧ ∀ c ∈ chunks p b, c ∈ l) ∧
    ∀ c ∈ l, ∃ p, pos = some p ∧ ∃ b, Clear q env bs b ∧ c ∈ chunks p b

theorem scanInv_steps (hbs : 0 < bs) (htarget : bs ≤ target) (htargetDvd : bs ∣ target)
    (h : ScanInv q env bs target pos s)
    (hsteps : Loop.Steps (scanRound q env bs target pos) s t) : ScanInv q env bs target pos t := by
  induction hsteps with
  | refl => exact h
  | tail _ hnext ih =>
    rw [Loop.Next] at hnext
    rcases scanRound_spec hbs htarget htargetDvd ih with ⟨b, heq, -⟩ | ⟨heq, -⟩ | ⟨u, heq, hu, -⟩
    · rw [heq] at hnext
      cases hnext
    · rw [heq] at hnext
      cases hnext
    · rw [heq] at hnext
      cases hnext
      exact hu

/-- **The search ends**, within the rounds it has. -/
theorem scan_ends (hbs : 0 < bs) (hsize : 0 ≤ q.size) (htarget : bs ≤ target)
    (htargetDvd : bs ∣ target) :
    ∃ x, Loop.run (scanRound q env bs target pos) (rounds q target) { curSize := target } =
      some x := by
  have hstart : ScanInv q env bs target pos { curSize := target } :=
    scanInv_start hbs hsize htarget htargetDvd
  refine Loop.run_of_not_stuck (scanMeasure q target)
    (fun s => ¬ ScanInv q env bs target pos s) ?_ ?_ ?_ ?_
  · intro s hs
    rcases scanRound_spec hbs htarget htargetDvd (not_not.mp hs) with
      ⟨b, heq, -⟩ | ⟨heq, -⟩ | ⟨u, heq, -⟩
    · simp [heq]
    · simp [heq]
    · simp [heq]
  · intro s t hs hnext
    rw [Loop.Next] at hnext
    rcases scanRound_spec hbs htarget htargetDvd (not_not.mp hs) with
      ⟨b, heq, -⟩ | ⟨heq, -⟩ | ⟨u, heq, hu, hdec⟩
    · rw [heq] at hnext
      cases hnext
    · rw [heq] at hnext
      cases hnext
    · rw [heq] at hnext
      cases hnext
      exact scanMeasure_lt (not_not.mp hs) hu hbs hdec
  · intro hstuck
    obtain ⟨t, hsteps, ht⟩ := hstuck
    exact ht (scanInv_steps hbs htarget htargetDvd hstart hsteps)
  · simp only [scanMeasure, rounds, sub_zero]
    omega

/-- **What the search finds**: a clear range, or what the peer has of the clear ranges, in one of
    which every free block is. -/
theorem scan_found {info : Option PartsInfo} (hbs : 0 < bs) (hsize : 0 ≤ q.size)
    (htarget : bs ≤ target) (htargetDvd : bs ∣ target) :
    ∃ x, q.scan env bs target info = some x ∧
      Found q env bs (info.map (q.positions bs)) x := by
  obtain ⟨x, hx⟩ := @scan_ends q env bs target (info.map (q.positions bs)) hbs hsize htarget
    htargetDvd
  refine ⟨x, hx, ?_⟩
  refine Loop.Returns.induct (P := ScanInv q env bs target (info.map (q.positions bs))) ?_ ?_
    ⟨_, hx⟩ (scanInv_start hbs hsize htarget htargetDvd)
  · intro s t hs hnext
    exact scanInv_steps hbs htarget htargetDvd hs (.single hnext)
  · intro s y hs hret
    rcases scanRound_spec hbs htarget htargetDvd hs with ⟨b, heq, hb⟩ | ⟨heq, hend⟩ | ⟨u, heq, -⟩
    · rw [heq] at hret
      cases hret
      exact hb
    · rw [heq] at hret
      cases hret
      exact ⟨fun k hk hlt => hs.tried k hk (hend ▸ hlt), hs.collected⟩
    · rw [heq] at hret
      cases hret

/-- The rounded target is a positive number of blocks. -/
theorem roundTarget_spec {scaledSize : Int} (hbs : 0 < bs) :
    bs ≤ roundTarget scaledSize bs ∧ bs ∣ roundTarget scaledSize bs := by
  unfold roundTarget
  split
  · rename_i hlt
    have hhalf : 0 ≤ bs.tdiv 2 := Int.tdiv_nonneg hbs.le (by decide)
    have hnum : 0 ≤ scaledSize + bs.tdiv 2 := by omega
    rw [Util.roundDown, Int.tdiv_eq_ediv_of_nonneg hnum]
    refine ⟨?_, Int.dvd_mul_left _ _⟩
    have hone : 1 ≤ (scaledSize + bs.tdiv 2) / bs := by
      rw [Int.le_ediv_iff_mul_le hbs]
      omega
    exact le_mul_of_one_le_left hbs.le hone
  · exact ⟨le_rfl, Int.dvd_refl _⟩

end Search

end QueueItem
end Airdcpp
