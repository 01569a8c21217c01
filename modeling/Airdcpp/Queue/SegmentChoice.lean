import Airdcpp.Queue.NextSegment

/-!
# `Queue/SegmentChoice` — what `getNextSegment` hands out, and what it leaves

A segment that the search hands out is made of free blocks, and lies in a range that the peer has.
A range of a peer that ends before it begins spoils this: what is collected of it has a negative
size. Such ranges come from the peer as they are, and do harm when the block they begin with is
free.

The search leaves no free block. Where the file is downloaded without segments, the first byte that
is not finished is missed when the finished part ends in the second half of a block.
-/

namespace Airdcpp

open Lib

namespace QueueItem

open PartsInfo SegmentSet

variable {q : QueueItem} {env : SegmentEnv} {bs scaledSize aLastSpeed target : Int}
  {info : Option PartsInfo} {parts : PartsInfo} {allow : Bool} {rand : Nat} {b c : Segment}

/-- A running item may get one more segment. -/
structure Segmented (q : QueueItem) (env : SegmentEnv) (bs : Int) : Prop where
  multiChunk : env.multiChunk = true
  positive : 0 < bs
  several : bs < q.size
  running : q.isPausedPrio env.bundlePriority = false
  few : env.downloads.length < q.maxSegments

theorem getNextSegment_segmented (h : Segmented q env bs) :
    q.getNextSegment env bs scaledSize aLastSpeed info allow rand =
      (q.scan env bs (roundTarget scaledSize bs) info).map fun scanned =>
        match scanned with
        | .block block => { segment := block }
        | .parts neededParts =>
          if neededParts.isEmpty then checkOverlaps env bs aLastSpeed info allow
          else
            let selected := neededParts.getD (rand % neededParts.length) ⟨0, 0⟩
            { segment := ⟨selected.start, min selected.size (roundTarget scaledSize bs)⟩ } := by
  have hpos := h.positive
  have hseveral := h.several
  have hsize : ¬ (q.size = -1 ∨ bs = 0) := by omega
  have hmode : (!env.multiChunk || decide (bs ≥ q.size)) = false := by
    rw [h.multiChunk, decide_eq_false (not_le.mpr hseveral)]
    rfl
  have hfree : (q.isPausedPrio env.bundlePriority ||
      decide (env.downloads.length ≥ q.maxSegments)) = false := by
    rw [h.running, decide_eq_false (not_le.mpr h.few)]
    rfl
  rw [getNextSegment, if_neg hsize, hmode, hfree]
  rfl

/-! ## What is handed out -/

/-- A segment of whole blocks that nobody downloads, that is not finished, and that the peer has. -/
structure Sound (q : QueueItem) (env : SegmentEnv) (bs : Int) (info : Option PartsInfo)
    (s : Segment) : Prop where
  low : 0 ≤ s.start
  high : s.getEnd ≤ q.size
  positive : 0 < s.size
  aligned : bs ∣ s.start
  alignedEnd : bs ∣ s.getEnd ∨ s.getEnd = q.size
  running : ∀ d ∈ env.downloads,
    Disjoint (Set.Ico s.start s.getEnd) (Set.Ico d.segment.start d.segment.getEnd)
  notDone : ∀ i ∈ q.done.toList, i.contains s = false
  advertised : ∀ parts ∈ info, ∃ p ∈ pairs parts, p.1 * bs ≤ s.start ∧ s.getEnd ≤ p.2 * bs

/-- Whatever number is drawn, the segment is sound. -/
def HandsOutSound (q : QueueItem) (env : SegmentEnv) (bs scaledSize aLastSpeed : Int)
    (info : Option PartsInfo) (allow : Bool) : Prop :=
  ∀ rand r, q.getNextSegment env bs scaledSize aLastSpeed info allow rand = some r →
    r.overlapped = false → r.segment.size ≠ 0 → Sound q env bs info r.segment

/-- No range ends before it begins at a free block. -/
def Ordered (q : QueueItem) (env : SegmentEnv) (bs : Int) (info : Option PartsInfo) : Prop :=
  ∀ parts ∈ info, ∀ p ∈ pairs parts, p.2 < p.1 → p.1 * bs < q.size → ¬ Free q env bs p.1

theorem disjoint_of_overlaps_eq_false {s d : Segment} (h : s.overlaps d = false) :
    Disjoint (Set.Ico s.start s.getEnd) (Set.Ico d.start d.getEnd) := by
  rw [Set.disjoint_left]
  intro x hx hd
  simp only [Segment.overlaps, Bool.and_eq_false_iff, decide_eq_false_iff_not, not_lt] at h
  rcases h with h | h
  · exact absurd (lt_of_le_of_lt (le_trans h hx.1) hd.2) (lt_irrefl _)
  · exact absurd (lt_of_le_of_lt (le_trans h hd.1) hx.2) (lt_irrefl _)

/-- **Whole blocks of a clear range are sound.** -/
theorem sound_of_clear (hbs : 0 < bs) (hb : Clear q env bs b) (hlow : b.start ≤ c.start)
    (hpos : 0 < c.size) (hhigh : c.getEnd ≤ b.getEnd) (haligned : bs ∣ c.start)
    (hend : bs ∣ c.getEnd ∨ c.getEnd = q.size)
    (hparts : ∀ parts ∈ info, ∃ p ∈ pairs parts, p.1 * bs ≤ c.start ∧ c.getEnd ≤ p.2 * bs) :
    Sound q env bs info c where
  low := le_trans hb.low hlow
  high := le_trans hhigh hb.inside
  positive := hpos
  aligned := haligned
  alignedEnd := hend
  running d hd := disjoint_of_overlaps_eq_false
    (overlaps_of_contained hlow hhigh (hb.running d hd))
  notDone i hi := by
    have hlt : c.start < c.getEnd := lt_add_of_pos_right _ hpos
    obtain ⟨k, hk⟩ := haligned
    rw [mul_comm] at hk
    have hfree := (hb.free k (hk ▸ hlow) (hk ▸ lt_of_lt_of_le hlt hhigh)).1 i hi
    -- the first block of the segment would be finished
    have hfirst : min q.size ((k + 1) * bs) ≤ c.getEnd := by
      rcases hend with hend | hend
      · obtain ⟨m, hm⟩ := hend
        refine le_trans (min_le_right _ _) ?_
        rw [hm, mul_comm bs]
        refine mul_le_mul_of_nonneg_right ?_ hbs.le
        have hkm : k * bs < m * bs := by
          rw [← hk, mul_comm m, ← hm]
          exact hlt
        exact lt_of_mul_lt_mul_right hkm hbs.le
      · exact hend ▸ min_le_left _ _
    rw [Bool.eq_false_iff]
    intro hcontains
    rw [Segment.contains, Bool.and_eq_true, decide_eq_true_eq, decide_eq_true_eq] at hcontains
    exact hfree ⟨hk ▸ hcontains.1, le_trans hfirst hcontains.2⟩
  advertised := hparts

theorem pairs_map {α β : Type*} (f : α → β) (l : List α) :
    pairs (l.map f) = (pairs l).map (Prod.map f f) := by
  induction l using pairs.induct with
  | case1 s e rest ih => simp [pairs, ih]
  | case2 l hl =>
    rcases l with _ | ⟨s, _ | ⟨e, rest⟩⟩
    · rfl
    · rfl
    · exact absurd rfl (hl s e rest)

/-- What is collected of a clear range comes from a range of the peer. -/
theorem mem_chunks (h : c ∈ chunks (q.positions bs parts) b) :
    ∃ p ∈ pairs parts,
      (min q.size (p.1 * bs) ≤ b.start ∧ b.start < min q.size (p.2 * bs) ∨
        b.start ≤ min q.size (p.1 * bs) ∧ min q.size (p.1 * bs) < b.getEnd) ∧
      c = Segment.between (max b.start (min q.size (p.1 * bs)))
        (min b.getEnd (min q.size (p.2 * bs))) := by
  rw [chunks, positions, pairs_map, List.mem_filterMap] at h
  obtain ⟨j, hj, hc⟩ := h
  obtain ⟨p, hp, rfl⟩ := List.mem_map.mp hj
  split at hc
  · rename_i hcond
    exact ⟨p, hp, hcond, (Option.some.inj hc).symm⟩
  · cases hc

/-- **What is collected is sound or empty, unless its range ends before it begins.** -/
theorem chunk_cases (hbs : 0 < bs) (htarget : bs ≤ target) (htargetDvd : bs ∣ target)
    (hb : Clear q env bs b) (h : c ∈ chunks (q.positions bs parts) b) :
    Sound q env bs (some parts) ⟨c.start, min c.size target⟩ ∨ c.size = 0 ∨
      ∃ p ∈ pairs parts, p.2 < p.1 ∧ p.1 * bs < q.size ∧ Free q env bs p.1 := by
  obtain ⟨p, hp, hcond, rfl⟩ := mem_chunks h
  have hinside := hb.inside
  have hnonempty := hb.nonempty
  -- the range begins inside the file
  have hstart : min q.size (p.1 * bs) = p.1 * bs ∧ p.1 * bs < q.size := by omega
  rw [hstart.1] at hcond ⊢
  simp only [Segment.between_start, Segment.between_size]
  rcases lt_trichotomy (min b.getEnd (min q.size (p.2 * bs)) - max b.start (p.1 * bs)) 0 with
    hneg | hzero | hpos
  · refine .inr (.inr ⟨p, hp, ?_, hstart.2, hb.free _ (by omega) (by omega)⟩)
    have hmul : (p.2 : Int) * bs < p.1 * bs := by omega
    exact Int.ofNat_lt.mp (lt_of_mul_lt_mul_right hmul hbs.le)
  · exact .inr (.inl hzero)
  · have hstartDvd : bs ∣ max b.start (p.1 * bs) := by
      rcases le_total b.start (p.1 * bs) with hle | hle
      · rw [max_eq_right hle]
        exact Int.dvd_mul_left _ _
      · rw [max_eq_left hle]
        exact hb.aligned
    have hendDvd : bs ∣ min b.getEnd (min q.size (p.2 * bs)) ∨
        min b.getEnd (min q.size (p.2 * bs)) = q.size := by
      rcases le_total b.getEnd (p.2 * bs) with hle | hle
      · have heq : min b.getEnd (min q.size (p.2 * bs)) = b.getEnd := by omega
        rw [heq]
        exact hb.alignedEnd
      · have heq : min b.getEnd (min q.size (p.2 * bs)) = p.2 * bs := by omega
        rw [heq]
        exact .inl (Int.dvd_mul_left _ _)
    refine .inl (sound_of_clear hbs hb (le_max_left _ _) ?_ ?_ hstartDvd ?_ ?_)
    · exact lt_min hpos (lt_of_lt_of_le hbs htarget)
    · simp only [Segment.getEnd]
      omega
    · show bs ∣ max b.start (p.1 * bs) + min (min b.getEnd (min q.size (p.2 * bs)) -
          max b.start (p.1 * bs)) target ∨ max b.start (p.1 * bs) +
            min (min b.getEnd (min q.size (p.2 * bs)) - max b.start (p.1 * bs)) target = q.size
      rcases le_total (min b.getEnd (min q.size (p.2 * bs)) - max b.start (p.1 * bs)) target with
        hle | hle
      · rw [min_eq_left hle, add_sub_cancel]
        exact hendDvd
      · rw [min_eq_right hle]
        exact .inl (Int.dvd_add hstartDvd htargetDvd)
    · intro parts' hparts'
      obtain rfl := Option.some.inj hparts'
      refine ⟨p, hp, le_max_right _ _, ?_⟩
      simp only [Segment.getEnd]
      omega

/-- What is collected of a range that ends before it begins has a negative size. -/
theorem chunk_reversed {p : Nat × Nat} (hbs : 0 < bs) (hp : p ∈ pairs parts) (hlt : p.2 < p.1)
    (hlow : b.start ≤ p.1 * bs) (hhigh : p.1 * bs < b.getEnd) (hb : Clear q env bs b) :
    ∃ c ∈ chunks (q.positions bs parts) b, c.size < 0 := by
  have hinside := hb.inside
  have hmul : (p.2 : Int) * bs < p.1 * bs := mul_lt_mul_of_pos_right (Int.ofNat_lt.mpr hlt) hbs
  have hstart : min q.size (p.1 * bs) = p.1 * bs := by omega
  refine ⟨Segment.between (max b.start (min q.size (p.1 * bs)))
    (min b.getEnd (min q.size (p.2 * bs))), ?_, ?_⟩
  · rw [chunks, positions, pairs_map, List.mem_filterMap]
    refine ⟨_, List.mem_map_of_mem hp, if_pos (Or.inr ?_)⟩
    rw [Prod.map_fst, hstart]
    exact ⟨hlow, hhigh⟩
  · rw [Segment.between_size, hstart]
    omega

theorem checkOverlaps_size {r : NextSegment} (h : checkOverlaps env bs aLastSpeed info allow = r)
    (hover : r.overlapped = false) : r.segment.size = 0 := by
  subst h
  unfold checkOverlaps at *
  split at hover
  · rename_i hallow
    rw [if_pos hallow]
    dsimp only at *
    cases hslow : env.downloads.findSome? _ with
    | none => rfl
    | some r =>
      rw [hslow] at hover
      obtain ⟨d, hd, hsome⟩ := List.exists_of_findSome?_eq_some hslow
      exfalso
      split at hsome
      · cases hsome
      · split at hsome
        · cases hsome
        · split at hsome
          · cases hsome
          · split at hsome
            · cases hsome
              cases hover
            · cases hsome
  · rename_i hallow
    rw [if_neg hallow]

/-- **The segments are sound exactly when no range of the peer ends before it begins at a free
    block.** -/
theorem handsOutSound_iff (h : Segmented q env bs) :
    HandsOutSound q env bs scaledSize aLastSpeed info allow ↔ Ordered q env bs info := by
  have hbs := h.positive
  obtain ⟨htarget, htargetDvd⟩ := @roundTarget_spec bs scaledSize hbs
  obtain ⟨x, hx, hfound⟩ := @scan_found q env bs _ info hbs (le_trans hbs.le h.several.le) htarget
    htargetDvd
  unfold HandsOutSound
  simp only [getNextSegment_segmented h, hx, Option.map_some, Option.some.injEq]
  cases x with
  | block b =>
    obtain ⟨hnone, hb⟩ := hfound
    obtain rfl : info = none := Option.map_eq_none_iff.mp hnone
    refine iff_of_true ?_ (fun parts hparts => absurd hparts (by simp))
    rintro rand r rfl - -
    exact sound_of_clear hbs hb le_rfl (sub_pos.mpr hb.nonempty |> fun hp => by
      simpa [Segment.getEnd] using hp) le_rfl hb.aligned hb.alignedEnd
      (fun parts hparts => absurd hparts (by simp))
  | parts needed =>
    obtain ⟨htried, hcollected⟩ := hfound
    dsimp only
    constructor
    · intro hsound parts hparts p hp hlt hsize hfree
      obtain rfl : info = some parts := hparts
      obtain ⟨pos, hpos, b, hb, hlow, hhigh, hin⟩ := htried p.1 (Int.natCast_nonneg _) hsize hfree
      obtain rfl := Option.some.inj hpos
      obtain ⟨c, hc, hneg⟩ := chunk_reversed hbs hp hlt hlow hhigh hb
      obtain ⟨i, hi, hget⟩ := List.getElem_of_mem (hin c hc)
      -- the number that draws it
      have hempty : needed.isEmpty = false := by
        rw [List.isEmpty_eq_false_iff]
        exact List.ne_nil_of_mem (hin c hc)
      have hselected : needed.getD (i % needed.length) ⟨0, 0⟩ = c := by
        rw [Nat.mod_eq_of_lt hi, List.getD_eq_getElem _ _ hi, hget]
      have hresult := hsound i _ rfl
      rw [hempty, hselected] at hresult
      simp only [Bool.false_eq_true, if_false, forall_const] at hresult
      have hpositive := (hresult (by omega)).positive
      simp only at hpositive
      omega
    · intro hordered rand r hr hover hne
      cases hempty : needed.isEmpty with
      | true =>
        rw [hempty, if_pos rfl] at hr
        exact absurd (checkOverlaps_size hr hover) hne
      | false =>
        rw [hempty] at hr
        simp only [Bool.false_eq_true, if_false] at hr
        have hlen : rand % needed.length < needed.length := by
          refine Nat.mod_lt _ (List.length_pos_of_ne_nil ?_)
          exact List.isEmpty_eq_false_iff.mp hempty
        rw [List.getD_eq_getElem _ _ hlen] at hr
        have hmem := List.getElem_mem hlen
        generalize needed[rand % needed.length] = c at hr hmem
        obtain ⟨pos, hpos, b, hb, hc⟩ := hcollected c hmem
        obtain ⟨parts, rfl, rfl⟩ := Option.map_eq_some_iff.mp hpos
        subst hr
        rcases chunk_cases hbs htarget htargetDvd hb hc with hsound | hzero |
          ⟨p, hp, hlt, hsize, hfree⟩
        · exact hsound
        · refine absurd ?_ hne
          show min c.size (roundTarget scaledSize bs) = 0
          omega
        · exact absurd hfree (hordered parts rfl p hp hlt hsize)

/-- Three blocks of 100 bytes, nothing of which is there. -/
theorem segmented_sample : Segmented (sample 300) {} 100 where
  multiChunk := rfl
  positive := by decide
  several := by decide
  running := rfl
  few := by decide

/-- The peer has the blocks from the third to the first one. -/
theorem getNextSegment_negative :
    ¬ ∀ (q : QueueItem) (env : SegmentEnv) (bs scaledSize aLastSpeed : Int)
      (info : Option PartsInfo) (allow : Bool), Segmented q env bs →
      HandsOutSound q env bs scaledSize aLastSpeed info allow := by
  intro h
  have hnext : (sample 300).getNextSegment {} 100 100 0 (some [2, 1]) false 0 =
      some { segment := ⟨200, -100⟩ } := by decide +kernel
  have hsound := h (sample 300) {} 100 100 0 (some [2, 1]) false segmented_sample 0 _ hnext rfl
    (by decide)
  exact absurd hsound.positive (by decide)

theorem handsOutSound_first_block :
    HandsOutSound (sample 300) {} 100 100 0 (some [0, 1]) false ↔
      Ordered (sample 300) {} 100 (some [0, 1]) :=
  handsOutSound_iff segmented_sample

/-! ## What is left -/

/-- The bytes of the file that are not finished. -/
def undone (q : QueueItem) : Set Int :=
  {x | 0 ≤ x ∧ x < q.size ∧ x ∉ bytes q.done.toList}

/-- The file is downloaded without segments, and nobody downloads it. -/
structure WholeFile (q : QueueItem) (env : SegmentEnv) (bs : Int) : Prop where
  mode : env.multiChunk = false ∨ q.size ≤ bs
  idle : env.downloads = []

/-- The search ends, and finds nothing only where no block is free; and a file without segments is
    continued where it is not finished. -/
structure OverlooksNothing (q : QueueItem) (env : SegmentEnv) (bs scaledSize aLastSpeed : Int)
    (allow : Bool) (rand : Nat) : Prop where
  halts : Segmented q env bs → Loop.Halts
    (scanRound q env bs (roundTarget scaledSize bs) none) { curSize := roundTarget scaledSize bs }
  exhausts : Segmented q env bs →
    ∀ l, q.scan env bs (roundTarget scaledSize bs) none = some (.parts l) →
      ∀ k, 0 ≤ k → k * bs < q.size → ¬ Free q env bs k
  wholeFile : WholeFile q env bs → ∀ x, IsLeast q.undone x → ∃ r,
    q.getNextSegment env bs scaledSize aLastSpeed none allow rand = some r ∧
      r.segment.start ≤ x ∧ x < r.segment.getEnd

/-- A finished part at the beginning of a file without segments ends in the first half of a block,
    if it is not all of the file. -/
def EndsEarly (q : QueueItem) (env : SegmentEnv) (bs : Int) : Prop :=
  WholeFile q env bs → ∀ first ∈ q.done.toList.head?, first.start = 0 → first.getEnd < q.size →
    first.getEnd % bs + bs / 2 < bs

theorem roundDown_le_iff {e : Int} (hbs : 0 < bs) (he : 0 ≤ e) :
    Util.roundDown e bs ≤ e ↔ e % bs + bs / 2 < bs := by
  have hhalf : bs.tdiv 2 = bs / 2 := Int.tdiv_eq_ediv_of_nonneg hbs.le
  have hmod := Int.emod_nonneg e hbs.ne'
  have hmod' := Int.emod_lt_of_pos e hbs
  have hsum : e + bs / 2 = (e % bs + bs / 2) + e / bs * bs := by
    have := Int.emod_add_ediv_mul e bs
    omega
  rw [Util.roundDown, hhalf, Int.tdiv_eq_ediv_of_nonneg (by omega), hsum,
    Int.add_mul_ediv_right _ _ hbs.ne']
  have hdiv := Int.emod_add_ediv_mul e bs
  constructor
  · intro hle
    by_contra hlate
    have hone : 1 ≤ (e % bs + bs / 2) / bs := by
      rw [Int.le_ediv_iff_mul_le hbs]
      omega
    have hmul := mul_le_mul_of_nonneg_right hone hbs.le
    rw [add_mul] at hle
    omega
  · intro hearly
    rw [Int.ediv_eq_zero_of_lt (by omega) hearly, zero_add]
    omega

theorem le_roundUp {n : Int} (hbs : 0 < bs) (hn : 0 ≤ n) : n ≤ Util.roundUp n bs := by
  rw [Util.roundUp, Int.tdiv_eq_ediv_of_nonneg (by omega)]
  have := Int.lt_ediv_add_one_mul_self (n + bs - 1) hbs
  rw [add_mul, one_mul] at this
  omega

theorem getNextSegment_wholeFile (hbs : 0 < bs) (hsize : 0 ≤ q.size) (h : WholeFile q env bs) :
    q.getNextSegment env bs scaledSize aLastSpeed none allow rand =
      some { segment := q.wholeFileSegment bs } := by
  have hnot : ¬ (q.size = -1 ∨ bs = 0) := by omega
  have hmode : (!env.multiChunk || decide (bs ≥ q.size)) = true := by
    rcases h.mode with hmode | hmode
    · rw [hmode]
      rfl
    · rw [decide_eq_true hmode, Bool.or_true]
  rw [getNextSegment, if_neg hnot, hmode, h.idle]
  rfl

theorem isLeast_undone_zero (hin : Inside q.size q.done.toList) (hsize : 0 < q.size)
    (hsorted : IsCanonical q.done.toList) (h : ∀ first ∈ q.done.toList.head?, first.start ≠ 0) :
    IsLeast q.undone 0 := by
  refine ⟨⟨le_rfl, hsize, notMem_covered_of_lt_lo fun i hi => ?_⟩, fun y hy => hy.1⟩
  cases hlist : q.done.toList with
  | nil =>
    rw [hlist] at hi
    cases hi
  | cons first rest =>
    rw [hlist] at hi h hin hsorted
    have hfirst : 0 < first.start :=
      lt_of_le_of_ne (hin first List.mem_cons_self).1 (h first rfl).symm
    rcases List.mem_cons.mp hi with rfl | hi
    · exact hfirst
    · obtain ⟨hpos, -, hgap⟩ := canonical_cons.mp hsorted
      exact lt_trans hfirst (lt_trans hpos (hgap i hi))

theorem isLeast_undone_end {first : Segment} {rest : List Segment}
    (hlist : q.done.toList = first :: rest) (hstart : first.start = 0)
    (hend : first.getEnd < q.size) (hdone : IsCanonical q.done.toList) :
    IsLeast q.undone first.getEnd := by
  rw [hlist] at hdone
  obtain ⟨hpos, -, hgap⟩ := canonical_cons.mp hdone
  rw [hstart] at hpos
  refine ⟨⟨hpos.le, hend, ?_⟩, fun y hy => ?_⟩
  · rw [hlist]
    intro hmem
    obtain ⟨i, hi, hlo, hhi⟩ := hmem
    rcases List.mem_cons.mp hi with rfl | hi
    · exact absurd hhi (lt_irrefl _)
    · exact absurd hlo (not_le.mpr (hgap i hi))
  · by_contra hlt
    refine hy.2.2 ⟨first, ?_, hstart ▸ hy.1, not_le.mp hlt⟩
    rw [hlist]
    exact List.mem_cons_self

/-- What is downloaded when the file begins with a finished segment. -/
theorem wholeFileSegment_after {first : Segment} {rest : List Segment} (hbs : 0 < bs)
    (hlist : q.done.toList = first :: rest) (hstart : first.start = 0)
    (hdone : IsCanonical q.done.toList) (hin : Inside q.size q.done.toList) :
    (q.wholeFileSegment bs).start = Util.roundDown first.getEnd bs ∧
      (first.getEnd < q.size → first.getEnd < (q.wholeFileSegment bs).getEnd) := by
  rw [hlist] at hdone hin
  have hnot : ¬ first.start > 0 := by omega
  simp only [wholeFileSegment, hlist, if_neg hnot]
  cases rest with
  | nil =>
    refine ⟨rfl, fun hlt => ?_⟩
    simp only [Segment.getEnd, min_self] at hlt ⊢
    omega
  | cons second rest =>
    refine ⟨rfl, fun hlt => ?_⟩
    obtain ⟨-, -, hgap⟩ := canonical_cons.mp hdone
    have hsecond := hgap second List.mem_cons_self
    have hround := le_roundUp hbs (hin second (by simp)).1
    simp only [Segment.getEnd] at hlt hsecond ⊢
    omega

/-- **The search overlooks nothing, and a file without segments is continued where it is not
    finished exactly when what is finished ends in the first half of a block.** -/
theorem overlooksNothing_iff (hbs : 0 < bs) (hdone : IsCanonical q.done.toList)
    (hin : Inside q.size q.done.toList) :
    OverlooksNothing q env bs scaledSize aLastSpeed allow rand ↔ EndsEarly q env bs := by
  constructor
  · intro h hwhole first hfirst hstart hend
    obtain ⟨rest, hlist⟩ : ∃ rest, q.done.toList = first :: rest := List.head?_eq_some_iff.mp hfirst
    have hmem : first ∈ q.done.toList := by
      rw [hlist]
      exact List.mem_cons_self
    obtain ⟨r, hr, hle, -⟩ := h.wholeFile hwhole _ (isLeast_undone_end hlist hstart hend hdone)
    have hpos := hdone.pos first hmem
    rw [getNextSegment_wholeFile hbs (by omega) hwhole] at hr
    obtain rfl := Option.some.inj hr
    rw [(wholeFileSegment_after hbs hlist hstart hdone hin).1] at hle
    exact (roundDown_le_iff hbs (by omega)).mp hle
  · intro hearly
    refine ⟨fun hseg => ?_, fun hseg l hl => ?_, fun hwhole x hx => ?_⟩
    · obtain ⟨htarget, htargetDvd⟩ := @roundTarget_spec bs scaledSize hbs
      obtain ⟨y, hy⟩ := @scan_ends q env bs _ none hbs (le_trans hbs.le hseg.several.le) htarget
        htargetDvd
      exact ⟨y, _, hy⟩
    · obtain ⟨htarget, htargetDvd⟩ := @roundTarget_spec bs scaledSize hbs
      obtain ⟨y, hy, hfound⟩ := @scan_found q env bs _ none hbs (le_trans hbs.le hseg.several.le)
        htarget htargetDvd
      rw [hy] at hl
      obtain rfl := Option.some.inj hl
      intro k hk hlt hfree
      obtain ⟨p, hp, -⟩ := hfound.1 k hk hlt hfree
      cases hp
    · have hsize : 0 < q.size := lt_of_le_of_lt hx.1.1 hx.1.2.1
      refine ⟨_, getNextSegment_wholeFile hbs hsize.le hwhole, ?_⟩
      by_cases hfirst : ∃ first ∈ q.done.toList.head?, first.start = 0
      · obtain ⟨first, hfirst, hstart⟩ := hfirst
        obtain ⟨rest, hlist⟩ : ∃ rest, q.done.toList = first :: rest :=
          List.head?_eq_some_iff.mp hfirst
        have hmem : first ∈ q.done.toList := by
          rw [hlist]
          exact List.mem_cons_self
        have hend : first.getEnd < q.size := by
          by_contra hall
          refine hx.1.2.2 ⟨first, hmem, hstart ▸ hx.1.1, ?_⟩
          exact lt_of_lt_of_le hx.1.2.1 (not_lt.mp hall)
        obtain rfl := hx.unique (isLeast_undone_end hlist hstart hend hdone)
        obtain ⟨hseg, hbehind⟩ := wholeFileSegment_after hbs hlist hstart hdone hin
        have hpos := hdone.pos first hmem
        refine ⟨?_, hbehind hend⟩
        rw [hseg, roundDown_le_iff hbs (by omega)]
        exact hearly hwhole first hfirst hstart hend
      · push Not at hfirst
        obtain rfl := hx.unique (isLeast_undone_zero hin hsize hdone hfirst)
        cases hlist : q.done.toList with
        | nil =>
          simp only [wholeFileSegment, hlist, Segment.getEnd]
          omega
        | cons first rest =>
          have hstart : first.start > 0 := by
            refine lt_of_le_of_ne (hin first (by simp [hlist])).1 (hfirst first ?_).symm
            rw [hlist]
            rfl
          have hround := le_roundUp hbs hstart.le
          simp only [wholeFileSegment, hlist, if_pos hstart, Segment.getEnd]
          omega

/-- A file of 300 bytes in one block, with a finished part. -/
def begunSample (size : Int) : QueueItem :=
  { sample 300 with done := OrderedSet.empty.insert ⟨0, size⟩ }

theorem canonical_begunSample {size : Int} (h : 0 < size) :
    IsCanonical (begunSample size).done.toList := by
  have hlist : (begunSample size).done.toList = [⟨0, size⟩] := rfl
  rw [hlist]
  exact canonical_cons.mpr ⟨by simpa [Segment.getEnd] using h, Canonical.nil, by simp⟩

theorem inside_begunSample {size : Int} (h : size ≤ 300) :
    Inside (begunSample size).size (begunSample size).done.toList := by
  intro s hs
  obtain rfl : s = ⟨0, size⟩ := List.mem_singleton.mp hs
  exact ⟨le_rfl, by simpa [Segment.getEnd, begunSample, sample, create] using h⟩

/-- 200 bytes of the file are finished, and the download is to begin behind it. -/
theorem getNextSegment_overlooks :
    ¬ ∀ (q : QueueItem) (env : SegmentEnv) (bs scaledSize aLastSpeed : Int) (allow : Bool)
      (rand : Nat), 0 < bs → IsCanonical q.done.toList → Inside q.size q.done.toList →
      OverlooksNothing q env bs scaledSize aLastSpeed allow rand := by
  intro h
  have hnothing := h (begunSample 200) {} 300 0 0 false 0 (by decide)
    (canonical_begunSample (by decide)) (inside_begunSample (by decide))
  have hleast : IsLeast (begunSample 200).undone 200 :=
    @isLeast_undone_end (begunSample 200) ⟨0, 200⟩ [] rfl rfl (by decide)
      (canonical_begunSample (by decide))
  obtain ⟨r, hr, hle, -⟩ := hnothing.wholeFile ⟨.inr (by decide), rfl⟩ _ hleast
  have hnext : (begunSample 200).getNextSegment {} 300 0 0 none false 0 =
      some { segment := ⟨300, 0⟩ } := by decide +kernel
  rw [hnext] at hr
  obtain rfl := Option.some.inj hr
  exact absurd hle (by decide)

theorem overlooksNothing_first_half :
    OverlooksNothing (begunSample 100) {} 300 0 0 false 0 ↔ EndsEarly (begunSample 100) {} 300 :=
  overlooksNothing_iff (by decide) (canonical_begunSample (by decide))
    (inside_begunSample (by decide))

end QueueItem
end Airdcpp
