import Airdcpp.Queue.FinishedSegments

/-!
# `Queue/RecheckFile` — the finished segments of a file are made anew from its hashes

`QueueManager::recheckFileImpl` hashes the file on disk, forgets what is finished, and then walks
the leaves of the trusted tree and of the file side by side. Equal leaves make a block finished
again; a leaf that differs is a failure if the block was finished before. The position of the block
is counted along by hand, and it is not when the leaves differ and the block was not finished.

So the walk is right up to the first such block. `Settled` is the condition under which what comes
after it makes no difference.
-/

namespace Airdcpp

open Lib SegmentSet

/-- The leaves of the trusted tree and of the file, side by side -/
abbrev LeafPairs := List (TTHValue × TTHValue)

/-- What the loop over the leaves writes to. -/
structure Recheck where
  q : QueueItem
  pos : Int := 0
  failedBytes : Int := 0

namespace Recheck

variable {r : Recheck} {bs size : Int} {done : SegmentSet} {leaves : LeafPairs}

def blockSegment (r : Recheck) (blockSize : Int) : Segment :=
  ⟨r.pos, min (r.q.size - r.pos) blockSize⟩

/-- One pair of leaves. -/
def leaf (blockSize : Int) (done : SegmentSet) (r : Recheck) (hashes : TTHValue × TTHValue) :
    Recheck :=
  if hashes.1 = hashes.2 then
    { r with
      q := (r.q.addFinishedSegment (r.blockSegment blockSize)).1, pos := r.pos + blockSize }
  -- undownloaded segments aren't corrupted, and the position stays
  else if (r.blockSegment blockSize).inSet done = false then r
  else { r with failedBytes := r.failedBytes + blockSize, pos := r.pos + blockSize }

end Recheck

/-- `resetDownloaded` forgets what is finished. -/
def Recheck.start (q : QueueItem) : Recheck :=
  { q := { q with done := OrderedSet.empty } }

/-- The loop of `recheckFileImpl` -/
def recheckLeaves (q : QueueItem) (blockSize : Int) (leaves : LeafPairs) : Recheck :=
  leaves.foldl (Recheck.leaf blockSize q.done) (Recheck.start q)

/-! ## What it is for -/

/-- The block with a number, as far as the file goes. -/
def blockAt (size bs : Int) (k : Nat) : Segment := ⟨k * bs, min (size - k * bs) bs⟩

/-- The leaves of the block differ, and it was finished before. -/
def Corrupt (size bs : Int) (done : SegmentSet) (l : (TTHValue × TTHValue) × Nat) : Prop :=
  l.1.1 ≠ l.1.2 ∧ (blockAt size bs l.2).inSet done = true

/-- The leaves of the block differ, and it was not. -/
def Missing (size bs : Int) (done : SegmentSet) (l : (TTHValue × TTHValue) × Nat) : Prop :=
  l.1.1 ≠ l.1.2 ∧ (blockAt size bs l.2).inSet done = false

instance (size bs : Int) (done : SegmentSet) (l : (TTHValue × TTHValue) × Nat) :
    Decidable (Corrupt size bs done l) := inferInstanceAs (Decidable (_ ∧ _))

instance (size bs : Int) (done : SegmentSet) (l : (TTHValue × TTHValue) × Nat) :
    Decidable (Missing size bs done l) := inferInstanceAs (Decidable (_ ∧ _))

/-- The bytes of the blocks whose leaves agree. -/
def verified (size bs : Int) (leaves : List ((TTHValue × TTHValue) × Nat)) : Set Int :=
  {x | ∃ l ∈ leaves, l.1.1 = l.1.2 ∧ l.2 * bs ≤ x ∧ x < min size ((l.2 + 1) * bs)}

/-- The blocks that went bad. -/
def corrupt (size bs : Int) (done : SegmentSet) (leaves : List ((TTHValue × TTHValue) × Nat)) :
    List ((TTHValue × TTHValue) × Nat) :=
  leaves.filter fun l => decide (Corrupt size bs done l)

/-- The finished bytes are those of the blocks that agree, and each block that went bad counts. -/
def Rebuilt (q : QueueItem) (bs : Int) (leaves : LeafPairs) : Prop :=
  bytes (recheckLeaves q bs leaves).q.done.toList = verified q.size bs leaves.zipIdx ∧
    (recheckLeaves q bs leaves).failedBytes = bs * (corrupt q.size bs q.done leaves.zipIdx).length

/-- After a missing block of the file there are only missing blocks. -/
def Settled (q : QueueItem) (bs : Int) (leaves : LeafPairs) : Prop :=
  leaves.zipIdx.Pairwise fun l l' =>
    Missing q.size bs q.done l → l.2 * bs < q.size → Missing q.size bs q.done l'

instance (q : QueueItem) (bs : Int) (leaves : LeafPairs) : Decidable (Settled q bs leaves) :=
  inferInstanceAs (Decidable (List.Pairwise _ _))

/-! ## The finished segments of the walk -/

/-- What the walk has finished lies below its position and inside the file. -/
structure Below (pos size : Int) (l : List Segment) : Prop where
  gap : l.Pairwise fun i j => i.getEnd < j.start
  order : l.Pairwise fun i j => i.start < j.start
  start : ∀ i ∈ l, i.start < pos
  before : ∀ i ∈ l, i.getEnd ≤ pos
  inside : ∀ i ∈ l, i.getEnd ≤ size

theorem Below.notMem {pos : Int} {l : List Segment} (h : Below pos size l) : pos ∉ bytes l :=
  notMem_covered_of_hi_le h.before

theorem below_nil : Below 0 size [] where
  gap := List.Pairwise.nil
  order := List.Pairwise.nil
  start := by simp
  before := by simp
  inside := by simp

/-- A segment that ends at the next position takes the place of the last ones. -/
theorem Below.append {pos pos' : Int} {l l' : List Segment} {s : Segment} (h : Below pos size l)
    (hsub : l'.Sublist l) (hle : pos ≤ pos') (hgap : ∀ i ∈ l', i.getEnd < s.start)
    (horder : ∀ i ∈ l', i.start < s.start) (hstart : s.start < pos') (hbefore : s.getEnd ≤ pos')
    (hinside : s.getEnd ≤ size) : Below pos' size (l' ++ [s]) where
  gap := List.pairwise_append.mpr ⟨h.gap.sublist hsub, List.pairwise_singleton _ _, fun i hi j hj =>
    List.mem_singleton.mp hj ▸ hgap i hi⟩
  order := List.pairwise_append.mpr ⟨h.order.sublist hsub, List.pairwise_singleton _ _,
    fun i hi j hj => List.mem_singleton.mp hj ▸ horder i hi⟩
  start i hi := by
    rcases List.mem_append.mp hi with hi | hi
    · exact lt_of_lt_of_le (h.start i (hsub.mem hi)) hle
    · exact List.mem_singleton.mp hi ▸ hstart
  before i hi := by
    rcases List.mem_append.mp hi with hi | hi
    · exact le_trans (h.before i (hsub.mem hi)) hle
    · exact List.mem_singleton.mp hi ▸ hbefore
  inside i hi := by
    rcases List.mem_append.mp hi with hi | hi
    · exact h.inside i (hsub.mem hi)
    · exact List.mem_singleton.mp hi ▸ hinside

/-- A segment at the position is appended, or joined to the one that ends there. -/
theorem addFinishedSegment_cases {q : QueueItem} {s : Segment}
    (h : Below s.start size q.done.toList) :
    (q.addFinishedSegment s).1.done.toList = q.done.toList ++ [s] ∧
        (∀ i ∈ q.done.toList, i.getEnd < s.start) ∨
      ∃ init last, q.done.toList = init ++ [last] ∧ last.getEnd = s.start ∧
        (q.addFinishedSegment s).1.done.toList =
          init ++ [Segment.between last.start s.getEnd] := by
  have hd : (q.done.insert s).toList = q.done.toList ++ [s] :=
    OrderedSet.toList_insert (List.append_nil _).symm
      (fun x hx => Segment.lt_of_start_lt (h.start x hx)) (by simp)
  rcases List.eq_nil_or_concat' q.done.toList with hnil | ⟨init, last, hlast⟩
  · have hwalk : QueueItem.consolidate s (q.done.insert s) none (q.done.insert s).toList.tail =
        (q.done.insert s, none) := by
      rw [hd, hnil]
      rfl
    rw [QueueItem.addFinishedSegment_eq hwalk, hnil]
    exact .inl ⟨hnil ▸ hd, by simp⟩
  · rw [hlast] at h hd ⊢
    obtain ⟨-, -, hinit⟩ := List.pairwise_append.mp h.gap
    obtain ⟨-, -, horder⟩ := List.pairwise_append.mp h.order
    have hmem : last ∈ init ++ [last] := by simp
    -- the walk passes what was there and arrives at the new segment
    have hskip : QueueItem.consolidate s (q.done.insert s) none (q.done.insert s).toList.tail =
        QueueItem.consolidate s (q.done.insert s) none [s] := by
      rw [hd]
      cases init with
      | nil => rfl
      | cons p init =>
        exact QueueItem.consolidate_skip none [] (init ++ [last]) [s] (by simp [hd]) h.gap
    have hd2 : (q.done.insert s).toList = init ++ last :: [s] := by simp [hd]
    by_cases htouch : s.start ≤ last.getEnd
    · obtain ⟨done', hd', heq⟩ := @QueueItem.consolidate_merge s _ none _ _ _ _ hd2 htouch
        (fun x hx => horder x hx last (by simp)) (by simp)
      rw [QueueItem.consolidate] at heq
      rw [QueueItem.addFinishedSegment_eq (hskip.trans heq)]
      exact .inr ⟨init, last, rfl, le_antisymm (h.before last hmem) htouch, hd'⟩
    · have happart : last.getEnd < s.start := not_le.mp htouch
      have hend : QueueItem.consolidate s (q.done.insert s) none [s] = (q.done.insert s, none) :=
        QueueItem.consolidate_skip none init [s] [] hd2 (by simpa using happart)
      rw [QueueItem.addFinishedSegment_eq (hskip.trans hend)]
      refine .inl ⟨hd, fun i hi => ?_⟩
      rcases List.mem_append.mp hi with hi | hi
      · exact lt_of_lt_of_le (hinit i hi last (by simp)) (h.start last hmem).le
      · exact List.mem_singleton.mp hi ▸ happart

/-- **A block at the position adds its bytes.** -/
theorem addFinishedSegment_block {q : QueueItem} {pos : Int} (hbs : 0 < bs)
    (h : Below pos size q.done.toList) :
    Below (pos + bs) size
        (q.addFinishedSegment ⟨pos, min (size - pos) bs⟩).1.done.toList ∧
      bytes (q.addFinishedSegment ⟨pos, min (size - pos) bs⟩).1.done.toList =
        bytes q.done.toList ∪ Set.Ico pos (min size (pos + bs)) := by
  have hpos := lt_add_of_pos_right pos hbs
  have hend : (⟨pos, min (size - pos) bs⟩ : Segment).getEnd = min size (pos + bs) := by
    simp only [Segment.getEnd]
    omega
  have hends : (⟨pos, min (size - pos) bs⟩ : Segment).getEnd ≤ pos + bs ∧
      (⟨pos, min (size - pos) bs⟩ : Segment).getEnd ≤ size :=
    hend ▸ ⟨min_le_right _ _, min_le_left _ _⟩
  rcases addFinishedSegment_cases (s := ⟨pos, min (size - pos) bs⟩) h with
    ⟨hdone, hapart⟩ | ⟨init, last, hlast, htouch, hdone⟩
  · rw [hdone]
    refine ⟨h.append (List.Sublist.refl _) hpos.le hapart h.start hpos hends.1 hends.2, ?_⟩
    rw [bytes, covered_append, covered_singleton, hend]
  · rw [hdone]
    have hmem : last ∈ q.done.toList := by simp [hlast]
    have hstart := h.start last hmem
    have htouch : last.getEnd = pos := htouch
    have hsize : pos ≤ size := htouch ▸ h.inside last hmem
    obtain ⟨-, -, hgap⟩ := List.pairwise_append.mp (hlast ▸ h.gap)
    obtain ⟨-, -, horder⟩ := List.pairwise_append.mp (hlast ▸ h.order)
    refine ⟨h.append (hlast ▸ List.sublist_append_left _ _) hpos.le
      (fun i hi => hgap i hi last (by simp)) (fun i hi => horder i hi last (by simp))
      (lt_trans hstart hpos) ?_ ?_, ?_⟩
    · rw [Segment.between_getEnd]
      exact hends.1
    · rw [Segment.between_getEnd]
      exact hends.2
    · have hjoin : Set.Ico last.start (min size (pos + bs)) =
          Set.Ico last.start last.getEnd ∪ Set.Ico pos (min size (pos + bs)) := by
        rw [htouch]
        exact (Set.Ico_union_Ico_eq_Ico hstart.le (le_min hsize hpos.le)).symm
      rw [hlast, bytes, bytes, covered_append, covered_append, covered_singleton,
        covered_singleton, Segment.between_start, Segment.between_getEnd, hend, hjoin,
        Set.union_assoc]

/-! ## The walk -/

namespace Recheck

variable {hashes : TTHValue × TTHValue}

/-- What holds in each round. -/
structure Inv (size : Int) (r : Recheck) : Prop where
  sizeOf : r.q.size = size
  below : Below r.pos size r.q.done.toList

/-- The rounds for some leaves. -/
def walk (bs : Int) (done : SegmentSet) (r : Recheck) (leaves : LeafPairs) : Recheck :=
  leaves.foldl (leaf bs done) r

theorem leaf_agree (done : SegmentSet) (hbs : 0 < bs) (h : Inv size r)
    (heq : hashes.1 = hashes.2) :
    Inv size (leaf bs done r hashes) ∧ (leaf bs done r hashes).pos = r.pos + bs ∧
      (leaf bs done r hashes).failedBytes = r.failedBytes ∧
      bytes (leaf bs done r hashes).q.done.toList =
        bytes r.q.done.toList ∪ Set.Ico r.pos (min size (r.pos + bs)) := by
  obtain ⟨hbelow, hbytes⟩ := addFinishedSegment_block hbs h.below
  rw [leaf, if_pos heq, blockSegment, h.sizeOf]
  exact ⟨⟨h.sizeOf, hbelow⟩, rfl, rfl, hbytes⟩

theorem leaf_corrupt (hne : hashes.1 ≠ hashes.2) (hin : (r.blockSegment bs).inSet done = true) :
    leaf bs done r hashes =
      { r with failedBytes := r.failedBytes + bs, pos := r.pos + bs } := by
  rw [leaf, if_neg hne, if_neg (by simp [hin])]

theorem leaf_missing (hne : hashes.1 ≠ hashes.2) (hout : (r.blockSegment bs).inSet done = false) :
    leaf bs done r hashes = r := by
  rw [leaf, if_neg hne, if_pos hout]

theorem Inv.skip (hbs : 0 < bs) (h : Inv size r) :
    Inv size { r with failedBytes := r.failedBytes + bs, pos := r.pos + bs } where
  sizeOf := h.sizeOf
  below :=
    { gap := h.below.gap
      order := h.below.order
      start := fun i hi => lt_trans (h.below.start i hi) (lt_add_of_pos_right _ hbs)
      before := fun i hi => le_trans (h.below.before i hi) (lt_add_of_pos_right _ hbs).le
      inside := h.below.inside }

/-- Every round keeps the invariant, and no byte is lost. -/
theorem inv_leaf (done : SegmentSet) (hashes : TTHValue × TTHValue) (hbs : 0 < bs)
    (h : Inv size r) :
    Inv size (leaf bs done r hashes) ∧
      bytes r.q.done.toList ⊆ bytes (leaf bs done r hashes).q.done.toList := by
  by_cases heq : hashes.1 = hashes.2
  · obtain ⟨hinv, -, -, hbytes⟩ := leaf_agree done hbs h heq
    exact ⟨hinv, hbytes ▸ Set.subset_union_left⟩
  · cases hin : (r.blockSegment bs).inSet done with
    | true =>
      rw [leaf_corrupt heq hin]
      exact ⟨h.skip hbs, subset_rfl⟩
    | false =>
      rw [leaf_missing heq hin]
      exact ⟨h, subset_rfl⟩

theorem walk_mono (hbs : 0 < bs) (h : Inv size r) :
    bytes r.q.done.toList ⊆ bytes (walk bs done r leaves).q.done.toList := by
  induction leaves generalizing r with
  | nil => exact subset_rfl
  | cons hashes leaves ih =>
    obtain ⟨hinv, hsub⟩ := inv_leaf done hashes hbs h
    exact subset_trans hsub (ih hinv)

/-- While the block at the position is missing and no leaves agree, nothing happens. -/
theorem walk_missing (hout : (r.blockSegment bs).inSet done = false)
    (hne : ∀ hashes ∈ leaves, hashes.1 ≠ hashes.2) : walk bs done r leaves = r := by
  induction leaves with
  | nil => rfl
  | cons hashes leaves ih =>
    obtain ⟨hne, hrest⟩ := List.forall_mem_cons.mp hne
    rw [walk, List.foldl_cons, leaf_missing hne hout]
    exact ih hrest

/-- The first leaves that agree make the block at the position finished. -/
theorem walk_agree (hbs : 0 < bs) (h : Inv size r) (hsize : r.pos < size)
    (hout : (r.blockSegment bs).inSet done = false)
    (hsome : ∃ hashes ∈ leaves, hashes.1 = hashes.2) :
    r.pos ∈ bytes (walk bs done r leaves).q.done.toList := by
  induction leaves with
  | nil => simp at hsome
  | cons hashes leaves ih =>
    rw [walk, List.foldl_cons]
    by_cases heq : hashes.1 = hashes.2
    · obtain ⟨hinv, -, -, hbytes⟩ := leaf_agree done hbs h heq
      refine walk_mono hbs hinv (hbytes ▸ .inr ⟨le_rfl, lt_min hsize ?_⟩)
      exact lt_add_of_pos_right _ hbs
    · rw [leaf_missing heq hout]
      refine ih ?_
      obtain ⟨other, hmem, hother⟩ := hsome
      rcases List.mem_cons.mp hmem with rfl | hmem
      · exact absurd hother heq
      · exact ⟨other, hmem, hother⟩

/-- Behind the file nothing is finished or counted if no finished segment ends there. -/
theorem walk_behind (leaves : LeafPairs) (hbs : 0 < bs) (h : Inv size r) (hsize : size ≤ r.pos)
    (hout : ∀ s ∈ done.toList, s.getEnd < size) :
    bytes (walk bs done r leaves).q.done.toList = bytes r.q.done.toList ∧
      (walk bs done r leaves).failedBytes = r.failedBytes := by
  induction leaves generalizing r with
  | nil => exact ⟨rfl, rfl⟩
  | cons hashes leaves ih =>
    rw [walk, List.foldl_cons]
    by_cases heq : hashes.1 = hashes.2
    · obtain ⟨hinv, hpos, hfailed, hbytes⟩ := leaf_agree done hbs h heq
      have hempty : Set.Ico r.pos (min size (r.pos + bs)) = ∅ :=
        Set.Ico_eq_empty (not_lt.mpr (le_trans (min_le_left _ _) hsize))
      rw [hempty, Set.union_empty] at hbytes
      rw [← hbytes, ← hfailed]
      exact ih hinv (by omega)
    · have hmiss : (r.blockSegment bs).inSet done = false := by
        rw [Segment.inSet, List.any_eq_false]
        intro s hs hcontains
        simp only [Segment.contains, blockSegment, Segment.getEnd, h.sizeOf, Bool.and_eq_true,
          decide_eq_true_eq] at hcontains
        have := hout s hs
        simp only [Segment.getEnd] at this
        omega
      rw [leaf_missing heq hmiss]
      exact ih h hsize

end Recheck

/-! ## What is verified and what went bad -/

section Blocks

variable {bs size : Int} {done : SegmentSet} {n : Nat} {leaves : LeafPairs}
  {L L' : List ((TTHValue × TTHValue) × Nat)}

theorem verified_append : verified size bs (L ++ L') =
    verified size bs L ∪ verified size bs L' := by
  ext x
  simp only [verified, List.mem_append, Set.mem_union, Set.mem_ofPred_eq]
  constructor
  · intro h
    obtain ⟨l, hl | hl, h⟩ := h
    · exact .inl ⟨l, hl, h⟩
    · exact .inr ⟨l, hl, h⟩
  · intro h
    rcases h with ⟨l, hl, h⟩ | ⟨l, hl, h⟩
    · exact ⟨l, .inl hl, h⟩
    · exact ⟨l, .inr hl, h⟩

theorem corrupt_append :
    corrupt size bs done (L ++ L') = corrupt size bs done L ++ corrupt size bs done L' :=
  List.filter_append _ _

theorem verified_eq_empty (h : ∀ l ∈ L, l.1.1 = l.1.2 → size ≤ l.2 * bs) :
    verified size bs L = ∅ := by
  ext x
  simp only [verified, Set.mem_ofPred_eq, Set.mem_empty_iff_false, iff_false]
  intro hx
  obtain ⟨l, hl, heq, hle, hlt⟩ := hx
  have := h l hl heq
  exact absurd (lt_of_lt_of_le hlt (min_le_left _ _)) (not_lt.mpr (le_trans this hle))

theorem corrupt_eq_nil (h : ∀ l ∈ L, ¬ Corrupt size bs done l) : corrupt size bs done L = [] :=
  List.filter_eq_nil_iff.mpr fun l hl => by simpa using h l hl

theorem not_corrupt_of_missing {l : (TTHValue × TTHValue) × Nat} (h : Missing size bs done l) :
    ¬ Corrupt size bs done l := by
  intro hc
  have hin := hc.2
  rw [h.2] at hin
  cases hin

/-- Up to the first missing block. -/
theorem first_missing (leaves : LeafPairs) (n : Nat) :
    (∀ l ∈ leaves.zipIdx n, ¬ Missing size bs done l) ∨
      ∃ pre m rest, leaves = pre ++ m :: rest ∧
        (∀ l ∈ pre.zipIdx n, ¬ Missing size bs done l) ∧
        Missing size bs done (m, n + pre.length) := by
  induction leaves generalizing n with
  | nil => exact .inl (by simp)
  | cons a leaves ih =>
    by_cases hmiss : Missing size bs done (a, n)
    · exact .inr ⟨[], a, leaves, rfl, by simp, hmiss⟩
    · rcases ih (n + 1) with hnone | ⟨pre, m, rest, heq, hpre, hm⟩
      · refine .inl fun l hl => ?_
        rw [List.zipIdx_cons] at hl
        rcases List.mem_cons.mp hl with rfl | hl
        · exact hmiss
        · exact hnone l hl
      · refine .inr ⟨a :: pre, m, rest, by rw [heq, List.cons_append], fun l hl => ?_, ?_⟩
        · rw [List.zipIdx_cons] at hl
          rcases List.mem_cons.mp hl with rfl | hl
          · exact hmiss
          · exact hpre l hl
        · rw [List.length_cons, Nat.add_right_comm, Nat.add_assoc] at *
          exact hm

end Blocks

/-! ## The whole walk -/

namespace Recheck

/-- **Without a missing block the walk is right.** -/
theorem walk_aligned {n : Nat} (hbs : 0 < bs) (h : Inv size r) (hpos : r.pos = n * bs)
    (hnone : ∀ l ∈ leaves.zipIdx n, ¬ Missing size bs done l) :
    Inv size (walk bs done r leaves) ∧ (walk bs done r leaves).pos =
      (n + leaves.length : Nat) * bs ∧
      bytes (walk bs done r leaves).q.done.toList =
        bytes r.q.done.toList ∪ verified size bs (leaves.zipIdx n) ∧
      (walk bs done r leaves).failedBytes =
        r.failedBytes + bs * (corrupt size bs done (leaves.zipIdx n)).length := by
  induction leaves generalizing r n with
  | nil => exact ⟨h, by simpa [walk] using hpos, by simp [walk, verified], by simp [walk, corrupt]⟩
  | cons hashes leaves ih =>
    rw [List.zipIdx_cons, List.forall_mem_cons] at hnone
    obtain ⟨hfirst, hrest⟩ := hnone
    have hnext : r.pos + bs = (n + 1 : Nat) * bs := by
      rw [hpos, Nat.cast_add, Nat.cast_one, add_mul, one_mul]
    have hblock : r.blockSegment bs = blockAt size bs n := by
      rw [blockSegment, blockAt, h.sizeOf, hpos]
    have hlength : n + (hashes :: leaves).length = n + 1 + leaves.length := by
      rw [List.length_cons]
      omega
    have hcons : hashes :: leaves = [hashes] ++ leaves := rfl
    rw [hlength, walk, List.foldl_cons, List.zipIdx_cons, ← List.singleton_append, verified_append,
      corrupt_append, List.length_append]
    by_cases heq : hashes.1 = hashes.2
    · obtain ⟨hinv, hpos', hfailed, hbytes⟩ := leaf_agree done hbs h heq
      obtain ⟨hinv', hpos'', hbytes', hfailed'⟩ := ih hinv (hpos'.trans hnext) hrest
      refine ⟨hinv', hpos'', ?_, ?_⟩
      · have hverified : verified size bs [(hashes, n)] =
            Set.Ico r.pos (min size (r.pos + bs)) := by
          ext x
          simp [verified, heq, hpos, add_mul, Set.mem_Ico]
        rw [walk] at hbytes'
        rw [hbytes', hbytes, hverified, Set.union_assoc]
      · have hcorrupt : corrupt size bs done [(hashes, n)] = [] :=
          corrupt_eq_nil fun l hl hc => by
            obtain rfl := List.mem_singleton.mp hl
            exact hc.1 heq
        rw [walk] at hfailed'
        rw [hfailed', hfailed, hcorrupt, List.length_nil, zero_add]
    · have hin : (r.blockSegment bs).inSet done = true := by
        cases hcase : (r.blockSegment bs).inSet done with
        | true => rfl
        | false => exact absurd ⟨heq, hblock ▸ hcase⟩ hfirst
      have hleaf := leaf_corrupt heq hin
      obtain ⟨hinv', hpos'', hbytes', hfailed'⟩ := ih (h.skip hbs) hnext hrest
      rw [hleaf]
      refine ⟨hinv', hpos'', ?_, ?_⟩
      · have hverified : verified size bs [(hashes, n)] = ∅ := by
          ext x
          simp [verified, heq]
        rw [walk] at hbytes'
        rw [hbytes', hverified, Set.empty_union]
      · have hcorrupt : corrupt size bs done [(hashes, n)] = [(hashes, n)] :=
          List.filter_eq_self.mpr fun l hl => by
            obtain rfl := List.mem_singleton.mp hl
            exact decide_eq_true ⟨heq, hblock ▸ hin⟩
        rw [walk] at hfailed'
        rw [hfailed', hcorrupt, List.length_singleton, Nat.cast_add, mul_add, Nat.cast_one, mul_one,
          add_assoc]

end Recheck

section Whole

variable {q : QueueItem} {bs : Int} {leaves : LeafPairs}

theorem blockAt_getEnd {size : Int} {k : Nat} (hbs : 0 < bs) (hk : size ≤ k * bs) :
    (blockAt size bs k).getEnd = size := by
  simp only [blockAt, Segment.getEnd]
  omega

/-- Blocks that begin behind the file are in no finished segment if one of them is not. -/
theorem end_lt_of_missing {k : Nat} {m : TTHValue × TTHValue} (hbs : 0 < bs)
    (hdone : ∀ s ∈ q.done.toList, s.start < q.size) (hk : q.size ≤ k * bs)
    (hmiss : Missing q.size bs q.done (m, k)) : ∀ s ∈ q.done.toList, s.getEnd < q.size := by
  intro s hs
  have hout := List.any_eq_false.mp hmiss.2 s hs
  by_contra hend
  refine hout ?_
  have hstart := hdone s hs
  rw [Segment.contains, blockAt_getEnd hbs hk, Bool.and_eq_true, decide_eq_true_eq,
    decide_eq_true_eq]
  exact ⟨(lt_of_lt_of_le hstart hk).le, not_lt.mp hend⟩

theorem settled_of_split {pre rest : LeafPairs} {m : TTHValue × TTHValue}
    (hpre : ∀ l ∈ pre.zipIdx, ¬ Missing q.size bs q.done l)
    (hrest : ∀ l ∈ rest.zipIdx (pre.length + 1), pre.length * bs < q.size →
      Missing q.size bs q.done l)
    (hbs : 0 < bs) : Settled q bs (pre ++ m :: rest) := by
  have hle : ∀ l ∈ (m, pre.length) :: rest.zipIdx (pre.length + 1), l.2 * bs < q.size →
      pre.length * bs < q.size := by
    intro l hl hlt
    refine lt_of_le_of_lt (mul_le_mul_of_nonneg_right (Int.ofNat_le.mpr ?_) hbs.le) hlt
    rcases List.mem_cons.mp hl with rfl | hl
    · exact le_rfl
    · exact le_trans (Nat.le_succ _) (List.le_snd_of_mem_zipIdx hl)
  rw [Settled, List.zipIdx_append, List.zipIdx_cons, Nat.zero_add]
  refine List.pairwise_append.mpr ⟨?_, ?_, fun l hl l' _ hmiss => absurd hmiss (hpre l hl)⟩
  · exact List.pairwise_of_forall_mem_list fun l hl l' _ hmiss => absurd hmiss (hpre l hl)
  · refine List.pairwise_cons.mpr ⟨fun l' hl' _ hlt => hrest l' hl' hlt, ?_⟩
    exact List.pairwise_of_forall_mem_list fun l hl l' hl' _ hlt =>
      hrest l' hl' (hle l (List.mem_cons_of_mem _ hl) hlt)

/-- **The walk rebuilds what is verified exactly when it is settled after the first missing
    block.** -/
theorem recheck_rebuilds_iff (hbs : 0 < bs) (hdone : ∀ s ∈ q.done.toList, s.start < q.size) :
    Rebuilt q bs leaves ↔ Settled q bs leaves := by
  have hinit : Recheck.Inv q.size (Recheck.start q) := ⟨rfl, below_nil⟩
  have hpos0 : (Recheck.start q).pos = (0 : Nat) * bs := (zero_mul bs).symm
  have hempty : bytes (Recheck.start q).q.done.toList = ∅ := covered_nil
  rcases @first_missing bs q.size q.done leaves 0 with hnone | ⟨pre, m, rest, rfl, hpre, hm⟩
  · obtain ⟨-, -, hbytes, hfailed⟩ := Recheck.walk_aligned hbs hinit hpos0 hnone
    rw [hempty, Set.empty_union] at hbytes
    refine iff_of_true ⟨hbytes, hfailed.trans (zero_add _)⟩ ?_
    exact List.pairwise_of_forall_mem_list fun l hl l' _ hmiss => absurd hmiss (hnone l hl)
  · rw [Nat.zero_add] at hm
    obtain ⟨hinv, hpos, hbytes, hfailed⟩ := Recheck.walk_aligned hbs hinit hpos0 hpre
    rw [hempty, Set.empty_union] at hbytes
    rw [Nat.zero_add] at hpos
    generalize hr : Recheck.walk bs q.done (Recheck.start q) pre = r at *
    have hfailed : r.failedBytes = bs * (corrupt q.size bs q.done pre.zipIdx).length :=
      hfailed.trans (zero_add _)
    -- the missing block leaves the walk where it was
    have hout : (r.blockSegment bs).inSet q.done = false := by
      rw [Recheck.blockSegment, hinv.sizeOf, hpos]
      exact hm.2
    have hwalk : recheckLeaves q bs (pre ++ m :: rest) = Recheck.walk bs q.done r rest := by
      rw [recheckLeaves, List.foldl_append, List.foldl_cons, ← Recheck.walk, ← Recheck.walk, hr,
        Recheck.leaf_missing hm.1 hout]
    have hzip : (pre ++ m :: rest).zipIdx =
        pre.zipIdx ++ ([(m, pre.length)] ++ rest.zipIdx (pre.length + 1)) := by
      rw [List.zipIdx_append, List.zipIdx_cons, Nat.zero_add, List.singleton_append]
    have hverified : verified q.size bs (pre ++ m :: rest).zipIdx =
        verified q.size bs pre.zipIdx ∪ verified q.size bs (rest.zipIdx (pre.length + 1)) := by
      have hone : verified q.size bs [(m, pre.length)] = ∅ :=
        verified_eq_empty fun l hl heq => by
          obtain rfl := List.mem_singleton.mp hl
          exact absurd heq hm.1
      rw [hzip, verified_append, verified_append, hone, Set.empty_union]
    have hcorrupt : corrupt q.size bs q.done (pre ++ m :: rest).zipIdx =
        corrupt q.size bs q.done pre.zipIdx ++
          corrupt q.size bs q.done (rest.zipIdx (pre.length + 1)) := by
      have hone : corrupt q.size bs q.done [(m, pre.length)] = [] :=
        corrupt_eq_nil fun l hl => by
          obtain rfl := List.mem_singleton.mp hl
          exact not_corrupt_of_missing hm
      rw [hzip, corrupt_append, corrupt_append, hone, List.nil_append]
    rw [Rebuilt, hwalk, hverified, hcorrupt, ← hbytes, List.length_append, Nat.cast_add, mul_add,
      ← hfailed]
    have hbound : ∀ l ∈ rest.zipIdx (pre.length + 1), (pre.length : Int) * bs < l.2 * bs := by
      intro l hl
      exact mul_lt_mul_of_pos_right (Int.ofNat_lt.mpr (List.le_snd_of_mem_zipIdx hl)) hbs
    by_cases hsize : pre.length * bs < q.size
    · by_cases hall : ∀ l ∈ rest.zipIdx (pre.length + 1), Missing q.size bs q.done l
      · refine iff_of_true ?_ (settled_of_split hpre (fun l hl _ => hall l hl) hbs)
        have hne : ∀ hashes ∈ rest, hashes.1 ≠ hashes.2 := by
          intro hashes hmem
          rw [← List.zipIdx_map_fst (pre.length + 1) rest] at hmem
          obtain ⟨l, hl, rfl⟩ := List.mem_map.mp hmem
          exact (hall l hl).1
        rw [Recheck.walk_missing hout hne,
          verified_eq_empty fun l hl heq => absurd heq (hall l hl).1,
          corrupt_eq_nil fun l hl => not_corrupt_of_missing (hall l hl)]
        exact ⟨(Set.union_empty _).symm, by simp⟩
      · obtain ⟨l', hl', hl'miss⟩ : ∃ l ∈ rest.zipIdx (pre.length + 1),
            ¬ Missing q.size bs q.done l := by
          push Not at hall
          exact hall
        refine iff_of_false ?_ ?_
        · intro hrebuilt
          by_cases hsome : ∃ hashes ∈ rest, hashes.1 = hashes.2
          · -- the first leaves that agree finish the missing block
            have hmem := Recheck.walk_agree hbs hinv (hpos ▸ hsize) hout hsome
            rw [hrebuilt.1, hpos] at hmem
            rcases hmem with hmem | hmem
            · exact hinv.below.notMem (hpos ▸ hmem)
            · obtain ⟨l, hl, -, hle, -⟩ := hmem
              exact absurd hle (not_le.mpr (hbound l hl))
          · push Not at hsome
            have hcount := hrebuilt.2
            rw [Recheck.walk_missing hout hsome] at hcount
            -- the block that is not missing is not counted
            have hbad : l' ∈ corrupt q.size bs q.done (rest.zipIdx (pre.length + 1)) := by
              have hne := hsome _ (List.fst_mem_of_mem_zipIdx hl')
              refine List.mem_filter.mpr ⟨hl', decide_eq_true ⟨hne, ?_⟩⟩
              by_contra hin
              exact hl'miss ⟨hne, Bool.eq_false_iff.mpr hin⟩
            have hlen : 0 < (corrupt q.size bs q.done (rest.zipIdx (pre.length + 1))).length :=
              List.length_pos_of_mem hbad
            have hmul := mul_pos hbs (Int.natCast_pos.mpr hlen)
            omega
        · intro hsettled
          rw [Settled, hzip] at hsettled
          obtain ⟨-, htail, -⟩ := List.pairwise_append.mp hsettled
          exact hl'miss ((List.pairwise_cons.mp htail).1 l' hl' hm hsize)
    · have hk := not_lt.mp hsize
      have hends := end_lt_of_missing hbs hdone hk hm
      obtain ⟨hbytes', hfailed'⟩ := Recheck.walk_behind rest hbs hinv (hpos ▸ hk) hends
      refine iff_of_true ?_ (settled_of_split hpre (fun l hl hlt => absurd hlt hsize) hbs)
      rw [hbytes', hfailed', verified_eq_empty fun l hl _ => le_trans hk (hbound l hl).le,
        corrupt_eq_nil fun l hl hc => ?_]
      · exact ⟨(Set.union_empty _).symm, by simp⟩
      · obtain ⟨s, hs, hcontains⟩ := List.any_eq_true.mp hc.2
        rw [Segment.contains, blockAt_getEnd hbs (le_trans hk (hbound l hl).le), Bool.and_eq_true,
          decide_eq_true_eq, decide_eq_true_eq] at hcontains
        exact absurd hcontains.2 (not_le.mpr (hends s hs))

/-- Leaves of two blocks; the first ones differ, and nothing was finished. -/
def missingFirst : LeafPairs :=
  [(Vector.replicate 24 0, Vector.replicate 24 1), (Vector.replicate 24 2, Vector.replicate 24 2)]

/-- The block that agrees is the second one, and the first one is made finished. -/
theorem recheck_not_rebuilt :
    ¬ ∀ (q : QueueItem) (bs : Int) (leaves : LeafPairs), 0 < bs →
      (∀ s ∈ q.done.toList, s.start < q.size) → Rebuilt q bs leaves := by
  intro h
  have hrebuilt := (h (QueueItem.sample 200) 100 missingFirst (by decide) (by simp [
    QueueItem.sample, QueueItem.create])).1
  have hdone : (recheckLeaves (QueueItem.sample 200) 100 missingFirst).q.done.toList =
      [⟨0, 100⟩] := by decide +kernel
  rw [hdone, bytes, covered_singleton] at hrebuilt
  have hmem : (0 : Int) ∈ verified 200 100 missingFirst.zipIdx := by
    have hzero : (0 : Int) ∈ Set.Ico (Segment.start ⟨0, 100⟩) (Segment.getEnd ⟨0, 100⟩) :=
      ⟨le_rfl, by decide⟩
    exact hrebuilt ▸ hzero
  obtain ⟨l, hl, heq, hle, -⟩ := hmem
  have hcases : l = ((Vector.replicate 24 0, Vector.replicate 24 1), 0) ∨
      l = ((Vector.replicate 24 2, Vector.replicate 24 2), 1) := by
    simpa [missingFirst, List.zipIdx_cons] using hl
  rcases hcases with rfl | rfl
  · exact absurd heq (by decide)
  · exact absurd hle (by decide)

/-- Without the block that agrees the walk is right. -/
theorem recheck_rebuilds_missing :
    Rebuilt (QueueItem.sample 200) 100 (missingFirst.take 1) ↔
      Settled (QueueItem.sample 200) 100 (missingFirst.take 1) :=
  recheck_rebuilds_iff (by decide) (by simp [QueueItem.sample, QueueItem.create])

end Whole

end Airdcpp
