import Airdcpp.Transfer.Download

/-!
# `Transfer/Verification` — which downloads are verified before they are recorded

A download is recorded as finished when all its bytes have been written and every complete
block of them had the hash the tree has for it (`run_recorded`). The bytes after the last
complete block are hashed and compared by `flushBuffers`, whose exception `Download::flush`
drops, so they are recorded whatever they are.

Hence a segment is safe exactly when it has no such bytes (`recorded_verified_iff`): its end is
the end of a block and blocks are `1024 · 2^k` bytes. A single-root tree has the file size as
its block size, so under one of those a file is safe only when its size is `1024 · 2^k`.
-/

namespace Airdcpp

open Lib MerkleTree

namespace Download

variable {V σ : Type*} {h : Hasher V}

/-! ## Trees, segments, and what verified means -/

/-- The shapes a tree has: blocks of `1024 · 2^k` bytes, or one block that is the file. -/
structure Shaped (h : Hasher V) (tree : MerkleTree V) : Prop where
  blockSize : (∃ k, tree.blockSize = (hasher h).span k) ∨ tree.blockSize = tree.fileSize
  leaves : ∀ i, i * tree.blockSize < tree.fileSize → i < tree.leaves.length

/-- The tree is the tree of `file`. -/
structure TreeOf (h : Hasher V) (file : Str) (tree : MerkleTree V) : Prop where
  blockSize : (∃ k, tree.blockSize = (hasher h).span k) ∨ tree.blockSize = tree.fileSize
  fileSize : tree.fileSize = file.length
  root : tree.root = (hasher h).hash file
  leaf : ∀ i, i * tree.blockSize < tree.fileSize →
    tree.leaves[i]? = some ((hasher h).hash (leafBlock tree.blockSize file i))

/-- A segment of the file that starts at a block and ends at one or at the end of the file. -/
structure Aligned (tree : MerkleTree V) (seg : Segment) : Prop where
  nonneg : 0 ≤ seg.start
  pos : 0 < seg.size
  start : (tree.blockSize : Int) ∣ seg.start
  last : (tree.blockSize : Int) ∣ seg.getEnd ∨ seg.getEnd = tree.fileSize
  inside : seg.getEnd ≤ tree.fileSize

/-- Every block of the segment's bytes, the last and shorter one included, has the hash that
    the tree has for it. -/
def SegmentVerified (h : Hasher V) (tree : MerkleTree V) (seg : Segment) (data : Str) : Prop :=
  ∀ i, i * tree.blockSize < data.length →
    tree.leaves[seg.start.toNat / tree.blockSize + i]? =
      some ((hasher h).hash (leafBlock tree.blockSize data i))

/-- The segment ends with a complete block: block sizes are `1024 · 2^k` and its end is a
    multiple of one. -/
def EndsInCompleteBlock (tree : MerkleTree V) (seg : Segment) : Prop :=
  (∃ k, tree.blockSize = BASE_BLOCK_SIZE * 2 ^ k) ∧ (tree.blockSize : Int) ∣ seg.getEnd

/-- The bytes of the segment's last block. -/
def lastBlock (tree : MerkleTree V) (seg : Segment) : Nat :=
  (seg.size.toNat - 1) % tree.blockSize + 1

/-- Some two contents of `n` bytes have different hashes. -/
def TellsApart (h : Hasher V) (n : Nat) : Prop :=
  ∃ x y : Str, x.length = n ∧ y.length = n ∧ (hasher h).hash x ≠ (hasher h).hash y

theorem TreeOf.shaped {file : Str} {tree : MerkleTree V} (ht : TreeOf h file tree) :
    Shaped h tree :=
  ⟨ht.blockSize, fun i hi => (List.getElem?_eq_some_iff.mp (ht.leaf i hi)).1⟩

/-! ## Blocks of a segment -/

/-- The blocks in front of the segment. -/
def blocksBefore (tree : MerkleTree V) (seg : Segment) : Nat :=
  seg.start.toNat / tree.blockSize

/-- The numbers of an aligned segment, as the natural numbers they are. -/
structure Blocks (tree : MerkleTree V) (seg : Segment) : Prop where
  pos : 0 < tree.blockSize
  size : 0 < seg.size.toNat
  before : blocksBefore tree seg * tree.blockSize = seg.start.toNat
  inside : seg.start.toNat + seg.size.toNat ≤ tree.fileSize
  le_leaves : blocksBefore tree seg ≤ tree.leaves.length

theorem Aligned.blocks {tree : MerkleTree V} {seg : Segment} (hs : Shaped h tree)
    (ha : Aligned tree seg) : Blocks tree seg := by
  obtain ⟨hnonneg, hpos, hstart, -, hin⟩ := ha
  have hend : seg.getEnd = seg.start + seg.size := rfl
  have hbs : 0 < tree.blockSize := by
    rcases hs.blockSize with ⟨k, hk⟩ | hk
    · rw [hk]; exact (hasher h).span_pos k
    · omega
  have hbefore : blocksBefore tree seg * tree.blockSize = seg.start.toNat := by
    refine Nat.div_mul_cancel ?_
    obtain ⟨n, hn⟩ := Int.eq_ofNat_of_zero_le hnonneg
    rw [hn] at hstart ⊢
    exact Int.natCast_dvd_natCast.mp hstart
  exact ⟨hbs, by omega, hbefore, by omega, (hs.leaves _ (by omega)).le⟩

/-- The end of a segment is the end of a block exactly when its size is a number of blocks. -/
theorem Blocks.dvd_getEnd_iff {tree : MerkleTree V} {seg : Segment} (hb : Blocks tree seg)
    (hnonneg : 0 ≤ seg.start) :
    (tree.blockSize : Int) ∣ seg.getEnd ↔ tree.blockSize ∣ seg.size.toNat := by
  have hend : seg.getEnd = ((seg.start.toNat + seg.size.toNat : Nat) : Int) := by
    have := hb.size
    unfold Segment.getEnd
    omega
  rw [hend, Int.natCast_dvd_natCast, ← hb.before]
  exact (Nat.dvd_add_right (Nat.dvd_mul_left _ _))

/-- A block smaller than a chunk is the whole file, which then never fills one. -/
theorem Blocks.fits {tree : MerkleTree V} {seg : Segment} {pre : List V} {data b : Str}
    {m : MerkleCheckOutputStream V σ} (hb : Blocks tree seg) (hs : Shaped h tree)
    (hcom : m.Committed h pre data) (hreal : m.real = tree)
    (hle : (data ++ b).length ≤ seg.size.toNat) : m.Fits (data ++ b) := by
  have hbs : m.cur.blockSize = tree.blockSize := hcom.blockSize.trans (by rw [hreal])
  unfold MerkleCheckOutputStream.Fits
  rw [hbs]
  rcases hs.blockSize with ⟨k, hk⟩ | hk
  · rw [hk]
    exact Or.inl (Nat.le_mul_of_pos_right _ (by positivity))
  · have := hb.inside
    omega

/-! ## The run -/

/-- `data` has been received, and the leaves of its complete blocks are the tree's. -/
structure Checked (h : Hasher V) (tree : MerkleTree V) (seg : Segment) (data : Str)
    (m : MerkleCheckOutputStream V σ) : Prop where
  real : m.real = tree
  committed : m.Committed h (tree.leaves.take (blocksBefore tree seg)) data
  leaves : m.cur.leaves <+: tree.leaves

/-- The leaf of a complete block of checked data is the tree's. -/
theorem Checked.block {tree : MerkleTree V} {seg : Segment} {data : Str}
    {m : MerkleCheckOutputStream V σ} (hm : Checked h tree seg data m) (hb : Blocks tree seg)
    {k : Nat} (hk : tree.blockSize = (hasher h).span k) {i : Nat}
    (hi : (i + 1) * tree.blockSize ≤ data.length) :
    tree.leaves[blocksBefore tree seg + i]? =
      some ((hasher h).hash (leafBlock tree.blockSize data i)) := by
  obtain ⟨rfl, hcom, hpre⟩ := hm
  have hlen : (m.real.leaves.take (blocksBefore m.real seg)).length = blocksBefore m.real seg :=
    List.length_take_of_le hb.le_leaves
  have hlt := hcom.complete hk hi
  have hleaf := (hcom.leaf hlt).1
  rw [hlen] at hlt hleaf
  rw [List.prefix_iff_getElem?.mp hpre _ hlt, ← hleaf, List.getElem?_eq_getElem hlt]

/-- A running download that has received `data`. -/
structure Received (h : Hasher V) (tree : MerkleTree V) (seg : Segment) (data : Str)
    (d : Download V σ) : Prop where
  segment : d.segment = seg
  more : data.length < seg.size.toNat
  output : ∃ out, d.output = some out ∧ out.maxBytes + data.length = seg.size.toNat ∧
    out.s.Verified ∧ Checked h tree seg data out.s

/-- Why a piece of data can fail a download: it is too long, it could not be written, or a
    block it completes is not the tree's. -/
def Rejected (h : Hasher V) (os : OutputStream σ) (tree : MerkleTree V) (seg : Segment)
    (data b : Str) : Prop :=
  seg.size.toNat < (data ++ b).length ∨ (∃ s e, (os.write s b).1 = .error e) ∨
    ∃ m : MerkleCheckOutputStream V σ, m.real = tree ∧
      m.Committed h (tree.leaves.take (blocksBefore tree seg)) (data ++ b) ∧
      ¬ m.cur.leaves <+: tree.leaves

section Run

variable [Inhabited V]

theorem received_opened {tree : MerkleTree V} {seg : Segment} (hb : Blocks tree seg)
    (path tempTarget : Str) (file : σ) :
    Received h tree seg [] (opened path tempTarget seg tree file) := by
  have hcur : (MerkleCheckOutputStream.create tree file seg.start.toNat).cur.leaves =
      tree.leaves.take (blocksBefore tree seg) :=
    if_neg (not_lt.mpr hb.le_leaves)
  refine ⟨rfl, hb.size, _, rfl, rfl, ⟨Nat.zero_le _, List.nil_prefix⟩, rfl,
    ⟨⟨[], rfl, ?_, ?_⟩, ?_, rfl⟩, ?_⟩
  · exact absorbs_nil hcur rfl
  · exact dvd_zero _
  · exact Nat.zero_lt_succ _
  · rw [hcur]
    exact List.take_prefix _ _

variable [DecidableEq V] (os : OutputStream σ) (q : Option QueueItem) (now : Int) (nicks : Str)

theorem onData_of_error {d : Download V σ} {b : Str} {e : Exception}
    {out out' : LimitedOutputStream (MerkleCheckOutputStream V σ)} (hout : d.output = some out)
    (hw : out.write (MerkleCheckOutputStream.ops h os) b = (.error e, out')) :
    onData h os q now nicks d b =
      failDownload h os q now nicks { d with output := some out' } e := by
  unfold onData
  simp only [hout, hw]

theorem onData_of_ok {d : Download V σ} {b : Str} {n : Nat}
    {out out' : LimitedOutputStream (MerkleCheckOutputStream V σ)} (hout : d.output = some out)
    (hw : out.write (MerkleCheckOutputStream.ops h os) b = (.ok n, out')) :
    onData h os q now nicks d b =
      if out'.eof then
        endData h os q now nicks
          { d with output := some out', pos := d.pos + n, actual := d.actual + b.length }
      else
        .running
          { d with output := some out', pos := d.pos + n, actual := d.actual + b.length } := by
  unfold onData
  simp only [hout, hw]

/-- One piece of data: the download goes on with the longer data, or completes with all of it,
    or fails for one of the three reasons. -/
theorem onData_received {tree : MerkleTree V} {seg : Segment} {data b : Str} {d : Download V σ}
    (hs : Shaped h tree) (hb : Blocks tree seg) (hd : Received h tree seg data d) :
    (∃ d', onData h os q now nicks d b = .running d' ∧ Received h tree seg (data ++ b) d') ∨
    (∃ d' : Download V σ, onData h os q now nicks d b = endData h os q now nicks d' ∧
      d'.segment = seg ∧ (data ++ b).length = seg.size.toNat ∧
      ∃ m : MerkleCheckOutputStream V σ, Checked h tree seg (data ++ b) m) ∨
    ((∃ e put, onData h os q now nicks d b = .failed e put) ∧ Rejected h os tree seg data b) := by
  obtain ⟨hseg, -, out, hout, hmax, hver, hreal, hcom, hpre⟩ := hd
  rcases Nat.lt_or_ge out.maxBytes b.length with hlong | hfits
  · have hmuch := LimitedOutputStream.write_of_lt (MerkleCheckOutputStream.ops h os) hlong
    have hfail := onData_of_error os q now nicks hout hmuch
    exact Or.inr (Or.inr ⟨⟨_, _, hfail⟩, Or.inl (by rw [List.length_append]; omega)⟩)
  have hle : (data ++ b).length ≤ seg.size.toNat := by rw [List.length_append]; omega
  obtain ⟨m', hcom', hadv, hspec⟩ :=
    MerkleCheckOutputStream.write_spec os hcom hver (hb.fits hs hcom hreal hle)
  rw [hreal] at hspec
  have hwrite := LimitedOutputStream.write_of_le (MerkleCheckOutputStream.ops h os) hfits
  by_cases hpre' : m'.cur.leaves <+: tree.leaves
  · rw [if_pos hpre'] at hspec
    rw [show (MerkleCheckOutputStream.ops h os).write out.s b = _ from hspec] at hwrite
    have hcheck : Checked h tree seg (data ++ b) { m' with
        verified := m'.cur.leaves.length, s := (os.write out.s.s b).2 } :=
      ⟨hadv.real.trans hreal, ⟨hcom'.hashed, hcom'.buffered, hcom'.blockSize⟩, hpre'⟩
    cases hr : (os.write out.s.s b).1 with
    | error e =>
      rw [hr] at hwrite
      have hfail := onData_of_error os q now nicks hout hwrite
      exact Or.inr (Or.inr ⟨⟨_, _, hfail⟩, Or.inr (Or.inl ⟨_, e, hr⟩)⟩)
    | ok n =>
      rw [hr] at hwrite
      have hok := onData_of_ok os q now nicks hout hwrite
      by_cases hzero : out.maxBytes - b.length = 0
      · have hlen : (data ++ b).length = seg.size.toNat := by
          rw [List.length_append] at hle ⊢; omega
        exact Or.inr (Or.inl
          ⟨_, hok.trans (if_pos (beq_iff_eq.mpr hzero)), hseg, hlen, _, hcheck⟩)
      · refine Or.inl ⟨_, hok.trans (if_neg fun h => hzero (beq_iff_eq.mp h)), hseg, ?_, _, rfl,
          ?_, ?_, hcheck⟩
        · rw [List.length_append] at hle ⊢
          omega
        · simp only [List.length_append]
          omega
        · exact ⟨le_refl _, by rw [List.take_length]; exact hcheck.real.symm ▸ hpre'⟩
  · rw [if_neg hpre'] at hspec
    obtain ⟨m'', hm''⟩ := hspec
    rw [show (MerkleCheckOutputStream.ops h os).write out.s b = _ from hm''] at hwrite
    exact Or.inr (Or.inr ⟨⟨_, _, onData_of_error os q now nicks hout hwrite⟩,
      Or.inr (Or.inr ⟨m', hadv.real.trans hreal, hcom', hpre'⟩)⟩)

/-- **What a download has been through when it is recorded**, for every way its data was cut:
    all its bytes were received, and the leaves of their complete blocks are the tree's. -/
theorem run_recorded {tree : MerkleTree V} {seg : Segment} {data : Str} {d : Download V σ}
    {chunks : List Str} (hs : Shaped h tree) (hb : Blocks tree seg)
    (hd : Received h tree seg data d)
    (hrec : (run h os q now nicks d chunks).recorded = some seg) :
    ∃ m : MerkleCheckOutputStream V σ,
      ((data ++ chunks.flatten).take seg.size.toNat).length = seg.size.toNat ∧
      Checked h tree seg ((data ++ chunks.flatten).take seg.size.toNat) m := by
  induction chunks generalizing data d with
  | nil => exact absurd hrec (by simp [run, Outcome.recorded])
  | cons b chunks ih =>
    rw [List.flatten_cons, ← List.append_assoc]
    rcases onData_received os q now nicks (b := b) hs hb hd with
      ⟨d', heq, hd'⟩ | ⟨d', heq, hseg, hlen, m, hm⟩ | ⟨⟨e, put, heq⟩, -⟩
    · rw [run, heq] at hrec
      exact ih hd' hrec
    · rw [← hlen, List.take_left]
      exact ⟨m, rfl, hm⟩
    · rw [run, heq] at hrec
      exact absurd hrec (by simp [Outcome.recorded])

/-! ## Which runs are verified -/

/-- **Segments that end in a complete block are safe**: under any tree, for any data however
    cut, and whatever happens to the file. -/
theorem recorded_verified {tree : MerkleTree V} {seg : Segment} {path tempTarget : Str} {file : σ}
    {chunks : List Str} (hs : Shaped h tree) (ha : Aligned tree seg)
    (hend : EndsInCompleteBlock tree seg)
    (hrec : (run h os q now nicks (opened path tempTarget seg tree file) chunks).recorded =
      some seg) :
    SegmentVerified h tree seg (chunks.flatten.take seg.size.toNat) := by
  have hb := ha.blocks hs
  obtain ⟨⟨k, hk⟩, hdvd⟩ := hend
  obtain ⟨m, hlen, hm⟩ :=
    run_recorded os q now nicks hs hb (received_opened hb path tempTarget file) hrec
  rw [List.nil_append] at hlen hm
  intro i hi
  refine hm.block hb hk ?_
  rw [hlen] at hi ⊢
  -- the size is a number of blocks, so a block that starts inside ends inside
  obtain ⟨n, hn⟩ := (hb.dvd_getEnd_iff ha.nonneg).mp hdvd
  rw [hn, Nat.mul_comm] at hi ⊢
  exact Nat.mul_le_mul_left _ (Nat.lt_of_mul_lt_mul_left hi)

/-- Data whose complete blocks are the tree's is recorded, if it is received in one piece and
    the file can be written. -/
theorem run_completes {tree : MerkleTree V} {seg : Segment} {data : Str} (hs : Shaped h tree)
    (hb : Blocks tree seg) (hlen : data.length = seg.size.toNat)
    (hblocks : ∀ i, (i + 1) * tree.blockSize ≤ data.length →
      (∃ k, tree.blockSize = (hasher h).span k) →
      tree.leaves[blocksBefore tree seg + i]? =
        some ((hasher h).hash (leafBlock tree.blockSize data i))) :
    (run h StringOutputStream (some (QueueItem.sample seg.size)) 0 []
      (opened [] [] seg tree []) [data]).recorded = some seg := by
  have hd := received_opened (h := h) hb [] [] ([] : Str)
  rcases onData_received StringOutputStream (some (QueueItem.sample seg.size)) 0 [] (b := data)
    hs hb hd with ⟨d', -, hd'⟩ | ⟨d', heq, hseg, -, -⟩ |
      ⟨-, hlong | ⟨_, _, herr⟩ | ⟨m, rfl, hcom, hne⟩⟩
  · exact absurd hd'.more (by rw [List.nil_append, hlen]; exact lt_irrefl _)
  · rw [run, heq]
    exact congrArg some ((flush_segment h StringOutputStream d').trans hseg)
  · exact absurd hlong (by rw [List.nil_append, hlen]; exact lt_irrefl _)
  · cases herr
  · have hpre : (m.real.leaves.take (blocksBefore m.real seg)).length = blocksBefore m.real seg :=
      List.length_take_of_le hb.le_leaves
    refine absurd (List.prefix_iff_getElem?.mpr fun i hi => ?_) hne
    rw [← List.getElem?_eq_getElem hi]
    rcases Nat.lt_or_ge i (blocksBefore m.real seg) with hlt | hge
    · -- taken over from the tree
      have := List.prefix_iff_getElem?.mp hcom.prefix i (by omega)
      rw [this, List.getElem_take, List.getElem?_eq_getElem]
    · obtain ⟨j, rfl⟩ := Nat.exists_eq_add_of_le hge
      obtain ⟨hleaf, hle, hk⟩ := hcom.leaf (i := j) (by omega)
      rw [hpre] at hleaf
      rw [List.nil_append] at hle hleaf
      rw [hleaf, hblocks j hle hk]

end Run

/-! ## Another last block -/

/-- The number of the segment's last block. -/
def lastIndex (tree : MerkleTree V) (seg : Segment) : Nat :=
  (seg.size.toNat - 1) / tree.blockSize

/-- The segment's bytes of the file, with `y` in place of the last block. -/
def replaceLast (file : Str) (tree : MerkleTree V) (seg : Segment) (y : Str) : Str :=
  (file.drop (blocksBefore tree seg * tree.blockSize)).take
    (lastIndex tree seg * tree.blockSize) ++ y

theorem Blocks.last {tree : MerkleTree V} {seg : Segment} (hb : Blocks tree seg) :
    lastIndex tree seg * tree.blockSize + lastBlock tree seg =
      seg.size.toNat ∧ lastBlock tree seg ≤ tree.blockSize := by
  have hdm := Nat.div_add_mod (seg.size.toNat - 1) tree.blockSize
  rw [Nat.mul_comm] at hdm
  have := hb.size
  exact ⟨by unfold lastBlock lastIndex; omega, Nat.mod_lt _ hb.pos⟩

section Replace

variable {file y : Str} {tree : MerkleTree V} {seg : Segment}

theorem length_front (ht : TreeOf h file tree) (hb : Blocks tree seg) :
    ((file.drop (blocksBefore tree seg * tree.blockSize)).take
      (lastIndex tree seg * tree.blockSize)).length =
      lastIndex tree seg * tree.blockSize := by
  have h₁ := hb.inside
  have h₂ := ht.fileSize
  have h₃ := hb.last.1
  rw [List.length_take, List.length_drop, hb.before]
  omega

theorem length_replaceLast (ht : TreeOf h file tree) (hb : Blocks tree seg)
    (hy : y.length = lastBlock tree seg) :
    (replaceLast file tree seg y).length = seg.size.toNat := by
  unfold replaceLast
  rw [List.length_append, length_front ht hb, hy, hb.last.1]

/-- The blocks in front of the last one are the file's. -/
theorem leafBlock_replaceLast (ht : TreeOf h file tree) (hb : Blocks tree seg) {i : Nat}
    (hi : i < lastIndex tree seg) :
    leafBlock tree.blockSize (replaceLast file tree seg y) i =
      leafBlock tree.blockSize file (blocksBefore tree seg + i) := by
  have hle : (i + 1) * tree.blockSize ≤
      lastIndex tree seg * tree.blockSize := Nat.mul_le_mul_right _ hi
  have hfront := length_front ht hb
  unfold replaceLast
  rw [leafBlock_append (hfront.symm ▸ hle), ← leafBlock_drop]
  conv_rhs => rw [← List.take_append_drop
    (lastIndex tree seg * tree.blockSize)
    (file.drop (blocksBefore tree seg * tree.blockSize))]
  exact (leafBlock_append (hfront.symm ▸ hle)).symm

theorem leafBlock_replaceLast_last (ht : TreeOf h file tree) (hb : Blocks tree seg)
    (hy : y.length = lastBlock tree seg) :
    leafBlock tree.blockSize (replaceLast file tree seg y)
      (lastIndex tree seg) = y :=
  leafBlock_last (length_front ht hb) (hy ▸ hb.last.2)

/-- **An incomplete last block is recorded whatever it is.** -/
theorem run_replaceLast [Inhabited V] [DecidableEq V] (ht : TreeOf h file tree)
    (ha : Aligned tree seg) (hend : ¬ EndsInCompleteBlock tree seg)
    (hy : y.length = lastBlock tree seg) :
    (run h StringOutputStream (some (QueueItem.sample seg.size)) 0 []
      (opened [] [] seg tree []) [replaceLast file tree seg y]).recorded = some seg := by
  have hb := ha.blocks ht.shaped
  have hlen := length_replaceLast ht hb hy
  refine run_completes ht.shaped hb hlen fun i hi hk => ?_
  have hilt : i < lastIndex tree seg := by
    rw [hlen] at hi
    by_contra hge
    -- the last block is complete after all
    have hlast := hb.last
    have hmul : (lastIndex tree seg + 1) * tree.blockSize ≤ seg.size.toNat :=
      (Nat.mul_le_mul_right _ (by omega)).trans hi
    rw [Nat.add_mul, Nat.one_mul] at hmul
    refine hend ⟨hk, (hb.dvd_getEnd_iff ha.nonneg).mpr
      ⟨lastIndex tree seg + 1, ?_⟩⟩
    rw [Nat.mul_comm, Nat.add_mul, Nat.one_mul]
    omega
  rw [leafBlock_replaceLast ht hb hilt]
  refine ht.leaf _ ?_
  have h₁ := hb.last.1
  have h₂ := hb.before
  have h₃ := hb.inside
  have h₄ : (i + 1) * tree.blockSize ≤ _ := Nat.mul_le_mul_right tree.blockSize hilt
  have h₅ := hb.pos
  rw [Nat.add_mul, Nat.one_mul] at h₄
  rw [Nat.add_mul]
  omega

end Replace

/-- **A segment is safe exactly when it ends in a complete block**: under the tree of a file
    whose hash function tells contents of the last block's length apart, what is recorded as
    finished is verified, for all data and every way to cut it, if and only if the segment has
    no bytes after its last complete block. -/
theorem recorded_verified_iff [Inhabited V] [DecidableEq V] {file : Str} {tree : MerkleTree V}
    {seg : Segment}
    (ht : TreeOf h file tree) (ha : Aligned tree seg) (happ : TellsApart h (lastBlock tree seg)) :
    (∀ (τ : Type) (os : OutputStream τ) (q : Option QueueItem) (now : Int) (nicks : Str)
      (path tempTarget : Str) (dest : τ) (chunks : List Str),
      (run h os q now nicks (opened path tempTarget seg tree dest) chunks).recorded = some seg →
      SegmentVerified h tree seg (chunks.flatten.take seg.size.toNat)) ↔
    EndsInCompleteBlock tree seg := by
  have hs := ht.shaped
  have hb := ha.blocks hs
  constructor
  · intro hsafe
    by_contra hend
    obtain ⟨y, hy, hne⟩ : ∃ y : Str, y.length = lastBlock tree seg ∧ (hasher h).hash y ≠
        (hasher h).hash (leafBlock tree.blockSize file
          (blocksBefore tree seg + lastIndex tree seg)) := by
      obtain ⟨x, y, hx, hy, hxy⟩ := happ
      by_cases hx' : (hasher h).hash x = (hasher h).hash (leafBlock tree.blockSize file
          (blocksBefore tree seg + lastIndex tree seg))
      · exact ⟨y, hy, fun hy' => hxy (hx'.trans hy'.symm)⟩
      · exact ⟨x, hx, hx'⟩
    have hlen := length_replaceLast ht hb hy
    have hpos := hb.size
    have hlast := hb.last.1
    have hinside : (blocksBefore tree seg + lastIndex tree seg) *
        tree.blockSize < tree.fileSize := by
      have h₁ := hb.before
      have h₂ := hb.inside
      have h₃ : 0 < lastBlock tree seg := Nat.succ_pos _
      rw [Nat.add_mul]
      omega
    have hver := hsafe Str StringOutputStream _ 0 [] [] [] [] _ (run_replaceLast ht ha hend hy)
      (lastIndex tree seg)
    rw [List.flatten_singleton, List.take_of_length_le hlen.le] at hver
    have hleaf := hver (by rw [hlen]; have : 0 < lastBlock tree seg := Nat.succ_pos _; omega)
    rw [leafBlock_replaceLast_last ht hb hy] at hleaf
    rw [show seg.start.toNat / tree.blockSize = blocksBefore tree seg from rfl,
      ht.leaf _ hinside, Option.some.injEq] at hleaf
    exact hne hleaf.symm
  · intro hend τ os q now nicks path tempTarget dest chunks hrec
    exact recorded_verified os q now nicks hs ha hend hrec

/-! ## Single-root trees -/

/-- The tree a download falls back on has the root for its only leaf. -/
theorem treeOf_ofRoot (h : Hasher V) (file : Str) :
    TreeOf h file (ofRoot file.length file.length ((hasher h).hash file)) := by
  refine ⟨Or.inr rfl, rfl, rfl, fun i hi => ?_⟩
  have h0 : i = 0 := by
    by_contra hne
    have : file.length ≤ i * file.length := Nat.le_mul_of_pos_left _ (Nat.pos_of_ne_zero hne)
    exact absurd hi (not_lt.mpr this)
  subst h0
  show some _ = some ((hasher h).hash (leafBlock file.length file 0))
  unfold leafBlock
  rw [Nat.zero_mul, List.drop_zero, List.take_length]

theorem aligned_ofRoot {root : V} {n : Nat} (hn : 0 < n) : Aligned (ofRoot n n root) ⟨0, n⟩ :=
  ⟨le_refl _, by simpa using hn, dvd_zero _, Or.inr (zero_add _), (zero_add _).le⟩

/-- A hash function without collisions: the digest is what was hashed. -/
def bytesHasher : Hasher Str where
  finalize := id
  data := id

theorem tellsApart_bytesHasher {n : Nat} (hn : 0 < n) (hle : n ≤ BASE_BLOCK_SIZE) :
    TellsApart bytesHasher n := by
  refine ⟨List.replicate n 1, List.replicate n 2, List.length_replicate, List.length_replicate, ?_⟩
  rw [TreeHasher.hash_leaf _ (by rw [List.length_replicate]; exact hle),
    TreeHasher.hash_leaf _ (by rw [List.length_replicate]; exact hle)]
  intro heq
  obtain ⟨n, rfl⟩ := Nat.exists_eq_succ_of_ne_zero hn.ne'
  simp [hasher, leafHash, bytesHasher, List.replicate_succ] at heq

/-- A file of one complete block is safe under its single-root tree. -/
theorem recorded_verified_iff_block :
    EndsInCompleteBlock (ofRoot 1024 1024 ((hasher bytesHasher).hash (List.replicate 1024 1)))
      ⟨0, 1024⟩ ∧
    ∀ (τ : Type) (os : OutputStream τ) (q : Option QueueItem) (now : Int) (nicks : Str)
      (path tempTarget : Str) (dest : τ) (chunks : List Str),
      (run bytesHasher os q now nicks (opened path tempTarget ⟨0, 1024⟩
        (ofRoot 1024 1024 ((hasher bytesHasher).hash (List.replicate 1024 1))) dest)
        chunks).recorded = some ⟨0, 1024⟩ →
      SegmentVerified bytesHasher
        (ofRoot 1024 1024 ((hasher bytesHasher).hash (List.replicate 1024 1))) ⟨0, 1024⟩
        (chunks.flatten.take 1024) := by
  have hend : EndsInCompleteBlock
      (ofRoot 1024 1024 ((hasher bytesHasher).hash (List.replicate 1024 1))) ⟨0, 1024⟩ :=
    ⟨⟨0, rfl⟩, dvd_refl _⟩
  have ht := treeOf_ofRoot bytesHasher (List.replicate 1024 1)
  rw [List.length_replicate] at ht
  exact ⟨hend, (recorded_verified_iff ht (aligned_ofRoot (by decide))
    (tellsApart_bytesHasher (by decide) (by decide))).mpr hend⟩

/-- A file of one byte is not: the byte `2` is recorded under the tree of the byte `1`. -/
theorem recorded_wrong_byte :
    TreeOf bytesHasher [1] (ofRoot 1 1 ((hasher bytesHasher).hash [1])) ∧
    Aligned (ofRoot 1 1 ((hasher bytesHasher).hash [1])) ⟨0, 1⟩ ∧
    (run bytesHasher StringOutputStream (some (QueueItem.sample 1)) 0 []
      (opened [] [] ⟨0, 1⟩ (ofRoot 1 1 ((hasher bytesHasher).hash [1])) []) [[2]]).recorded =
      some ⟨0, 1⟩ ∧
    ¬ SegmentVerified bytesHasher (ofRoot 1 1 ((hasher bytesHasher).hash [1])) ⟨0, 1⟩ [2] := by
  have ht := treeOf_ofRoot bytesHasher [1]
  have ha : Aligned (ofRoot 1 1 ((hasher bytesHasher).hash [1])) ⟨0, 1⟩ :=
    aligned_ofRoot (by decide)
  have hend : ¬ EndsInCompleteBlock (ofRoot 1 1 ((hasher bytesHasher).hash [1])) ⟨0, 1⟩ := by
    rintro ⟨⟨k, hk⟩, -⟩
    have : 1 ≤ 2 ^ k := Nat.one_le_two_pow
    have h1 : 1 = BASE_BLOCK_SIZE * 2 ^ k := hk
    unfold BASE_BLOCK_SIZE at h1
    omega
  refine ⟨ht, ha, run_replaceLast ht ha hend (y := [2]) rfl, fun hver => ?_⟩
  have hleaf : (hasher bytesHasher).hash [1] = (hasher bytesHasher).hash [2] :=
    Option.some.inj (hver 0 (by decide))
  rw [TreeHasher.hash_leaf _ (by decide), TreeHasher.hash_leaf _ (by decide)] at hleaf
  exact absurd hleaf (by decide)

end Download

end Airdcpp
