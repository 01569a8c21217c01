import Airdcpp.Hash.MerkleCheckOutputStream
import Airdcpp.Hash.TreeRoot

/-!
# `Hash/CheckedStream` — what a checked stream lets through

`MerkleCheckOutputStream` over the tree of a file, started at one of the file's blocks, and
then any `write` calls at all. What has been written is one sequence of bytes: how it was cut
into calls leaves no trace (`Running`).

The leaves there are at any moment are the ones taken over from the tree and one for each
complete block (`Committed.leaves_eq`), so under a hash that tells everything apart a write is
refused exactly when a complete block is not the file's block in that place, or is behind the
file's last one (`BlocksAgree`). The bytes after the last complete block are compared when the
stream is flushed, and then by the root: a leaf that `getHash` never reads, number `2^32` or
later, is left out of what is said here.

The leaves in front of the start are compared by the first write, not by the constructor.
-/

namespace Airdcpp

open Lib

namespace MerkleCheckOutputStream

open MerkleTree

variable {V σ : Type*} {h : Hasher V}

/-! ## Blocks of the file -/

/-- Every complete block of `data` is the file's, where the first is number `n`. -/
def BlocksAgree (blockSize : Nat) (file : Str) (n : Nat) (data : Str) : Prop :=
  ∀ i < data.length / blockSize, n + i < calcBlocks file.length blockSize ∧
    leafBlock blockSize data i = leafBlock blockSize file (n + i)

instance (blockSize : Nat) (file : Str) (n : Nat) (data : Str) :
    Decidable (BlocksAgree blockSize file n data) :=
  inferInstanceAs (Decidable (∀ i < data.length / blockSize, _ ∧ _))

/-- The last block of `data`, complete or not, is the file's. -/
def LastBlockAgrees (blockSize : Nat) (file : Str) (n : Nat) (data : Str) : Prop :=
  leafBlock blockSize data ((data.length - 1) / blockSize) =
    leafBlock blockSize file (n + (data.length - 1) / blockSize)

instance (blockSize : Nat) (file : Str) (n : Nat) (data : Str) :
    Decidable (LastBlockAgrees blockSize file n data) :=
  inferInstanceAs (Decidable (_ = _))

/-- The blocks received are the file's to its end. -/
theorem leafBlock_agree {blockSize n : Nat} {file data : Str} (hpos : 0 < blockSize)
    (hne : data ≠ [])
    (hagree : BlocksAgree blockSize file n data)
    (hlast : LastBlockAgrees blockSize file n data) {i : Nat}
    (hi : i < calcBlocks data.length blockSize) :
    leafBlock blockSize data i = leafBlock blockSize file (n + i) := by
  have hlen := List.length_pos_of_ne_nil hne
  have hlt := (lt_calcBlocks_iff hpos hlen).mp hi
  by_cases hc : i < data.length / blockSize
  · exact (hagree i hc).2
  · have hle : data.length < (i + 1) * blockSize := by
      by_contra hge
      rw [not_lt, ← Nat.le_div_iff_mul_le hpos] at hge
      exact hc hge
    have hi' : (data.length - 1) / blockSize = i :=
      Nat.div_eq_of_lt_le (by omega) (by omega)
    unfold LastBlockAgrees at hlast
    rwa [hi'] at hlast

/-- The blocks of the file are those in front of the start and those received. -/
theorem calcBlocks_add {blockSize n : Nat} {file data : Str} (hpos : 0 < blockSize)
    (hne : data ≠ [])
    (hend : n * blockSize + data.length = file.length) :
    calcBlocks file.length blockSize = n + calcBlocks data.length blockSize := by
  have hlen := List.length_pos_of_ne_nil hne
  have hiff : ∀ i, n + i < calcBlocks file.length blockSize ↔
      i < calcBlocks data.length blockSize := by
    intro i
    rw [lt_calcBlocks_iff hpos hlen, lt_calcBlocks_iff hpos (by omega), Nat.add_mul, ← hend,
      Nat.add_lt_add_iff_left]
  have hn : n < calcBlocks file.length blockSize := by
    rw [lt_calcBlocks_iff hpos (by omega)]
    omega
  have h₁ := hiff (calcBlocks data.length blockSize)
  have h₂ := hiff (calcBlocks file.length blockSize - n)
  omega

/-- The leaves of `cur`: those it started with, and the hashes of the complete blocks. -/
theorem Committed.leaves_eq {pre : List V} {m : MerkleCheckOutputStream V σ} {data : Str}
    (hc : Committed h pre m data) {k : Nat} (hk : m.real.blockSize = (hasher h).span k) :
    m.cur.leaves = pre ++ (List.range (data.length / m.real.blockSize)).map fun i =>
      (hasher h).hash (leafBlock m.real.blockSize data i) := by
  have hpos : 0 < m.real.blockSize := hk ▸ (hasher h).span_pos k
  obtain ⟨l, hl⟩ := hc.prefix
  have hlen : l.length = data.length / m.real.blockSize := by
    apply le_antisymm
    · by_contra hlt
      have hi : pre.length + data.length / m.real.blockSize < m.cur.leaves.length := by
        rw [← hl, List.length_append]
        omega
      have hle := (hc.leaf hi).2.1
      rw [← Nat.le_div_iff_mul_le hpos] at hle
      omega
    · by_contra hlt
      have hi : (l.length + 1) * m.real.blockSize ≤ data.length := by
        rw [← Nat.le_div_iff_mul_le hpos]
        omega
      have hcomplete := hc.complete hk hi
      rw [← hl, List.length_append] at hcomplete
      omega
  rw [← hl]
  congr 1
  apply List.ext_getElem
  · rw [List.length_map, List.length_range, hlen]
  · intro i hi _
    have hi' : pre.length + i < m.cur.leaves.length := by
      rw [← hl, List.length_append]
      omega
    have hleaf := (hc.leaf hi').1
    rw [← hl, List.getElem?_append_right (Nat.le_add_right _ _), Nat.add_sub_cancel_left,
      List.getElem?_eq_getElem hi] at hleaf
    rw [List.getElem_map, List.getElem_range]
    exact Option.some.inj hleaf

/-- A prefix of the file's leaves and the hashes of blocks: the blocks are the file's. -/
theorem leaves_prefix_iff (hinj : (hasher h).Injective) {blockSize n : Nat} {file data : Str}
    (hn : n ≤ calcBlocks file.length blockSize) :
    ((leafHashes h blockSize file).take n ++ (List.range (data.length / blockSize)).map fun i =>
        (hasher h).hash (leafBlock blockSize data i)) <+: leafHashes h blockSize file ↔
      BlocksAgree blockSize file n data := by
  have hlen : ((leafHashes h blockSize file).take n).length = n := by
    rw [List.length_take, length_leafHashes, min_eq_left hn]
  have hread : ∀ i, (leafHashes h blockSize file)[i]? =
      if i < calcBlocks file.length blockSize then
        some ((hasher h).hash (leafBlock blockSize file i)) else none := by
    intro i
    split
    case isTrue hi => exact getElem?_leafHashes h hi
    case isFalse hi => exact List.getElem?_eq_none (by rw [length_leafHashes]; omega)
  rw [← List.take_append_drop n (leafHashes h blockSize file), List.take_append_of_le_length
    (by rw [hlen]), List.take_take, min_self, List.prefix_append_right_inj,
    List.prefix_iff_getElem?]
  simp only [List.length_map, List.length_range, List.getElem_map, List.getElem_range,
    List.getElem?_drop, hread]
  unfold BlocksAgree
  constructor
  · intro hall i hi
    have heq := hall i hi
    split at heq
    case isTrue hlt => exact ⟨hlt, (hinj.hash (Option.some.inj heq)).symm⟩
    case isFalse => exact absurd heq (by simp)
  · intro hall i hi
    obtain ⟨hlt, heq⟩ := hall i hi
    rw [if_pos hlt, heq]

/-! ## Any writes -/

theorem fillBuffer_size {m : MerkleCheckOutputStream V σ} (hbuf : m.buf.length < BASE_BLOCK_SIZE)
    (b : Str) :
    (fillBuffer h m b).1.cur.fileSize + (fillBuffer h m b).1.buf.length =
        m.cur.fileSize + m.buf.length + (fillBuffer h m b).2 ∧
      (fillBuffer h m b).2 ≤ b.length ∧
      ((fillBuffer h m b).2 < b.length → (fillBuffer h m b).1.buf = []) := by
  unfold fillBuffer
  by_cases hemp : m.buf.isEmpty
  · rw [if_pos hemp]
    exact ⟨rfl, Nat.zero_le _, fun _ => List.isEmpty_iff.mp hemp⟩
  · rw [if_neg hemp]
    set bytes := min (BASE_BLOCK_SIZE - m.buf.length) b.length with hbytes
    have hlen : (m.buf ++ b.take bytes).length = m.buf.length + bytes := by
      rw [List.length_append, List.length_take]
      omega
    by_cases hfull : (m.buf ++ b.take bytes).length = BASE_BLOCK_SIZE
    · rw [if_pos hfull]
      have hne : m.buf ++ b.take bytes ≠ [] := by
        intro hnil
        rw [hnil] at hfull
        exact absurd hfull (by decide)
      refine ⟨?_, min_le_right _ _, fun _ => rfl⟩
      show (update h m.cur (m.buf ++ b.take bytes)).fileSize + 0 = _
      rw [(update_fileSize hne).1]
      omega
    · rw [if_neg hfull]
      refine ⟨?_, min_le_right _ _, fun hlt => ?_⟩
      · show m.cur.fileSize + (m.buf ++ b.take bytes).length = _
        omega
      · have hlt' : bytes < b.length := hlt
        omega

theorem commitRest_size (m : MerkleCheckOutputStream V σ) (b : Str) :
    (commitRest h m b).cur.fileSize + (commitRest h m b).buf.length =
      m.cur.fileSize + b.length := by
  unfold commitRest
  dsimp only
  set part := b.length - b.length % BASE_BLOCK_SIZE with hpart
  have htake : (b.take part).length = part := by
    rw [List.length_take]
    omega
  rw [List.length_drop]
  by_cases hpos : part > 0
  · have hne : b.take part ≠ [] := by
      intro hnil
      rw [hnil] at htake
      exact absurd htake hpos.ne
    rw [if_pos hpos, (update_fileSize hne).1]
    omega
  · rw [if_neg hpos]
    omega

/-- The size of `cur` and the bytes in the buffer count what has been received. -/
theorem commitBytes_size {m : MerkleCheckOutputStream V σ}
    (hbuf : m.buf.length < BASE_BLOCK_SIZE) (b : Str) :
    (commitBytes h m b).cur.fileSize + (commitBytes h m b).buf.length =
      m.cur.fileSize + m.buf.length + b.length := by
  obtain ⟨hsize, hle, hnil⟩ := fillBuffer_size (h := h) hbuf b
  unfold commitBytes
  by_cases hlt : (fillBuffer h m b).2 < b.length
  · have hrest := commitRest_size (h := h) (fillBuffer h m b).1 (b.drop (fillBuffer h m b).2)
    rw [hnil hlt, List.length_nil] at hsize
    rw [List.length_drop] at hrest
    simp only [if_pos hlt]
    omega
  · simp only [if_neg hlt]
    omega

/-- `data` has been received since `start`, where the tree has its leaves `pre`. -/
structure Running (h : Hasher V) (tree : MerkleTree V) (pre : List V) (start : Nat) (data : Str)
    (m : MerkleCheckOutputStream V σ) : Prop where
  real : m.real = tree
  committed : Committed h pre m data
  verified : Verified m
  size : m.cur.fileSize + m.buf.length = start + data.length

/-- Whatever leaves the constructor takes over, nothing has been received. -/
theorem create_received [Inhabited V] (h : Hasher V) (tree : MerkleTree V) (s : σ) (start : Nat) :
    Running h tree (create tree s start).cur.leaves start [] (create tree s start) :=
  ⟨rfl, ⟨⟨[], rfl, absorbs_nil rfl rfl, dvd_zero _⟩, Nat.zero_lt_succ _, rfl⟩,
    ⟨Nat.zero_le _, List.nil_prefix⟩, rfl⟩

/-- The constructor takes over the leaves in front of the start, if the tree has them. -/
theorem create_running [Inhabited V] {tree : MerkleTree V} {n k : Nat}
    (hk : tree.blockSize = (hasher h).span k) (hn : n ≤ tree.leaves.length) (s : σ) :
    Running h tree (tree.leaves.take n) (n * tree.blockSize) []
      (create tree s (n * tree.blockSize)) := by
  have hpos : 0 < tree.blockSize := hk ▸ (hasher h).span_pos k
  have hleaves : (create tree s (n * tree.blockSize)).cur.leaves = tree.leaves.take n := by
    unfold create
    rw [Nat.mul_div_cancel n hpos]
    exact if_neg (not_lt.mpr hn)
  have hr := create_received h tree s (n * tree.blockSize)
  rwa [hleaves] at hr

/-! ## The end of the data -/

/-- The tree that `flushBuffers` finalizes. -/
def pending (h : Hasher V) (m : MerkleCheckOutputStream V σ) : MerkleTree V :=
  if m.buf.isEmpty then m.cur else update h m.cur m.buf

/-- All that has been received is in it. -/
theorem pending_ended {tree : MerkleTree V} {pre : List V} {start k : Nat} {data : Str}
    {m : MerkleCheckOutputStream V σ} (hk : tree.blockSize = (hasher h).span k)
    (hr : Running h tree pre start data m) :
    (data ≠ [] → EndedAfter h pre (pending h m) data) ∧
      (pending h m).blockSize = tree.blockSize ∧
      (pending h m).fileSize = start + data.length := by
  obtain ⟨rfl, ⟨⟨d, rfl, ha, -⟩, -, hbs⟩, -, hsize⟩ := hr
  unfold pending
  by_cases hemp : m.buf.isEmpty
  · have hbuf := List.isEmpty_iff.mp hemp
    rw [hbuf, List.append_nil, List.length_nil, Nat.add_zero] at hsize
    rw [if_pos hemp, hbuf, List.append_nil]
    exact ⟨ha.ended (hbs.trans hk), hbs, hsize⟩
  · have hne : m.buf ≠ [] := fun hnil => hemp (List.isEmpty_iff.mpr hnil)
    rw [if_neg hemp]
    obtain ⟨hfile, hblock⟩ := update_fileSize (h := h) (t := m.cur) hne
    exact ⟨fun _ => update_ended ha (hbs.trans hk) hne, hblock.trans hbs, hfile.trans hsize⟩

/-- The leaves `flushBuffers` compares: the last one is of the bytes that are left. -/
theorem finalize_pending [Inhabited V] {tree : MerkleTree V} {pre : List V} {start k : Nat}
    {data : Str} {m : MerkleCheckOutputStream V σ} (hk : tree.blockSize = (hasher h).span k)
    (hr : Running h tree pre start data m) (hne : data ≠ [] ∨ pre = []) :
    (finalize h (pending h m)).leaves = pre ++ leafHashes h tree.blockSize data := by
  by_cases hdata : data = []
  · obtain rfl := hne.resolve_left (not_not.mpr hdata)
    obtain ⟨rfl, ⟨⟨d, hd, ha, -⟩, -, hbs⟩, -, -⟩ := hr
    rw [hdata] at hd
    obtain ⟨rfl, hbuf⟩ := List.append_eq_nil_iff.mp hd.symm
    obtain ⟨hleaves, hblocks⟩ := ha.of_nil (hbs.trans hk)
    obtain ⟨blocks, heq⟩ := finalize_empty h hleaves hblocks
    unfold pending
    rw [if_pos (List.isEmpty_iff.mpr hbuf), heq, hdata, List.nil_append]
    exact (leafHashes_nil h (hk ▸ (hasher h).span_pos k)).symm
  · obtain ⟨hended, hblock, -⟩ := pending_ended hk hr
    obtain ⟨done, last, blocks, hflat, hsize, hpos, hle, heq⟩ := finalize_of_ended (hended hdata)
    rw [hblock] at hsize hle
    rw [heq, hflat, leafHashes_eq hsize hpos hle]
    rfl



/-! ## The tree of the file -/

/-- The tree has the leaves of the file, and the root that is made of them. -/
structure BuiltFrom [Inhabited V] (h : Hasher V) (k : Nat) (file : Str) (tree : MerkleTree V) :
    Prop where
  leaves : tree.leaves = leafHashes h tree.blockSize file
  blockSize : tree.blockSize = (hasher h).span k
  root : tree.root = getHash h tree 0 file.length

theorem builtFrom_finalize [Inhabited V] (h : Hasher V) (k : Nat) {calls : List Str} {file : Str}
    (hc : Calls calls file) :
    BuiltFrom h k file (finalize h (hashed h ((hasher h).span k) calls)) := by
  obtain ⟨t, heq, hl, hb, hf⟩ := finalize_hashed h k hc
  rw [heq]
  refine ⟨?_, hb, ?_⟩
  · show t.leaves = leafHashes h t.blockSize file
    rw [hb]
    exact hl
  · rw [calcRoot_root, hf]

section Last

variable [Inhabited V] {tree : MerkleTree V} {n k : Nat} {file data : Str}

/-- The leaves of a running stream are the tree's exactly when its blocks are the file's. -/
theorem Running.leaves_iff (hinj : (hasher h).Injective) {start : Nat}
    (hb : BuiltFrom h k file tree)
    (hn : n ≤ tree.leaves.length) {m : MerkleCheckOutputStream V σ}
    (hr : Running h tree (tree.leaves.take n) start data m) :
    m.cur.leaves.length = n + data.length / tree.blockSize ∧
      (m.cur.leaves <+: tree.leaves ↔ BlocksAgree tree.blockSize file n data) := by
  obtain ⟨hleaves, hk, -⟩ := hb
  obtain ⟨rfl, hcom, -, -⟩ := hr
  have heq := hcom.leaves_eq hk
  constructor
  · rw [heq, List.length_append, List.length_take_of_le hn, List.length_map, List.length_range]
  · have hiff := @leaves_prefix_iff V h hinj m.real.blockSize n file data
      (by rwa [hleaves, length_leafHashes] at hn)
    rw [← hleaves] at hiff
    rw [heq]
    exact hiff

/-- Nothing was left to receive: the leaves are the tree's already. -/
theorem finalize_pending_nil (hb : BuiltFrom h k file tree) {m : MerkleCheckOutputStream V σ}
    (hr : Running h tree (tree.leaves.take n) (n * tree.blockSize) [] m)
    (hend : n * tree.blockSize = file.length) :
    (finalize h (pending h m)).leaves = tree.leaves := by
  obtain ⟨hleaves, hk, -⟩ := hb
  have hpos : 0 < tree.blockSize := hk ▸ (hasher h).span_pos k
  by_cases hn : n = 0
  · have hfile : file = [] := by
      apply List.eq_nil_of_length_eq_zero
      rw [← hend, hn, Nat.zero_mul]
    rw [finalize_pending hk hr (Or.inr (by rw [hn, List.take_zero])), hn, List.take_zero,
      List.nil_append, hleaves, hfile]
  · obtain ⟨rfl, ⟨⟨d, hd, ha, -⟩, -, hbs⟩, -, -⟩ := hr
    obtain ⟨rfl, hbuf⟩ := List.append_eq_nil_iff.mp hd.symm
    obtain ⟨hcur, hblocks⟩ := ha.of_nil (hbs.trans hk)
    have hall : m.real.leaves.take n = m.real.leaves := by
      apply List.take_of_length_le
      rw [hleaves, length_leafHashes]
      have hnot := (lt_calcBlocks_iff (i := n) hpos (show 0 < file.length by
        rw [← hend]
        exact Nat.mul_pos (Nat.pos_of_ne_zero hn) hpos)).not
      rw [hend] at hnot
      exact not_lt.mp (hnot.mpr (lt_irrefl _))
    rw [hall] at hcur
    have hne : m.cur.leaves ≠ [] := by
      rw [hcur, hleaves]
      exact List.ne_nil_of_length_pos (by
        rw [length_leafHashes]
        exact lt_of_lt_of_le Nat.zero_lt_one (le_max_right _ _))
    unfold pending
    rw [if_pos (List.isEmpty_iff.mpr hbuf), finalize_leaves_only h hne hblocks]
    exact hcur

/-- **The last block.** The root of what has been hashed is the tree's exactly when the bytes
    after the complete blocks are the file's. -/
theorem root_iff (hinj : (hasher h).Injective) (hb : BuiltFrom h k file tree)
    {m : MerkleCheckOutputStream V σ}
    (hr : Running h tree (tree.leaves.take n) (n * tree.blockSize) data m)
    (hn : n ≤ tree.leaves.length) (hend : n * tree.blockSize + data.length = file.length)
    (hagree : BlocksAgree tree.blockSize file n data)
    (hread : calcBlocks file.length tree.blockSize ≤ 2 ^ 32 ∨ tree.blockSize ∣ file.length) :
    (finalize h (pending h m)).leaves.length = tree.leaves.length ∧
      ((finalize h (pending h m)).root = tree.root ↔
        LastBlockAgrees tree.blockSize file n data) := by
  have hb' := hb
  obtain ⟨hleaves, hk, hroot⟩ := hb'
  have hpos : 0 < tree.blockSize := hk ▸ (hasher h).span_pos k
  obtain ⟨-, hblock, hfile⟩ := pending_ended hk hr
  obtain ⟨hblock', hroot'⟩ := finalize_root h (pending h m)
  rw [hfile, hend] at hroot'
  rw [hblock] at hblock'
  have hsame : (finalize h (pending h m)).leaves = tree.leaves →
      (finalize h (pending h m)).root = tree.root := by
    intro heq
    rw [hroot, hroot']
    exact getHash_congr heq hblock' 0 file.length
  by_cases hdata : data = []
  · subst hdata
    have heq := finalize_pending_nil hb hr hend
    have hdrop : file.drop (n * tree.blockSize) = [] := List.drop_of_length_le hend.ge
    refine ⟨by rw [heq], fun _ => ?_, fun _ => hsame heq⟩
    simp [LastBlockAgrees, leafBlock, hdrop]
  · have hlen := List.length_pos_of_ne_nil hdata
    have hsum := calcBlocks_add hpos hdata hend
    have heq := finalize_pending hk hr (Or.inl hdata)
    have htake : (tree.leaves.take n).length = n := List.length_take_of_le hn
    refine ⟨?_, fun hroots => ?_, fun hlast => hsame ?_⟩
    · rw [heq, List.length_append, htake, length_leafHashes, hleaves, length_leafHashes, hsum]
    · rw [hroot, hroot'] at hroots
      set q := (data.length - 1) / tree.blockSize with hq
      have hqle : q * tree.blockSize ≤ data.length - 1 := Nat.div_mul_le_self _ _
      rcases hread with hle | hdvd
      · have hqlt : q < calcBlocks data.length tree.blockSize :=
          (lt_calcBlocks_iff hpos hlen).mpr (by omega)
        have hqn : n + q < calcBlocks file.length tree.blockSize := by omega
        have hleaf := leafAt_congr (i := n + q) hinj (hblock'.trans hk) hblock'.symm
          (dvd_zero _) hroots (Nat.zero_le _) (by rw [hblock', Nat.add_mul]; omega)
        unfold leafAt at hleaf
        rw [Nat.mod_eq_of_lt (lt_of_lt_of_le hqn hle), heq, List.getD_eq_getElem?_getD,
          List.getD_eq_getElem?_getD,
          List.getElem?_append_right (htake.le.trans (Nat.le_add_right _ _)), htake,
          Nat.add_sub_cancel_left, getElem?_leafHashes h hqlt, hleaves,
          getElem?_leafHashes h hqn] at hleaf
        exact hinj.hash hleaf
      · -- then the last block is complete
        have hdvd' : tree.blockSize ∣ data.length := by
          rw [← hend] at hdvd
          exact (Nat.dvd_add_right (Nat.dvd_mul_left _ _)).mp hdvd
        refine (hagree q ?_).2
        apply Nat.lt_of_mul_lt_mul_right (a := tree.blockSize)
        rw [Nat.div_mul_cancel hdvd']
        omega
    · rw [heq]
      apply List.ext_getElem?
      intro i
      rcases Nat.lt_or_ge i n with hi | hi
      · rw [List.getElem?_append_left (by omega), List.getElem?_take_of_lt hi]
      · rw [List.getElem?_append_right (by omega), htake]
        rcases Nat.lt_or_ge (i - n) (calcBlocks data.length tree.blockSize) with hi' | hi'
        · have hi'' : i < calcBlocks file.length tree.blockSize := by omega
          have hsame := leafBlock_agree hpos hdata hagree hlast hi'
          rw [Nat.add_sub_cancel' hi] at hsame
          rw [getElem?_leafHashes h hi', hleaves, getElem?_leafHashes h hi'', hsame]
        · rw [List.getElem?_eq_none (by rw [length_leafHashes]; omega), hleaves,
            List.getElem?_eq_none (by rw [length_leafHashes]; omega)]

end Last

variable [DecidableEq V]

/-- The stream after some `write` calls, whatever they returned. -/
def written (h : Hasher V) (os : OutputStream σ) (m : MerkleCheckOutputStream V σ)
    (chunks : List Str) : MerkleCheckOutputStream V σ :=
  chunks.foldl (fun m b => (write h os m b).2) m

/-- **One write.** It goes on to the stream below when the leaves there are then are the tree's
    first ones, and those are then compared. -/
theorem write_running {tree : MerkleTree V} {pre : List V} {start k : Nat} {data : Str}
    {m : MerkleCheckOutputStream V σ} (hk : tree.blockSize = (hasher h).span k)
    (os : OutputStream σ) (hr : Running h tree pre start data m) (b : Str) :
    Running h tree pre start (data ++ b) (write h os m b).2 ∧
      ((write h os m b).2.cur.leaves <+: tree.leaves →
        (write h os m b).2.verified = (write h os m b).2.cur.leaves.length) ∧
      ((write h os m b).1, (write h os m b).2.s) =
        if (write h os m b).2.cur.leaves <+: tree.leaves then os.write m.s b
        else (.error tthInconsistency, m.s) := by
  obtain ⟨rfl, hcom, hver, hsize⟩ := hr
  have hfit : Fits m (data ++ b) := by
    refine Or.inl ?_
    rw [hcom.blockSize, hk]
    exact Nat.le_mul_of_pos_right _ (by positivity)
  obtain ⟨hcom', hadv⟩ := commitBytes_committed hcom hfit
  have hsize' := commitBytes_size (h := h) hcom.buffered b
  have hver' : Verified (commitBytes h m b) := by
    obtain ⟨l, hl⟩ := hadv.cur.leaves
    refine ⟨?_, ?_⟩
    · rw [hadv.verified]
      exact hver.le.trans hadv.cur.leaves.length_le
    · rw [hadv.verified, hadv.real, ← hl, List.take_append_of_le_length hver.le]
      exact hver.agree
  have hspec := checkTrees_spec hver'
  obtain ⟨hkept, v, hv⟩ := checkTrees_keeps hver'
  have hsum : (commitBytes h m b).cur.fileSize + (commitBytes h m b).buf.length =
      start + (data ++ b).length := by
    rw [hsize', hsize, List.length_append, Nat.add_assoc]
  unfold write
  by_cases hpre : (commitBytes h m b).cur.leaves <+: (commitBytes h m b).real.leaves
  · rw [if_pos hpre] at hspec
    rw [hspec] at hkept ⊢
    refine ⟨⟨hadv.real, ⟨hcom'.hashed, hcom'.buffered, hcom'.blockSize⟩, ⟨hkept.le, hkept.agree⟩,
      hsum⟩, fun _ => rfl, ?_⟩
    rw [if_pos (hadv.real ▸ hpre)]
    exact congrArg (fun s => os.write s b) hadv.s
  · rw [if_neg hpre] at hspec
    obtain ⟨m', hm'⟩ := hspec
    rw [hm'] at hkept hv ⊢
    obtain rfl : m' = { commitBytes h m b with verified := v } := hv
    refine ⟨⟨hadv.real, ⟨hcom'.hashed, hcom'.buffered, hcom'.blockSize⟩, hkept, hsum⟩,
      fun hpre' => absurd (hadv.real.symm ▸ hpre') hpre, ?_⟩
    rw [if_neg (hadv.real ▸ hpre)]
    exact Prod.ext rfl hadv.s

/-- **Any number of writes**: their bytes have been received, in order. -/
theorem written_running {tree : MerkleTree V} {pre : List V} {start k : Nat} {data : Str}
    {m : MerkleCheckOutputStream V σ} (hk : tree.blockSize = (hasher h).span k)
    (os : OutputStream σ) (hr : Running h tree pre start data m) (chunks : List Str) :
    Running h tree pre start (data ++ chunks.flatten) (written h os m chunks) := by
  unfold written
  induction chunks generalizing data m with
  | nil => simpa using hr
  | cons b chunks ih =>
    rw [List.foldl_cons, List.flatten_cons, ← List.append_assoc]
    exact ih (write_running hk os hr b).1

/-- **The flush** compares roots when there are as many leaves as the tree has. -/
theorem flushBuffers_root [Inhabited V] (os : OutputStream σ) {m : MerkleCheckOutputStream V σ}
    (hlen : (finalize h (pending h m)).leaves.length = m.real.leaves.length) (aForce : Bool) :
    ((flushBuffers h os m aForce).1, (flushBuffers h os m aForce).2.s) =
      if (finalize h (pending h m)).root = m.real.root then os.flushBuffers m.s aForce
      else (.error tthInconsistency, m.s) := by
  unfold flushBuffers
  dsimp only
  rw [show (if m.buf.isEmpty then m.cur else update h m.cur m.buf) = pending h m from rfl]
  by_cases hroot : (finalize h (pending h m)).root = m.real.root
  · simp only [if_pos hlen, hroot, ne_eq, not_true_eq_false, if_false, if_true]
  · simp only [if_pos hlen, ne_eq, hroot, not_false_eq_true, if_true, if_false]

/-! ## The stream -/

/-- What the stream `m` does next, when it was started at block `n` of the file and has received
    `data`. The stream below is called for what is right, and only then. -/
structure ChecksFile [Inhabited V] (h : Hasher V) (os : OutputStream σ) (blockSize : Nat)
    (file : Str) (n : Nat) (data : Str) (m : MerkleCheckOutputStream V σ) : Prop where
  write : ∀ b, ((write h os m b).1, (write h os m b).2.s) =
    if BlocksAgree blockSize file n (data ++ b) then os.write m.s b
    else (.error tthInconsistency, m.s)
  flushBuffers : n * blockSize + data.length = file.length → BlocksAgree blockSize file n data →
    calcBlocks file.length blockSize ≤ 2 ^ 32 ∨ blockSize ∣ file.length → ∀ aForce,
      ((flushBuffers h os m aForce).1, (flushBuffers h os m aForce).2.s) =
        if LastBlockAgrees blockSize file n data then os.flushBuffers m.s aForce
        else (.error tthInconsistency, m.s)

/-- **A running stream checks the file.** -/
theorem Running.checksFile [Inhabited V] (os : OutputStream σ) (hinj : (hasher h).Injective)
    {tree : MerkleTree V} {n k : Nat} {file data : Str} (hb : BuiltFrom h k file tree)
    (hn : n ≤ tree.leaves.length) {m : MerkleCheckOutputStream V σ}
    (hr : Running h tree (tree.leaves.take n) (n * tree.blockSize) data m) :
    ChecksFile h os tree.blockSize file n data m := by
  constructor
  case write =>
    intro b
    obtain ⟨hr', -, heq⟩ := write_running hb.blockSize os hr b
    rw [heq]
    exact if_congr (hr'.leaves_iff hinj hb hn).2 rfl rfl
  case flushBuffers =>
    intro hend hagree hread aForce
    obtain ⟨hlen, hroot⟩ := root_iff hinj hb hr hn hend hagree hread
    have hreal := hr.real
    rw [flushBuffers_root os (hreal.symm ▸ hlen), hreal]
    exact if_congr hroot rfl rfl

/-- After a write that went through, all leaves there are have been compared. -/
theorem written_verified [Inhabited V] (os : OutputStream σ) (hinj : (hasher h).Injective)
    {tree : MerkleTree V} {n k : Nat} {file : Str} (hb : BuiltFrom h k file tree)
    (hn : n ≤ tree.leaves.length) {m : MerkleCheckOutputStream V σ}
    (hr : Running h tree (tree.leaves.take n) (n * tree.blockSize) [] m) {chunks : List Str}
    (hne : chunks ≠ []) (hagree : BlocksAgree tree.blockSize file n chunks.flatten) :
    (written h os m chunks).verified = n + chunks.flatten.length / tree.blockSize := by
  obtain ⟨init, last, rfl⟩ : ∃ init last, chunks = init ++ [last] :=
    ⟨_, _, (List.dropLast_append_getLast hne).symm⟩
  have hinit := written_running hb.blockSize os hr init
  obtain ⟨hr', hver, -⟩ := write_running hb.blockSize os hinit last
  have hlast : written h os m (init ++ [last]) = (write h os (written h os m init) last).2 := by
    unfold written
    rw [List.foldl_append, List.foldl_cons, List.foldl_nil]
  rw [List.nil_append] at hr'
  rw [List.flatten_append, List.flatten_singleton] at hagree ⊢
  obtain ⟨hlen, hiff⟩ := hr'.leaves_iff hinj hb hn
  rw [hlast, hver (hiff.mpr hagree), hlen]

/-- **The stream accepts exactly the file's blocks, however they are cut into writes.** -/
theorem written_checksFile [Inhabited V] (os : OutputStream σ) (s : σ)
    (hinj : (hasher h).Injective) {k n : Nat} {calls : List Str} {file : Str}
    (hc : Calls calls file) (hn : n ≤ calcBlocks file.length (BASE_BLOCK_SIZE * 2 ^ k))
    (chunks : List Str) :
    let blockSize := BASE_BLOCK_SIZE * 2 ^ k
    let m := written h os
      (create (finalize h (hashed h blockSize calls)) s (n * blockSize)) chunks
    ChecksFile h os blockSize file n chunks.flatten m ∧
      (chunks ≠ [] → BlocksAgree blockSize file n chunks.flatten →
        m.verified = n + chunks.flatten.length / blockSize) := by
  have hb := builtFrom_finalize h k hc
  have hspan : (finalize h (hashed h ((hasher h).span k) calls)).blockSize =
      BASE_BLOCK_SIZE * 2 ^ k := hb.blockSize
  have hn' : n ≤ (finalize h (hashed h ((hasher h).span k) calls)).leaves.length := by
    rwa [hb.leaves, length_leafHashes, hspan]
  have hstart := create_running hb.blockSize hn' s
  have hr := written_running hb.blockSize os hstart chunks
  have hchecks := hr.checksFile os hinj hb hn'
  have hver := fun hne : chunks ≠ [] => written_verified os hinj hb hn' hstart hne
  rw [hspan] at hchecks hver
  exact ⟨hchecks, hver⟩

/-- A file of two blocks and a byte, started at its second block. -/
theorem written_checksFile_second :
    let file : Str := List.replicate 2049 7
    let m := written textHasher StringOutputStream
      (create (finalize textHasher (hashed textHasher (BASE_BLOCK_SIZE * 2 ^ 0) [file]))
        ([] : Str) (1 * (BASE_BLOCK_SIZE * 2 ^ 0))) [List.replicate 1000 7, [], List.replicate 25 7]
    ChecksFile textHasher StringOutputStream (BASE_BLOCK_SIZE * 2 ^ 0) file 1
        [List.replicate 1000 7, [], List.replicate 25 7].flatten m ∧
      ([List.replicate 1000 7, [], List.replicate 25 (7 : UInt8)] ≠ [] →
        BlocksAgree (BASE_BLOCK_SIZE * 2 ^ 0) file 1
          [List.replicate 1000 7, [], List.replicate 25 7].flatten →
        m.verified = 1 + [List.replicate 1000 7, [], List.replicate 25 (7 : UInt8)].flatten.length /
          (BASE_BLOCK_SIZE * 2 ^ 0)) :=
  written_checksFile StringOutputStream [] textHasher_injective
    (calls_single (List.cons_ne_nil _ _)) (le_max_right _ _) _

section Exceptions

/-- A file of one block, and its tree. -/
theorem zeros_builtFrom : BuiltFrom textHasher 0 (List.replicate BASE_BLOCK_SIZE 0) (finalize
    textHasher (hashed textHasher BASE_BLOCK_SIZE [List.replicate BASE_BLOCK_SIZE 0])) :=
  builtFrom_finalize textHasher 0 (calls_single (List.cons_ne_nil _ _))

/-- A block written when no leaves were taken over is the first leaf. -/
theorem write_first_block {file : Str} {tree : MerkleTree Str} (data : Str) (start : Nat)
    (hb : BuiltFrom textHasher 0 file tree) (hdata : data.length = BASE_BLOCK_SIZE)
    (hcur : (create tree ([] : Str) start).cur.leaves = []) :
    let m := (write textHasher StringOutputStream (create tree ([] : Str) start) data).2
    m.real = tree ∧ m.cur.leaves = [(hasher textHasher).hash data] ∧ Verified m ∧
      (write textHasher StringOutputStream (create tree ([] : Str) start) data).1 =
        if m.cur.leaves <+: tree.leaves then .ok BASE_BLOCK_SIZE else .error tthInconsistency := by
  intro m
  have hspan : tree.blockSize = BASE_BLOCK_SIZE := hb.blockSize
  have hr := create_received textHasher tree ([] : Str) start
  rw [hcur] at hr
  obtain ⟨hr', -, heq⟩ := write_running hb.blockSize StringOutputStream hr data
  have hleaves := hr'.committed.leaves_eq (hr'.real ▸ hb.blockSize)
  rw [hr'.real, hspan, List.nil_append, List.nil_append, hdata] at hleaves
  refine ⟨hr'.real, ?_, hr'.verified, ?_⟩
  · rw [hleaves]
    show [(hasher textHasher).hash (leafBlock BASE_BLOCK_SIZE data 0)] = _
    unfold leafBlock
    rw [Nat.zero_mul, List.drop_zero, List.take_of_length_le hdata.le]
  · rw [← hdata]
    have hfst := congrArg Prod.fst heq
    rwa [apply_ite Prod.fst] at hfst

/-- The constructor compares none of the leaves it takes over. It takes over none when the start
    is behind the tree, and the first write is then compared with the first block. And the leaf
    that a write is refused for is not counted as compared. -/
theorem create_compares_nothing :
    let zeros : Str := List.replicate BASE_BLOCK_SIZE 0
    let tree := finalize textHasher (hashed textHasher BASE_BLOCK_SIZE [zeros])
    (create tree ([] : Str) (1 * BASE_BLOCK_SIZE)).verified ≠ 1 + 0 / BASE_BLOCK_SIZE ∧
      ¬ ChecksFile textHasher StringOutputStream BASE_BLOCK_SIZE zeros 2 []
        (create tree ([] : Str) (2 * BASE_BLOCK_SIZE)) ∧
      (write textHasher StringOutputStream (create tree ([] : Str) 0)
        (List.replicate BASE_BLOCK_SIZE 1)).2.verified ≠ 0 + BASE_BLOCK_SIZE / BASE_BLOCK_SIZE := by
  intro zeros tree
  have hb : BuiltFrom textHasher 0 zeros tree := zeros_builtFrom
  have hzeros : zeros.length = BASE_BLOCK_SIZE := List.length_replicate
  have hspan : tree.blockSize = BASE_BLOCK_SIZE := hb.blockSize
  have hleaves : tree.leaves = [(hasher textHasher).hash zeros] := by
    rw [hb.leaves, hspan, ← List.nil_append zeros]
    exact leafHashes_eq (List.forall_mem_nil _) (by rw [hzeros]; decide) hzeros.le
  refine ⟨by decide, fun hchecks => ?_, fun hver => ?_⟩
  · have hcur : (create tree ([] : Str) (2 * BASE_BLOCK_SIZE)).cur.leaves = [] := by
      unfold create
      rw [hspan, hleaves]
      rfl
    obtain ⟨-, hafter, -, heq⟩ := write_first_block zeros _ hb hzeros hcur
    rw [hafter, ← hleaves, if_pos List.prefix_rfl] at heq
    have hwrite := congrArg Prod.fst (hchecks.write zeros)
    rw [if_neg] at hwrite
    · exact absurd (heq.symm.trans hwrite) (by simp)
    · intro hagree
      have hlt := (hagree 0 (by rw [List.nil_append, hzeros]; decide)).1
      rw [hzeros] at hlt
      exact absurd hlt (by decide)
  · obtain ⟨hreal, hafter, hverified, -⟩ := write_first_block
      (List.replicate BASE_BLOCK_SIZE 1) 0 hb List.length_replicate (by simp [create])
    have hagree := hverified.agree
    rw [hver, hafter, hreal, hleaves] at hagree
    have hsame := textHasher_injective.hash (List.singleton_prefix_cons_iff.mp hagree)
    exact absurd (List.cons.inj hsame).1 (by decide)

end Exceptions

end MerkleCheckOutputStream

end Airdcpp
