import Airdcpp.Hash.MerkleTree

/-!
# `Hash/TreeRoot` — the leaves and the root of hashed data

A file is hashed by `update` calls, all but the last with whole chunks of 1024 bytes, and a
`finalize`. The last chunk may be short: it is piled up like a full one, so the pile that is
folded by `finalize` stands for more bytes than it holds (`PiledShort`). `Ended` is where that
leads: the leaves are the hashes of the blocks of the data, the last of which is in the pile or
a leaf already.

The root is computed from the leaves by splitting byte ranges. It picks a leaf by its number as
a 32-bit integer, so of the leaves from number `2^32` on it sees the ones that are `2^32` before
them. `LeavesRepeat` is the exact condition under which that makes no difference.
-/

namespace Airdcpp
namespace MerkleTree

open Lib

variable {V : Type*} {h : Hasher V}

/-! ## The end of the data -/

/-- All the data has been hashed: it is whole blocks and a last one, whose hash is a leaf or
    still in the pile. -/
def Ended (h : Hasher V) (t : MerkleTree V) (data : Str) : Prop :=
  ∃ done last, data = done.flatten ++ last ∧ (∀ b ∈ done, b.length = t.blockSize) ∧
    0 < last.length ∧ last.length ≤ t.blockSize ∧
    (t.leaves = (done ++ [last]).map (hasher h).hash ∧ t.blocks = [] ∨
      t.leaves = done.map (hasher h).hash ∧ ∃ m, (hasher h).PiledShort m t.blocks last)

/-- `Ended` after leaves that were there before. -/
def EndedAfter (h : Hasher V) (pre : List V) (t : MerkleTree V) (data : Str) : Prop :=
  ∃ done last, data = done.flatten ++ last ∧ (∀ b ∈ done, b.length = t.blockSize) ∧
    0 < last.length ∧ last.length ≤ t.blockSize ∧
    (t.leaves = pre ++ (done ++ [last]).map (hasher h).hash ∧ t.blocks = [] ∨
      t.leaves = pre ++ done.map (hasher h).hash ∧ ∃ m, (hasher h).PiledShort m t.blocks last)

theorem EndedAfter.ended {t : MerkleTree V} {data : Str} (ht : EndedAfter h [] t data) :
    Ended h t data :=
  ht

theorem Ended.endedAfter {t : MerkleTree V} {data : Str} (ht : Ended h t data) :
    EndedAfter h [] t data :=
  ht

theorem reduceBlocks_fileSize (t : MerkleTree V) :
    (reduceBlocks h t).fileSize = t.fileSize ∧ (reduceBlocks h t).blockSize = t.blockSize := by
  fun_induction reduceBlocks h t with
  | case1 t b a rest hb hsize hfull ih => exact ih
  | case2 t b a rest hb hsize hfull ih => exact ih
  | case3 t b a rest hb hsize => exact ⟨rfl, rfl⟩
  | case4 t hb => exact ⟨rfl, rfl⟩

theorem addChunk_fileSize (t : MerkleTree V) (chunk : Str) :
    (addChunk h t chunk).fileSize = t.fileSize ∧
      (addChunk h t chunk).blockSize = t.blockSize := by
  unfold addChunk
  split
  · exact reduceBlocks_fileSize _
  · exact ⟨rfl, rfl⟩

theorem addChunks_fileSize (t : MerkleTree V) (data : Str) :
    (addChunks h t data).fileSize = t.fileSize ∧
      (addChunks h t data).blockSize = t.blockSize := by
  fun_induction addChunks h t data with
  | case1 t data t' hle => exact addChunk_fileSize t _
  | case2 t data t' hle ih =>
    have hchunk := addChunk_fileSize (h := h) t (data.take BASE_BLOCK_SIZE)
    exact ⟨ih.1.trans hchunk.1, ih.2.trans hchunk.2⟩

/-- Nothing has been hashed. -/
theorem Absorbs.of_nil {pre : List V} {t : MerkleTree V} {k : Nat} (ha : Absorbs h pre t [])
    (hk : t.blockSize = (hasher h).span k) : t.leaves = pre ∧ t.blocks = [] := by
  obtain ⟨done, rest, heq, hl, hsize, -, hpiled, -⟩ := ha
  obtain ⟨hflat, hrest⟩ := List.append_eq_nil_iff.mp heq.symm
  have hdone : done = [] := by
    refine List.eq_nil_iff_forall_not_mem.mpr fun b hb => ?_
    have hpos := (hasher h).span_pos k
    have hlen := hsize b hb
    rw [List.flatten_eq_nil_iff.mp hflat b hb, hk, List.length_nil] at hlen
    omega
  subst hdone
  exact ⟨by simpa using hl, hpiled.eq_nil hrest⟩

/-- The data may end with a whole chunk. -/
theorem Absorbs.ended {pre : List V} {t : MerkleTree V} {data : Str} {k : Nat}
    (ha : Absorbs h pre t data) (hk : t.blockSize = (hasher h).span k) (hne : data ≠ []) :
    EndedAfter h pre t data := by
  obtain ⟨done, rest, rfl, hl, hsize, -, hpiled, hbound⟩ := ha
  have hlt := hpiled.length_lt (hbound k hk)
  by_cases hrest : rest = []
  · subst hrest
    have hdone : done ≠ [] := by
      rintro rfl
      exact hne rfl
    have hsplit := List.dropLast_append_getLast hdone
    have hlast := hsize _ (List.getLast_mem hdone)
    refine ⟨done.dropLast, done.getLast hdone, ?_,
      fun b hb => hsize b (List.mem_of_mem_dropLast hb),
      ?_, hlast.le, Or.inl ⟨?_, hpiled.eq_nil rfl⟩⟩
    · rw [List.append_nil, ← List.flatten_concat, hsplit]
    · rw [hlast, hk]
      exact (hasher h).span_pos k
    · rw [hsplit, hl]
  · refine ⟨done, rest, rfl, hsize, List.length_pos_of_ne_nil hrest, ?_, Or.inr ⟨hl, 0, ?_⟩⟩
    · omega
    · exact hpiled.short hrest

/-- The last chunk. -/
theorem addChunk_ended {pre : List V} {t : MerkleTree V} {data chunk : Str} {k : Nat}
    (ha : Absorbs h pre t data) (hk : t.blockSize = (hasher h).span k) (hpos : 0 < chunk.length)
    (hle : chunk.length ≤ BASE_BLOCK_SIZE) :
    EndedAfter h pre (addChunk h t chunk) (data ++ chunk) := by
  obtain ⟨done, rest, rfl, hl, hsize, -, hpiled, hbound⟩ := ha
  have hspan : (hasher h).span 0 = BASE_BLOCK_SIZE := (hasher h).span_zero
  have hleaf : leafHash h chunk = (hasher h).hash chunk := ((hasher h).hash_leaf hle).symm
  have hbs : (hasher h).span 0 ≤ t.blockSize := by
    rw [hk]
    exact Nat.le_of_dvd ((hasher h).span_pos k) ((hasher h).span_dvd (Nat.zero_le k))
  have hblockSize := (addChunk_fileSize (h := h) t chunk).2
  unfold EndedAfter
  rw [hblockSize]
  unfold addChunk
  by_cases hlt : BASE_BLOCK_SIZE < t.blockSize
  · rw [if_pos hlt, hleaf]
    have hge : ∀ b ∈ t.blocks, (hasher h).span 0 ≤ b.2 := by
      intro b hb
      obtain ⟨j, hj⟩ := hpiled.size b hb
      rw [hj]
      exact Nat.le_of_dvd ((hasher h).span_pos j) ((hasher h).span_dvd (Nat.zero_le j))
    have hj : ∀ k, t.blockSize = (hasher h).span k → (hasher h).span 0 < (hasher h).span k := by
      intro k hk
      rw [hspan, ← hk]
      exact hlt
    have hlen : chunk.length + (BASE_BLOCK_SIZE - chunk.length) = (hasher h).span 0 := by
      rw [hspan]
      omega
    rcases reduceBlocks_pile (t := { t with
      blocks := ((hasher h).hash chunk, BASE_BLOCK_SIZE) :: t.blocks })
      hpiled hpos hlen hge hbound hj (by rw [hspan])
      with ⟨k', hk', hfull, heq⟩ | ⟨blocks', hshort, hbound', heq⟩
    · refine ⟨done, rest ++ chunk, by simp, hsize, ?_, ?_, Or.inl ?_⟩
      · rw [List.length_append]
        omega
      · have hk'' : t.blockSize = (hasher h).span k' := hk'
        omega
      · rw [heq]
        simp [hl]
    · obtain ⟨hpos', hlt'⟩ := hshort.length_lt (hbound' k hk)
      refine ⟨done, rest ++ chunk, by simp, hsize, hpos', by omega, Or.inr ?_⟩
      rw [heq]
      exact ⟨by simpa using hl, _, hshort⟩
  · -- a leaf is one chunk, and nothing is ever piled
    have hk0 : t.blockSize = (hasher h).span 0 := by rw [hspan] at hbs ⊢; omega
    have hrest : rest = [] := by
      have h₁ := hpiled.length_lt (hbound 0 hk0)
      have h₂ := hpiled.base_dvd
      rw [hspan] at h₁
      exact List.eq_nil_of_length_eq_zero (Nat.eq_zero_of_dvd_of_lt h₂ h₁)
    subst hrest
    have hblocks : t.blocks = [] := hpiled.eq_nil rfl
    rw [if_neg hlt, hleaf]
    refine ⟨done, chunk, by simp, hsize, hpos, ?_, Or.inl ⟨by simp [hl], hblocks⟩⟩
    rw [hk0, hspan]
    exact hle

theorem addChunks_ended {pre : List V} {t : MerkleTree V} {data d : Str} {k : Nat}
    (ha : Absorbs h pre t data) (hk : t.blockSize = (hasher h).span k) (hpos : 0 < d.length) :
    EndedAfter h pre (addChunks h t d) (data ++ d) := by
  rw [addChunks]
  by_cases hle : d.length ≤ BASE_BLOCK_SIZE
  · rw [if_pos hle, List.take_of_length_le hle]
    exact addChunk_ended ha hk hpos hle
  · rw [if_neg hle]
    have hspan : (hasher h).span 0 = BASE_BLOCK_SIZE := (hasher h).span_zero
    have hbs : BASE_BLOCK_SIZE ≤ t.blockSize := by
      rw [hk, ← hspan]
      exact Nat.le_of_dvd ((hasher h).span_pos k) ((hasher h).span_dvd (Nat.zero_le k))
    have htake : (d.take BASE_BLOCK_SIZE).length = BASE_BLOCK_SIZE := by
      rw [List.length_take]
      omega
    obtain ⟨ha', hg⟩ := addChunk_absorbs ha htake hbs
    have hdrop : (d.drop BASE_BLOCK_SIZE).length = d.length - BASE_BLOCK_SIZE := List.length_drop
    have hended := addChunks_ended ha' (hg.blockSize.trans hk) (d := d.drop BASE_BLOCK_SIZE)
      (by rw [hdrop]; omega)
    rwa [List.append_assoc, List.take_append_drop] at hended
termination_by d.length
decreasing_by
  rw [hdrop]
  have hbase : 0 < BASE_BLOCK_SIZE := Nat.zero_lt_succ _
  omega

/-! ## Whole runs -/

/-- The tree after some `update` calls. -/
def hashed [Inhabited V] (h : Hasher V) (aBlockSize : Nat) (calls : List Str) : MerkleTree V :=
  calls.foldl (update h) (ofBlockSize aBlockSize)

theorem update_fileSize {t : MerkleTree V} {data : Str} (hne : data ≠ []) :
    (update h t data).fileSize = t.fileSize + data.length ∧
      (update h t data).blockSize = t.blockSize := by
  obtain ⟨hfile, hblock⟩ := addChunks_fileSize (h := h) t data
  unfold update
  rw [List.isEmpty_eq_false_iff.mpr hne, Bool.false_and, if_neg Bool.false_ne_true]
  exact ⟨congrArg (· + data.length) hfile, hblock⟩

theorem update_ended {pre : List V} {t : MerkleTree V} {data d : Str} {k : Nat}
    (ha : Absorbs h pre t data) (hk : t.blockSize = (hasher h).span k) (hne : d ≠ []) :
    EndedAfter h pre (update h t d) (data ++ d) := by
  have hended := addChunks_ended ha hk (List.length_pos_of_ne_nil hne)
  unfold update
  rw [List.isEmpty_eq_false_iff.mpr hne, Bool.false_and, if_neg Bool.false_ne_true]
  exact hended

/-- Calls with whole chunks. -/
theorem foldl_update_absorbs {t : MerkleTree V} {data : Str} {k : Nat} (calls : List Str)
    (hne : ∀ c ∈ calls, c ≠ []) (hmul : ∀ c ∈ calls, BASE_BLOCK_SIZE ∣ c.length)
    (ha : Absorbs h [] t data) (hk : t.blockSize = (hasher h).span k)
    (hfile : t.fileSize = data.length) :
    Absorbs h [] (calls.foldl (update h) t) (data ++ calls.flatten) ∧
      (calls.foldl (update h) t).blockSize = (hasher h).span k ∧
      (calls.foldl (update h) t).fileSize = (data ++ calls.flatten).length := by
  induction calls generalizing t data with
  | nil => simpa using ⟨ha, hk, hfile⟩
  | cons c calls ih =>
    have hcne : c ≠ [] := hne c (List.mem_cons_self ..)
    have hspan : (hasher h).span 0 = BASE_BLOCK_SIZE := (hasher h).span_zero
    have hbs : BASE_BLOCK_SIZE ≤ t.blockSize := by
      rw [hk, ← hspan]
      exact Nat.le_of_dvd ((hasher h).span_pos k) ((hasher h).span_dvd (Nat.zero_le k))
    obtain ⟨ha', hg⟩ := update_absorbs ha (List.length_pos_of_ne_nil hcne)
      (hmul c (List.mem_cons_self ..)) hbs
    have hfile' : (update h t c).fileSize = (data ++ c).length := by
      rw [(update_fileSize hcne).1, hfile, List.length_append]
    have hrest := ih (fun c hc => hne c (List.mem_cons_of_mem _ hc))
      (fun c hc => hmul c (List.mem_cons_of_mem _ hc)) ha' (hg.blockSize.trans hk) hfile'
    rw [List.flatten_cons, ← List.append_assoc]
    exact hrest

/-- **All the data.** -/
theorem hashed_ended [Inhabited V] {calls : List Str} {k : Nat} (hcalls : calls ≠ [])
    (hne : ∀ c ∈ calls, c ≠ []) (hmul : ∀ c ∈ calls.dropLast, BASE_BLOCK_SIZE ∣ c.length) :
    Ended h (hashed h ((hasher h).span k) calls) calls.flatten ∧
      (hashed h ((hasher h).span k) calls).blockSize = (hasher h).span k ∧
      (hashed h ((hasher h).span k) calls).fileSize = calls.flatten.length := by
  obtain ⟨init, last, rfl⟩ : ∃ init last, calls = init ++ [last] :=
    ⟨_, _, (List.dropLast_append_getLast hcalls).symm⟩
  rw [List.dropLast_concat] at hmul
  have hlast : last ≠ [] := hne last (by simp)
  have hempty : Absorbs h [] (ofBlockSize ((hasher h).span k)) [] := absorbs_nil rfl rfl
  obtain ⟨ha, hk, hfile⟩ := foldl_update_absorbs init (fun c hc => hne c (by simp [hc])) hmul
    hempty rfl rfl
  rw [List.nil_append] at ha hfile
  unfold hashed
  rw [List.foldl_append, List.foldl_cons, List.foldl_nil, List.flatten_append,
    List.flatten_singleton]
  obtain ⟨hfile', hk'⟩ := update_fileSize (h := h) (t := init.foldl (update h)
    (ofBlockSize ((hasher h).span k))) hlast
  refine ⟨(update_ended ha hk hlast).ended, hk'.trans hk, ?_⟩
  rw [hfile', hfile, List.length_append]

/-! ## The leaves -/

theorem foldBlocks_fst (h : Hasher V) (b : V × Nat) (rest : List (V × Nat)) :
    ∃ n, foldBlocks h (b :: rest) =
      some (rest.foldl (fun v a => (hasher h).node a.1 v) b.1, n) := by
  unfold foldBlocks
  induction rest generalizing b with
  | nil => exact ⟨b.2, rfl⟩
  | cons a rest ih => exact ih (combine h a.1 b.1, a.2)

/-- `finalize` makes the last block a leaf, if it is not one yet. -/
theorem finalize_of_ended [Inhabited V] {pre : List V} {t : MerkleTree V} {data : Str}
    (ht : EndedAfter h pre t data) :
    ∃ done last blocks, data = done.flatten ++ last ∧ (∀ b ∈ done, b.length = t.blockSize) ∧
      0 < last.length ∧ last.length ≤ t.blockSize ∧
      finalize h t = calcRoot h { t with
        leaves := pre ++ (done ++ [last]).map (hasher h).hash, blocks := blocks } := by
  obtain ⟨done, last, rfl, hsize, hpos, hle, hl⟩ := ht
  cases hl with
  | inl hl =>
    obtain ⟨hleaves, hblocks⟩ := hl
    have hne : (t.leaves.isEmpty && t.blocks.isEmpty) = false := by rw [hleaves]; simp
    refine ⟨done, last, [], rfl, hsize, hpos, hle, ?_⟩
    unfold finalize
    rw [hne, if_neg Bool.false_ne_true]
    simp only [hblocks, foldBlocks]
    rw [← hleaves, ← hblocks]
  | inr hl =>
    obtain ⟨hleaves, m, hshort⟩ := hl
    obtain ⟨v, n, rest, hblocks⟩ : ∃ v n rest, t.blocks = (v, n) :: rest := by
      cases hb : t.blocks with
      | nil => rw [hb] at hshort; cases hshort
      | cons b rest => exact ⟨b.1, b.2, rest, rfl⟩
    rw [hblocks] at hshort
    have hne : (t.leaves.isEmpty && t.blocks.isEmpty) = false := by rw [hblocks]; simp
    obtain ⟨n', hfold⟩ := foldBlocks_fst h (v, n) rest
    rw [hshort.foldl_node] at hfold
    refine ⟨done, last, [((hasher h).hash last, n')], rfl, hsize, hpos, hle, ?_⟩
    unfold finalize
    rw [hne, if_neg Bool.false_ne_true]
    simp only [hblocks, hfold, hleaves, List.map_append, List.map_cons, List.map_nil,
      List.append_assoc]

/-- The root is made of the leaves and the block size. -/
theorem getHash_congr [Inhabited V] {t t' : MerkleTree V} (hl : t'.leaves = t.leaves)
    (hb : t'.blockSize = t.blockSize) (start length : Nat) :
    getHash h t' start length = getHash h t start length := by
  fun_induction getHash h t start length with
  | case1 start length hc =>
    rw [getHash, dif_pos (hb.symm ▸ hc), hl, hb]
  | case2 start length hc l hleft hright =>
    rw [getHash, dif_neg (hb.symm ▸ hc)]
    simp only [hb]
    rw [hleft, hright]

theorem calcRoot_root [Inhabited V] (h : Hasher V) (t : MerkleTree V) :
    (calcRoot h t).root = getHash h (calcRoot h t) 0 t.fileSize := by
  exact (@getHash_congr V h _ t (calcRoot h t) rfl rfl 0 t.fileSize).symm

/-- `finalize` keeps the sizes, and the root is made from its leaves. -/
theorem finalize_root [Inhabited V] (h : Hasher V) (t : MerkleTree V) :
    (finalize h t).blockSize = t.blockSize ∧
      (finalize h t).root = getHash h (finalize h t) 0 t.fileSize := by
  have hupdate : (if t.leaves.isEmpty && t.blocks.isEmpty then update h t [] else t).fileSize =
      t.fileSize ∧ (if t.leaves.isEmpty && t.blocks.isEmpty then update h t [] else t).blockSize =
      t.blockSize := by
    split
    · have hchunks := addChunks_fileSize (h := h) t []
      unfold update
      split
      · exact ⟨rfl, rfl⟩
      · exact hchunks
    · exact ⟨rfl, rfl⟩
  unfold finalize
  dsimp only
  split
  · exact ⟨hupdate.2, hupdate.1 ▸ calcRoot_root h _⟩
  · exact ⟨hupdate.2, hupdate.1 ▸ calcRoot_root h _⟩

/-- The number of blocks, by what they are made of. -/
theorem calcBlocks_eq {n m r : Nat} (hr : 0 < r) (hle : r ≤ n) :
    calcBlocks (m * n + r) n = m + 1 := by
  have hn : 0 < n := by omega
  unfold calcBlocks
  have hdiv : (m * n + r + n - 1) / n = m + 1 := by
    have hsplit : m * n + r + n - 1 = (r - 1) + (m + 1) * n := by
      rw [Nat.succ_mul]
      omega
    rw [hsplit, Nat.add_mul_div_right _ _ hn, Nat.div_eq_of_lt (by omega), Nat.zero_add]
  rw [hdiv]
  omega

/-- The hashes of the blocks of the data. -/
def leafHashes (h : Hasher V) (blockSize : Nat) (data : Str) : List V :=
  (List.range (calcBlocks data.length blockSize)).map fun i =>
    (hasher h).hash (leafBlock blockSize data i)

theorem leafHashes_eq {done : List Str} {last : Str} {n : Nat} (hsize : ∀ b ∈ done, b.length = n)
    (hpos : 0 < last.length) (hle : last.length ≤ n) :
    leafHashes h n (done.flatten ++ last) = (done ++ [last]).map (hasher h).hash := by
  have hflat := length_flatten_of_size hsize
  have hlen : calcBlocks (done.flatten ++ last).length n = done.length + 1 := by
    rw [List.length_append, hflat, calcBlocks_eq hpos hle]
  unfold leafHashes
  rw [hlen]
  apply List.ext_getElem
  · simp
  · intro i h₁ _
    rw [List.getElem_map, List.getElem_map, List.getElem_range]
    congr 1
    rw [List.length_map, List.length_range] at h₁
    rcases Nat.lt_or_ge i done.length with hi | hi
    · rw [leafBlock_flatten hsize hi, List.getElem_append_left hi]
    · obtain rfl : i = done.length := by omega
      rw [leafBlock_last hflat hle]
      simp

/-! ## The root -/

theorem doubleBelow_span {k length l : Nat} (hl : l = (hasher h).span k) (hlt : l < length) :
    ∃ j, k ≤ j ∧ doubleBelow l length = (hasher h).span j ∧ (hasher h).span j < length ∧
      length ≤ 2 * (hasher h).span j := by
  fun_induction doubleBelow l length generalizing k with
  | case1 l hc ih =>
    have hl' : l * 2 = (hasher h).span (k + 1) := by
      rw [TreeHasher.span_succ, hl, Nat.mul_comm]
    obtain ⟨j, hj, hrest⟩ := ih hl' hc.2
    exact ⟨j, by omega, hrest⟩
  | case2 l hc =>
    subst hl
    have hpos := (hasher h).span_pos k
    exact ⟨k, le_rfl, rfl, hlt, by omega⟩

/-- The bytes `getHash(start, length)` is about. -/
def piece (data : Str) (start length : Nat) : Str := (data.drop start).take length

/-- The byte ranges `getHash` asks for: from the beginning of a leaf, to the end of the data or
    as long as a complete subtree. -/
structure Covers (h : Hasher V) (k : Nat) (data : Str) (start length : Nat) : Prop where
  aligned : (hasher h).span k ∣ start
  pos : 0 < length
  inside : start + length ≤ data.length
  whole : start + length = data.length ∨ ∃ j, k ≤ j ∧ length = (hasher h).span j

theorem Covers.split {k j start length : Nat} {data : Str} (hc : Covers h k data start length)
    (hkj : k ≤ j) (hlt : (hasher h).span j < length) (hle : length ≤ 2 * (hasher h).span j) :
    Covers h k data start ((hasher h).span j) ∧
      Covers h k data (start + (hasher h).span j) (length - (hasher h).span j) := by
  obtain ⟨haligned, hpos, hinside, hwhole⟩ := hc
  refine ⟨⟨haligned, (hasher h).span_pos j, by omega, Or.inr ⟨j, hkj, rfl⟩⟩,
    ⟨Nat.dvd_add haligned ((hasher h).span_dvd hkj), by omega, by omega, ?_⟩⟩
  cases hwhole with
  | inl hend => exact Or.inl (by omega)
  | inr hspan =>
    -- the halves of a complete subtree are complete
    obtain ⟨i, -, hi⟩ := hspan
    have hnext := (hasher h).two_mul_span_le (hi ▸ hlt)
    exact Or.inr ⟨j, hkj, by omega⟩

theorem hash_piece {j start length : Nat} {data : Str} (hlt : (hasher h).span j < length)
    (hle : length ≤ 2 * (hasher h).span j) (hinside : start + length ≤ data.length) :
    (hasher h).hash (piece data start length) =
      combine h ((hasher h).hash (piece data start ((hasher h).span j)))
        ((hasher h).hash (piece data (start + (hasher h).span j)
          (length - (hasher h).span j))) := by
  have hsplit : piece data start length = piece data start ((hasher h).span j) ++
      piece data (start + (hasher h).span j) (length - (hasher h).span j) := by
    unfold piece
    rw [← List.drop_drop, ← List.take_add, Nat.add_sub_cancel' hlt.le]
  rw [hsplit]
  apply (hasher h).hash_append (j := j)
  · unfold piece
    rw [List.length_take, List.length_drop]
    omega
  · unfold piece
    rw [List.length_take, List.length_drop]
    omega
  · unfold piece
    rw [List.length_take, List.length_drop]
    omega

theorem Covers.leaf {k start length : Nat} {data : Str} (hc : Covers h k data start length)
    (hle : length ≤ (hasher h).span k) :
    piece data start length =
      leafBlock ((hasher h).span k) data (start / (hasher h).span k) := by
  unfold piece leafBlock
  rw [Nat.div_mul_cancel hc.aligned]
  cases hc.whole with
  | inl hend =>
    rw [List.take_of_length_le (by rw [List.length_drop]; omega),
      List.take_of_length_le (by rw [List.length_drop]; omega)]
  | inr hspan =>
    obtain ⟨j, hkj, hj⟩ := hspan
    have hge := Nat.le_of_dvd ((hasher h).span_pos j) ((hasher h).span_dvd hkj)
    rw [show length = (hasher h).span k by omega]

/-- The leaf `getHash` reads as number `i`. -/
def leafAt [Inhabited V] (t : MerkleTree V) (i : Nat) : V := t.leaves.getD (i % 2 ^ 32) default

theorem getHash_leaf [Inhabited V] {t : MerkleTree V} {start length : Nat}
    (hle : length ≤ t.blockSize) : getHash h t start length = leafAt t (start / t.blockSize) := by
  rw [getHash, dif_pos (Or.inl hle)]
  rfl

theorem getHash_node [Inhabited V] {t : MerkleTree V} {k length : Nat} (start : Nat)
    (hk : t.blockSize = (hasher h).span k) (hlt : t.blockSize < length) :
    ∃ j, k ≤ j ∧ (hasher h).span j < length ∧ length ≤ 2 * (hasher h).span j ∧
      getHash h t start length = combine h (getHash h t start ((hasher h).span j))
        (getHash h t (start + (hasher h).span j) (length - (hasher h).span j)) := by
  obtain ⟨j, hkj, hj, hjlt, hjle⟩ := doubleBelow_span hk hlt
  have hpos := (hasher h).span_pos k
  refine ⟨j, hkj, hjlt, hjle, ?_⟩
  rw [getHash, dif_neg (by omega)]
  simp only [hj]

/-- **The root over a range.** It is the hash of the bytes, if the leaves in the range are those
    of their blocks; under a hash that tells everything apart, only then. -/
theorem getHash_eq [Inhabited V] {t : MerkleTree V} {k start length : Nat} {data : Str}
    (hk : t.blockSize = (hasher h).span k) (hc : Covers h k data start length)
    (hleaf : ∀ i, start ≤ i * t.blockSize → i * t.blockSize < start + length →
      leafAt t i = (hasher h).hash (leafBlock t.blockSize data i)) :
    getHash h t start length = (hasher h).hash (piece data start length) := by
  by_cases hle : length ≤ t.blockSize
  · rw [getHash_leaf hle, hc.leaf (hk ▸ hle), ← hk]
    have hstart : start / t.blockSize * t.blockSize = start :=
      Nat.div_mul_cancel (hk ▸ hc.aligned)
    have hpos := hc.pos
    apply hleaf
    · omega
    · omega
  · obtain ⟨j, hkj, hlt, hle', heq⟩ := getHash_node start hk (not_le.mp hle)
    obtain ⟨hleft, hright⟩ := hc.split hkj hlt hle'
    have hjpos := (hasher h).span_pos j
    rw [heq, hash_piece hlt hle' hc.inside,
      getHash_eq hk hleft fun i h₁ h₂ => hleaf i h₁ (by omega),
      getHash_eq hk hright fun i h₁ h₂ => hleaf i (by omega) (by omega)]
termination_by length

theorem leafAt_of_getHash [Inhabited V] {t : MerkleTree V} {k start length : Nat} {data : Str}
    (hinj : (hasher h).Injective) (hk : t.blockSize = (hasher h).span k)
    (hc : Covers h k data start length)
    (heq : getHash h t start length = (hasher h).hash (piece data start length)) {i : Nat}
    (h₁ : start ≤ i * t.blockSize) (h₂ : i * t.blockSize < start + length) :
    leafAt t i = (hasher h).hash (leafBlock t.blockSize data i) := by
  have hbpos : 0 < t.blockSize := hk ▸ (hasher h).span_pos k
  by_cases hle : length ≤ t.blockSize
  · rw [getHash_leaf hle, hc.leaf (hk ▸ hle), ← hk] at heq
    have hstart : start / t.blockSize * t.blockSize = start :=
      Nat.div_mul_cancel (hk ▸ hc.aligned)
    have hi : start / t.blockSize = i := by
      apply le_antisymm
      · apply Nat.le_of_mul_le_mul_right _ hbpos
        omega
      · apply Nat.le_of_lt_succ
        apply Nat.lt_of_mul_lt_mul_right (a := t.blockSize)
        rw [Nat.succ_mul]
        omega
    rwa [hi] at heq
  · obtain ⟨j, hkj, hlt, hle', hnode⟩ := getHash_node start hk (not_le.mp hle)
    obtain ⟨hleft, hright⟩ := hc.split hkj hlt hle'
    have hjpos := (hasher h).span_pos j
    rw [hnode, hash_piece hlt hle' hc.inside] at heq
    obtain ⟨heql, heqr⟩ := hinj.node _ _ _ _ heq
    rcases Nat.lt_or_ge (i * t.blockSize) (start + (hasher h).span j) with hi | hi
    · exact leafAt_of_getHash hinj hk hleft heql h₁ hi
    · exact leafAt_of_getHash hinj hk hright heqr hi (by omega)
termination_by length

/-- Two trees of one size with one root have the same leaves, as far as `getHash` reads them. -/
theorem leafAt_congr [Inhabited V] {t t' : MerkleTree V} {k start length : Nat}
    (hinj : (hasher h).Injective) (hk : t.blockSize = (hasher h).span k)
    (hb : t'.blockSize = t.blockSize) (haligned : t.blockSize ∣ start)
    (heq : getHash h t start length = getHash h t' start length) {i : Nat}
    (h₁ : start ≤ i * t.blockSize) (h₂ : i * t.blockSize < start + length) :
    leafAt t i = leafAt t' i := by
  have hbpos : 0 < t.blockSize := hk ▸ (hasher h).span_pos k
  by_cases hle : length ≤ t.blockSize
  · rw [getHash_leaf hle, getHash_leaf (hb ▸ hle), hb] at heq
    obtain ⟨c, rfl⟩ := haligned
    rw [Nat.mul_div_cancel_left c hbpos] at heq
    have hi : c = i := by
      apply le_antisymm
      · exact Nat.le_of_mul_le_mul_left (by rwa [Nat.mul_comm i] at h₁) hbpos
      · apply Nat.le_of_lt_succ
        apply Nat.lt_of_mul_lt_mul_left (a := t.blockSize)
        rw [Nat.mul_succ, Nat.mul_comm t.blockSize i]
        omega
    rwa [hi] at heq
  · obtain ⟨j, hkj, hlt, hle', hnode⟩ := getHash_node start hk (not_le.mp hle)
    obtain ⟨j', -, hlt', hle'', hnode'⟩ :=
      getHash_node (t := t') start (hb.trans hk) (by rw [hb]; exact not_le.mp hle)
    -- both are split at the same byte
    rw [((hasher h).split_eq hlt' hle'').symm.trans ((hasher h).split_eq hlt hle')] at hnode'
    have hjpos := (hasher h).span_pos j
    rw [hnode, hnode'] at heq
    obtain ⟨heql, heqr⟩ := hinj.node _ _ _ _ heq
    rcases Nat.lt_or_ge (i * t.blockSize) (start + (hasher h).span j) with hi | hi
    · exact leafAt_congr hinj hk hb haligned heql h₁ hi
    · refine leafAt_congr hinj hk hb ?_ heqr hi (by omega)
      exact Nat.dvd_add haligned (hk ▸ (hasher h).span_dvd hkj)
termination_by length

/-! ## The tree hash of a file -/

/-- After the calls and `finalize`, the tree has the hashes of the blocks for its leaves and the
    tree hash of the data for its root, and so has the tree that is loaded from the leaves. -/
structure TreeHashes [Inhabited V] (h : Hasher V) (aBlockSize : Nat) (calls : List Str)
    (data : Str) : Prop where
  leaves : (finalize h (hashed h aBlockSize calls)).leaves = leafHashes h aBlockSize data
  root : (finalize h (hashed h aBlockSize calls)).root = (hasher h).hash data
  loaded : (ofLeaves h data.length aBlockSize (finalize h (hashed h aBlockSize calls)).leaves).root
    =
    (finalize h (hashed h aBlockSize calls)).root

/-- Every block has the bytes of the block whose number is the same as a 32-bit integer. -/
def LeavesRepeat (aBlockSize : Nat) (data : Str) : Prop :=
  ∀ i, i < calcBlocks data.length aBlockSize →
    leafBlock aBlockSize data (i % 2 ^ 32) = leafBlock aBlockSize data i

/-- How a file is hashed: its bytes in some calls, all but the last with whole chunks. -/
structure Calls (calls : List Str) (data : Str) : Prop where
  flatten : calls.flatten = data
  nonempty : ∀ c ∈ calls, c ≠ []
  chunks : ∀ c ∈ calls.dropLast, BASE_BLOCK_SIZE ∣ c.length

theorem calls_single {data : Str} (hne : data ≠ []) : Calls [data] data :=
  ⟨List.flatten_singleton, fun _ hc => List.mem_singleton.mp hc ▸ hne, fun _ hc => nomatch hc⟩

theorem reduceBlocks_single {t : MerkleTree V} {b : V × Nat} (hb : t.blocks = [b]) :
    reduceBlocks h t = t := by
  rw [reduceBlocks]
  split
  · next heq => rw [hb] at heq; exact absurd heq (by simp)
  · rfl

/-- A file without bytes is hashed as one empty leaf. -/
theorem finalize_empty [Inhabited V] (h : Hasher V) {t : MerkleTree V} (hl : t.leaves = [])
    (hb : t.blocks = []) :
    ∃ blocks, finalize h t = calcRoot h { t with leaves := [leafHash h []], blocks := blocks } := by
  have hempty : (t.leaves.isEmpty && t.blocks.isEmpty) = true := by rw [hl, hb]; rfl
  have hupdate : update h t [] = addChunk h t [] := by
    unfold update
    rw [hempty, if_neg (by simp), addChunks, if_pos (by simp)]
    simp
  unfold finalize
  rw [if_pos hempty, hupdate]
  unfold addChunk
  by_cases hlt : BASE_BLOCK_SIZE < t.blockSize
  · rw [if_pos hlt, hb, reduceBlocks_single rfl]
    exact ⟨[(leafHash h [], BASE_BLOCK_SIZE)], by simp [foldBlocks, hl]⟩
  · rw [if_neg hlt]
    exact ⟨[], by simp [foldBlocks, hl, hb]⟩

theorem leafHashes_nil (h : Hasher V) {n : Nat} (hn : 0 < n) :
    leafHashes h n [] = [leafHash h []] := by
  have hone : calcBlocks 0 n = 1 := by
    unfold calcBlocks
    rw [Nat.zero_add, Nat.div_eq_of_lt (by omega)]
    rfl
  have hleaf : (hasher h).hash [] = leafHash h [] := (hasher h).hash_leaf (Nat.zero_le _)
  simp [leafHashes, hone, leafBlock, hleaf]

/-- Leaves only: there is nothing to fold. -/
theorem finalize_leaves_only [Inhabited V] (h : Hasher V) {t : MerkleTree V} (hl : t.leaves ≠ [])
    (hb : t.blocks = []) : finalize h t = calcRoot h t := by
  have hne : (t.leaves.isEmpty && t.blocks.isEmpty) = false := by
    rw [List.isEmpty_eq_false_iff.mpr hl]
    rfl
  unfold finalize
  rw [hne, if_neg Bool.false_ne_true]
  simp only [hb, foldBlocks]

/-- **The leaves**, however the data is cut into calls. -/
theorem finalize_hashed [Inhabited V] (h : Hasher V) (k : Nat) {calls : List Str} {data : Str}
    (hc : Calls calls data) :
    ∃ t : MerkleTree V, finalize h (hashed h ((hasher h).span k) calls) = calcRoot h t ∧
      t.leaves = leafHashes h ((hasher h).span k) data ∧ t.blockSize = (hasher h).span k ∧
      t.fileSize = data.length := by
  obtain ⟨rfl, hne, hmul⟩ := hc
  by_cases hcalls : calls = []
  · subst hcalls
    obtain ⟨blocks, heq⟩ :=
      finalize_empty h (t := ofBlockSize ((hasher h).span k)) rfl rfl
    refine ⟨_, heq, ?_, rfl, rfl⟩
    exact (leafHashes_nil h ((hasher h).span_pos k)).symm
  · obtain ⟨hended, hblock, hfile⟩ := hashed_ended (h := h) (k := k) hcalls hne hmul
    obtain ⟨done, last, blocks, hflat, hsize, hpos, hle, heq⟩ := finalize_of_ended hended.endedAfter
    rw [hblock] at hsize hle
    refine ⟨_, heq, ?_, hblock, hfile⟩
    rw [hflat, leafHashes_eq hsize hpos hle]
    exact List.nil_append _

theorem length_leafHashes (h : Hasher V) (n : Nat) (data : Str) :
    (leafHashes h n data).length = calcBlocks data.length n := by
  unfold leafHashes
  rw [List.length_map, List.length_range]

theorem getElem?_leafHashes (h : Hasher V) {n i : Nat} {data : Str}
    (hi : i < calcBlocks data.length n) :
    (leafHashes h n data)[i]? = some ((hasher h).hash (leafBlock n data i)) := by
  unfold leafHashes
  rw [List.getElem?_map, List.getElem?_range hi, Option.map_some]

/-- What `getHash` reads for leaf `i`. -/
theorem leafAt_eq [Inhabited V] {t : MerkleTree V} {n i : Nat} {data : Str}
    (hl : t.leaves = leafHashes h n data) (hi : i < calcBlocks data.length n) :
    leafAt t i = (hasher h).hash (leafBlock n data (i % 2 ^ 32)) := by
  have hi' : i % 2 ^ 32 < calcBlocks data.length n := lt_of_le_of_lt (Nat.mod_le _ _) hi
  unfold leafAt
  rw [hl, List.getD_eq_getElem?_getD, getElem?_leafHashes h hi', Option.getD_some]

/-- The blocks of data that is not empty begin inside it. -/
theorem lt_calcBlocks_iff {i n len : Nat} (hn : 0 < n) (hlen : 0 < len) :
    i < calcBlocks len n ↔ i * n < len := by
  have hdiv : 1 ≤ (len + n - 1) / n := by
    rw [Nat.le_div_iff_mul_le hn]
    omega
  have hsub : (len + n - 1) / n = (len - 1) / n + 1 := by
    rw [show len + n - 1 = len - 1 + n by omega, Nat.add_div_right _ hn]
  unfold calcBlocks
  rw [Nat.max_eq_left hdiv, hsub, Nat.lt_succ_iff, Nat.le_div_iff_mul_le hn]
  omega

theorem root_of_repeats [Inhabited V] {t : MerkleTree V} {k : Nat} {data : Str}
    (hl : t.leaves = leafHashes h ((hasher h).span k) data)
    (hb : t.blockSize = (hasher h).span k) (hr : LeavesRepeat ((hasher h).span k) data) :
    getHash h t 0 data.length = (hasher h).hash data := by
  have hspan := (hasher h).span_pos k
  by_cases hd : data = []
  · subst hd
    rw [List.length_nil, getHash_leaf (Nat.zero_le _), Nat.zero_div,
      leafAt_eq hl (by unfold calcBlocks; omega)]
    simp [leafBlock]
  · have hpos := List.length_pos_of_ne_nil hd
    have hcovers : Covers h k data 0 data.length :=
      ⟨dvd_zero _, hpos, by omega, Or.inl (Nat.zero_add _)⟩
    have hpiece : piece data 0 data.length = data := by
      unfold piece
      rw [List.drop_zero, List.take_length]
    rw [getHash_eq hb hcovers, hpiece]
    intro i _ hi
    rw [Nat.zero_add, hb] at hi
    have hlt := (lt_calcBlocks_iff hspan hpos).mpr hi
    rw [leafAt_eq hl hlt, hr i hlt, hb]

theorem repeats_of_root [Inhabited V] {t : MerkleTree V} {k : Nat} {data : Str}
    (hinj : (hasher h).Injective) (hl : t.leaves = leafHashes h ((hasher h).span k) data)
    (hb : t.blockSize = (hasher h).span k)
    (hroot : getHash h t 0 data.length = (hasher h).hash data) :
    LeavesRepeat ((hasher h).span k) data := by
  have hspan := (hasher h).span_pos k
  by_cases hd : data = []
  · subst hd
    intro i _
    simp [leafBlock]
  · intro i hi
    have hpos := List.length_pos_of_ne_nil hd
    have hcovers : Covers h k data 0 data.length :=
      ⟨dvd_zero _, hpos, by omega, Or.inl (Nat.zero_add _)⟩
    have hpiece : piece data 0 data.length = data := by
      unfold piece
      rw [List.drop_zero, List.take_length]
    have hlt := (lt_calcBlocks_iff hspan hpos).mp hi
    have hleaf := leafAt_of_getHash hinj hb hcovers (hpiece.symm ▸ hroot) (Nat.zero_le _)
      (by rw [hb, Nat.zero_add]; exact hlt)
    rw [leafAt_eq hl hi, hb] at hleaf
    exact hinj.hash hleaf

/-- The tree that is loaded from the leaves of a hashed file has its root. -/
theorem ofLeaves_root [Inhabited V] {t : MerkleTree V} {n : Nat} {data : Str}
    (hl : t.leaves = leafHashes h n data) (hb : t.blockSize = n) :
    (ofLeaves h data.length n t.leaves).root = getHash h t 0 data.length := by
  unfold ofLeaves calcRoot
  apply getHash_congr
  · simp only
    rw [List.take_of_length_le]
    rw [hl, length_leafHashes]
  · exact hb.symm

theorem treeHashes_of_repeats [Inhabited V] (h : Hasher V) {k : Nat} {calls : List Str}
    {data : Str} (hc : Calls calls data) (hr : LeavesRepeat ((hasher h).span k) data) :
    TreeHashes h ((hasher h).span k) calls data := by
  obtain ⟨t, heq, hl, hb, hf⟩ := finalize_hashed h k hc
  constructor
  case leaves => rw [heq]; exact hl
  case root =>
    rw [heq]
    show getHash h t 0 t.fileSize = _
    rw [hf]
    exact root_of_repeats hl hb hr
  case loaded =>
    rw [heq]
    show (ofLeaves h data.length ((hasher h).span k) t.leaves).root = getHash h t 0 t.fileSize
    rw [hf]
    exact ofLeaves_root hl hb

theorem repeats_of_treeHashes [Inhabited V] {h : Hasher V} (hinj : (hasher h).Injective) {k : Nat}
    {calls : List Str} {data : Str} (hc : Calls calls data)
    (ht : TreeHashes h ((hasher h).span k) calls data) :
    LeavesRepeat ((hasher h).span k) data := by
  obtain ⟨t, heq, hl, hb, hf⟩ := finalize_hashed h k hc
  have hroot := ht.root
  rw [heq] at hroot
  have hroot' : getHash h t 0 t.fileSize = (hasher h).hash data := hroot
  rw [hf] at hroot'
  exact repeats_of_root hinj hl hb hroot'

/-- The hash that keeps everything: a digest is the text of its tree. -/
def textHasher : Hasher Str where
  finalize := id
  data v := List.replicate v.length 1 ++ 0 :: v

theorem textHasher_data {a b x y : Str} (h : textHasher.data a ++ x = textHasher.data b ++ y) :
    a = b ∧ x = y := by
  have hones : ∀ (n : Nat) (l : Str),
      (List.replicate n 1 ++ (0 : UInt8) :: l).takeWhile (· == 1) = List.replicate n 1 := by
    intro n l
    induction n with
    | zero => rfl
    | succ n ih => rw [List.replicate_succ, List.cons_append, List.takeWhile_cons]; simp [ih]
  simp only [textHasher, List.append_assoc, List.cons_append] at h
  have hlen : a.length = b.length := by
    have hcount := congrArg (fun l => (List.takeWhile (· == 1) l).length) h
    simpa only [hones, List.length_replicate] using hcount
  rw [hlen] at h
  have htail := List.cons.inj (List.append_cancel_left h)
  exact List.append_inj htail.2 hlen

theorem textHasher_injective : (hasher textHasher).Injective where
  leaf a b _ _ heq := (List.cons.inj heq).2
  node a b c d heq := by
    have htail : textHasher.data a ++ textHasher.data b =
        textHasher.data c ++ textHasher.data d := (List.cons.inj heq).2
    obtain ⟨hac, hbd⟩ := textHasher_data htail
    refine ⟨hac, (textHasher_data (x := []) (y := []) ?_).1⟩
    rw [hbd]
  leaf_ne_node a b c heq := absurd (List.cons.inj heq).1 (by decide)

/-- **The tree hash, for every way of feeding the data.** Leaves and root are right under every
    hash function exactly when the blocks from number `2^32` on repeat the earlier ones. -/
theorem treeHashes_iff {k : Nat} {calls : List Str} {data : Str} (hc : Calls calls data) :
    (∀ (V : Type) [Inhabited V] (h : Hasher V),
      TreeHashes h (BASE_BLOCK_SIZE * 2 ^ k) calls data) ↔
      LeavesRepeat (BASE_BLOCK_SIZE * 2 ^ k) data := by
  constructor
  · intro h
    exact repeats_of_treeHashes textHasher_injective hc (h Str textHasher)
  · intro hr V _ h
    exact treeHashes_of_repeats h hc hr

theorem treeHashes_iff_byte :
    (∀ (V : Type) [Inhabited V] (h : Hasher V),
      TreeHashes h (BASE_BLOCK_SIZE * 2 ^ 0) [[97]] [97]) ↔
      LeavesRepeat (BASE_BLOCK_SIZE * 2 ^ 0) [97] :=
  treeHashes_iff ⟨rfl, by simp, by simp⟩

/-- Four tebibytes of zeros in blocks of 1024 bytes, and one more byte: the last leaf is read as
    the first. -/
theorem treeHashes_large : ¬ ∀ (V : Type) [Inhabited V] (h : Hasher V) (k : Nat)
    (calls : List Str) (data : Str), Calls calls data →
      TreeHashes h (BASE_BLOCK_SIZE * 2 ^ k) calls data := by
  intro h
  let zeros : Str := List.replicate (2 ^ 32 * BASE_BLOCK_SIZE) 0
  have hzeros : zeros.length = 2 ^ 32 * BASE_BLOCK_SIZE := List.length_replicate
  have hc : Calls [zeros ++ [1]] (zeros ++ [1]) := ⟨by simp, by simp, by simp⟩
  have hr := repeats_of_treeHashes textHasher_injective hc (h Str textHasher 0 _ _ hc)
  have hbase : (hasher textHasher).span 0 = BASE_BLOCK_SIZE := (hasher textHasher).span_zero
  rw [hbase] at hr
  have hlast := hr (2 ^ 32) (by
    have hbpos : 0 < BASE_BLOCK_SIZE := Nat.zero_lt_succ _
    rw [lt_calcBlocks_iff hbpos (by simp), List.length_append, hzeros]
    exact Nat.lt_succ_self _)
  rw [Nat.mod_self, leafBlock_last hzeros (by simp [BASE_BLOCK_SIZE])] at hlast
  have hlen := congrArg List.length hlast
  unfold leafBlock at hlen
  rw [Nat.zero_mul, List.drop_zero, List.length_take, List.length_append, hzeros] at hlen
  simp [BASE_BLOCK_SIZE] at hlen

end MerkleTree
end Airdcpp
