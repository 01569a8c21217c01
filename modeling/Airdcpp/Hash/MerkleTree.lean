import Airdcpp.Core.Types
import Airdcpp.Lib.TreeHash

/-!
# `Hash/MerkleTree` — the tree hash of a file, leaf by leaf

`MerkleTree` is a template over its hash function; here it is generic over a `Hasher`: what
`finalize` returns for all the bytes given to `update`, and the bytes of a digest. `blocks` is
the source's vector with its last element first.

`update` is fed pieces of any multiple of 1024 bytes and emits a leaf for every `blockSize`
bytes, keeping the subtrees of an unfinished leaf in `blocks`. `Absorbs` says what it has
computed at any moment: the leaves are the hashes of complete blocks of the data, and the rest
of the data is in the pile. A block size that is not `1024 · 2^k` emits no leaf at all, which
is the case of the single-root trees whose block size is the file size.
-/

namespace Airdcpp

open Lib

/-- A hash function: the digest of everything given to `update`, and the bytes of a digest. -/
structure Hasher (V : Type*) where
  finalize : Str → V
  data : V → Str

structure MerkleTree (V : Type*) where
  /-- subtrees of the unfinished leaf and the bytes each covers, the newest first -/
  blocks : List (V × Nat)
  leaves : List V
  root : V
  fileSize : Nat
  blockSize : Nat

namespace MerkleTree

def BASE_BLOCK_SIZE : Nat := 1024

/-- Data blocks and inner nodes are hashed under different first bytes. -/
def leafHash {V : Type*} (h : Hasher V) (data : Str) : V := h.finalize (0 :: data)

def combine {V : Type*} (h : Hasher V) (a b : V) : V := h.finalize (1 :: (h.data a ++ h.data b))

/-- The tree hash that these two make, with leaves of 1024 bytes. -/
def hasher {V : Type*} (h : Hasher V) : TreeHasher UInt8 V where
  base := BASE_BLOCK_SIZE
  base_pos := by decide
  leaf := leafHash h
  node := combine h

variable {V : Type*} (h : Hasher V)

/-! ## Construction -/

/-- `MerkleTree(aBlockSize)` -/
def ofBlockSize [Inhabited V] (aBlockSize : Nat) : MerkleTree V := ⟨[], [], default, 0, aBlockSize⟩

/-- The single-root tree `MerkleTree(aFileSize, aBlockSize, aRoot)`. -/
def ofRoot (aFileSize aBlockSize : Nat) (aRoot : V) : MerkleTree V :=
  ⟨[], [aRoot], aRoot, aFileSize, aBlockSize⟩

def calcBlocks (aFileSize aBlockSize : Nat) : Nat :=
  max ((aFileSize + aBlockSize - 1) / aBlockSize) 1

/-! ## The root over the leaves -/

/-- `while (l * 2 < length) l *= 2` -/
def doubleBelow (l length : Nat) : Nat :=
  if 0 < l ∧ l * 2 < length then doubleBelow (l * 2) length else l
termination_by length - l

theorem doubleBelow_bounds {l length : Nat} (hl : 0 < l) (h : l < length) :
    0 < doubleBelow l length ∧ doubleBelow l length < length := by
  fun_induction doubleBelow l length with
  | case1 l hc ih => exact ih (by omega) hc.2
  | case2 l hc => exact ⟨hl, h⟩

/-- `getHash`. A block size of zero, by which the source would divide, reads the first leaf. -/
def getHash [Inhabited V] (t : MerkleTree V) (start length : Nat) : V :=
  if hc : length ≤ t.blockSize ∨ t.blockSize = 0 then
    t.leaves.getD (start / t.blockSize % 2 ^ 32) default
  else
    let l := doubleBelow t.blockSize length
    combine h (getHash t start l) (getHash t (start + l) (length - l))
termination_by length
decreasing_by
  · have hpos : 0 < t.blockSize := by omega
    have hlt : t.blockSize < length := by omega
    have := doubleBelow_bounds hpos hlt
    omega
  · have hpos : 0 < t.blockSize := by omega
    have hlt : t.blockSize < length := by omega
    have := doubleBelow_bounds hpos hlt
    omega

def calcRoot [Inhabited V] (t : MerkleTree V) :
    MerkleTree V := { t with root := getHash h t 0 t.fileSize }

/-- `MerkleTree(aFileSize, aBlockSize, aData)` — `aData` are the leaves, stored consecutively. -/
def ofLeaves [Inhabited V] (aFileSize aBlockSize : Nat) (aData : List V) : MerkleTree V :=
  calcRoot h ⟨[], aData.take (calcBlocks aFileSize aBlockSize), default, aFileSize, aBlockSize⟩

/-! ## Hashing -/

/-- Merge the two newest subtrees while they are of one size; a merge that fills the block size
    is a leaf. -/
def reduceBlocks (t : MerkleTree V) : MerkleTree V :=
  match _hb : t.blocks with
  | b :: a :: rest =>
    if a.2 = b.2 then
      if a.2 * 2 = t.blockSize then
        reduceBlocks { t with leaves := t.leaves ++ [combine h a.1 b.1], blocks := rest }
      else
        reduceBlocks { t with blocks := (combine h a.1 b.1, a.2 * 2) :: rest }
    else t
  | _ => t
termination_by t.blocks.length
decreasing_by all_goals simp [_hb]

/-- One turn of the loop of `update`: at most 1024 bytes. -/
def addChunk (t : MerkleTree V) (chunk : Str) : MerkleTree V :=
  if BASE_BLOCK_SIZE < t.blockSize then
    reduceBlocks h { t with blocks := (leafHash h chunk, BASE_BLOCK_SIZE) :: t.blocks }
  else
    { t with leaves := t.leaves ++ [leafHash h chunk] }

/-- The loop of `update`, whose body runs at least once. -/
def addChunks (t : MerkleTree V) (data : Str) : MerkleTree V :=
  let t' := addChunk h t (data.take BASE_BLOCK_SIZE)
  if data.length ≤ BASE_BLOCK_SIZE then t' else addChunks t' (data.drop BASE_BLOCK_SIZE)
termination_by data.length
decreasing_by simp only [List.length_drop, BASE_BLOCK_SIZE] at *; omega

def update (t : MerkleTree V) (data : Str) : MerkleTree V :=
  if data.isEmpty && !(t.leaves.isEmpty && t.blocks.isEmpty) then t
  else
    let t' := addChunks h t data
    { t' with fileSize := t'.fileSize + data.length }

/-- `while (blocks.size() > 1)`: the newest subtree is the right half of the one before. -/
def foldBlocks : List (V × Nat) → Option (V × Nat)
  | [] => none
  | b :: rest => some (rest.foldl (fun b a => (combine h a.1 b.1, a.2)) b)

def finalize [Inhabited V] (t : MerkleTree V) : MerkleTree V :=
  let t := if t.leaves.isEmpty && t.blocks.isEmpty then update h t [] else t
  let t := match foldBlocks h t.blocks with
    | some b => { t with leaves := t.leaves ++ [b.1], blocks := [b] }
    | none => t
  calcRoot h t

/-! ## What has been hashed so far -/

variable {h}

/-- Hashing after `pre`: `done` are the complete blocks since, `rest` is in the pile. -/
structure Absorbed (h : Hasher V) (pre : List V) (t : MerkleTree V) (done : List Str)
    (rest : Str) : Prop where
  leaves : t.leaves = pre ++ done.map (hasher h).hash
  size : ∀ b ∈ done, b.length = t.blockSize
  complete : done ≠ [] → ∃ k, t.blockSize = (hasher h).span k
  piled : (hasher h).Piled t.blocks rest
  bound : ∀ k, t.blockSize = (hasher h).span k → ∀ b ∈ t.blocks, b.2 < (hasher h).span k

/-- The tree has hashed `data` after the leaves `pre`. -/
def Absorbs (h : Hasher V) (pre : List V) (t : MerkleTree V) (data : Str) : Prop :=
  ∃ done rest, data = done.flatten ++ rest ∧ Absorbed h pre t done rest

theorem absorbs_nil {pre : List V} {t : MerkleTree V} (hl : t.leaves = pre) (hb : t.blocks = []) :
    Absorbs h pre t [] :=
  ⟨[], [], rfl, by simp [hl], by simp, by simp, hb ▸ TreeHasher.Piled.nil, by simp [hb]⟩

/-- **One chunk on the pile.** `reduceBlocks` either completes a leaf, and then the pile is
    empty, or leaves a pile of the longer data. The chunk may be `m` bytes short. -/
theorem reduceBlocks_pile {blocks : List (V × Nat)} {d₀ d₁ : Str} {j m : Nat} {t : MerkleTree V}
    (hp : (hasher h).Piled blocks d₀) (hpos : 0 < d₁.length)
    (hlen : d₁.length + m = (hasher h).span j)
    (hge : ∀ b ∈ blocks, (hasher h).span j ≤ b.2)
    (hbound : ∀ k, t.blockSize = (hasher h).span k → ∀ b ∈ blocks, b.2 < (hasher h).span k)
    (hj : ∀ k, t.blockSize = (hasher h).span k → (hasher h).span j < (hasher h).span k)
    (ht : t.blocks = ((hasher h).hash d₁, (hasher h).span j) :: blocks) :
    (∃ k, t.blockSize = (hasher h).span k ∧ (d₀ ++ d₁).length + m = (hasher h).span k ∧
      reduceBlocks h t =
        { t with leaves := t.leaves ++ [(hasher h).hash (d₀ ++ d₁)], blocks := [] }) ∨
    ∃ blocks', (hasher h).PiledShort m blocks' (d₀ ++ d₁) ∧
      (∀ k, t.blockSize = (hasher h).span k → ∀ b ∈ blocks', b.2 < (hasher h).span k) ∧
      reduceBlocks h t = { t with blocks := blocks' } := by
  induction blocks generalizing d₀ d₁ j t with
  | nil =>
    refine Or.inr ⟨t.blocks, ?_, ?_, ?_⟩
    · rw [ht]
      exact TreeHasher.PiledShort.push j hp hpos hlen (by simp)
    · rw [ht]
      intro k hk b hb
      rw [List.mem_singleton.mp hb]
      exact hj k hk
    · rw [reduceBlocks]
      split
      · next heq => rw [ht] at heq; simp at heq
      · rfl
  | cons a blocks ih =>
    have hstep : reduceBlocks h t =
        if a.2 = (hasher h).span j then
          if a.2 * 2 = t.blockSize then
            reduceBlocks h { t with
              leaves := t.leaves ++ [combine h a.1 ((hasher h).hash d₁)], blocks := blocks }
          else reduceBlocks h { t with
              blocks := (combine h a.1 ((hasher h).hash d₁), a.2 * 2) :: blocks }
        else t := by
      rw [reduceBlocks]
      split
      · next heq =>
        rw [ht] at heq
        simp only [List.cons.injEq] at heq
        obtain ⟨rfl, rfl, rfl⟩ := heq
        rfl
      · next hne => exact absurd ht (hne _ _ _)
    rw [hstep]
    obtain ⟨v, s⟩ := a
    by_cases hs : s = (hasher h).span j
    · subst hs
      obtain ⟨e₀, e, rfl, hp', he, hnode, hge'⟩ := hp.merge hpos (by omega)
      have hnode : combine h v ((hasher h).hash d₁) = (hasher h).hash (e ++ d₁) := hnode
      have hlen' : (e ++ d₁).length + m = (hasher h).span (j + 1) := by
        rw [List.length_append, TreeHasher.span_succ]
        omega
      rw [if_pos rfl, hnode, Nat.mul_comm, ← TreeHasher.span_succ, List.append_assoc]
      by_cases hfull : (hasher h).span (j + 1) = t.blockSize
      · -- every block left would be as long as a leaf, so there is none
        have hnil : blocks = [] := by
          refine List.eq_nil_iff_forall_not_mem.mpr fun b hb => ?_
          have h₁ := hge' b hb
          have h₂ := hbound (j + 1) hfull.symm b (List.mem_cons_of_mem _ hb)
          omega
        subst hnil
        cases hp'
        rw [if_pos hfull, reduceBlocks]
        exact Or.inl ⟨j + 1, hfull.symm, by simpa using hlen', by simp⟩
      · rw [if_neg hfull]
        refine ih (t := { t with
          blocks := ((hasher h).hash (e ++ d₁), (hasher h).span (j + 1)) :: blocks })
          hp' ?_ hlen' hge' (fun k hk b hb => ?_) (fun k hk => ?_) rfl
        · rw [List.length_append]
          omega
        · exact hbound k hk b (List.mem_cons_of_mem _ hb)
        · have h₁ := (hasher h).two_mul_span_le (hj k hk)
          have h₂ : t.blockSize = (hasher h).span k := hk
          rw [TreeHasher.span_succ] at hfull ⊢
          omega
    · rw [if_neg hs]
      refine Or.inr ⟨t.blocks, ?_, ?_, rfl⟩
      · rw [ht]
        have hlt : (hasher h).span j < s :=
          lt_of_le_of_ne (hge _ (List.mem_cons_self ..)) (Ne.symm hs)
        have habove := hp.above
        refine TreeHasher.PiledShort.push j hp hpos hlen fun b hb => ?_
        cases List.mem_cons.mp hb with
        | inl hb => rw [hb]; exact hlt
        | inr hb => exact lt_trans hlt (habove b hb)
      · rw [ht]
        intro k hk b hb
        cases List.mem_cons.mp hb with
        | inl hb => rw [hb]; exact hj k hk
        | inr hb => exact hbound k hk b hb

/-- Hashing leaves the block size alone and only adds leaves. -/
structure Grows (t t' : MerkleTree V) : Prop where
  blockSize : t'.blockSize = t.blockSize
  leaves : t.leaves <+: t'.leaves

theorem Grows.refl (t : MerkleTree V) : Grows t t := ⟨rfl, List.prefix_rfl⟩

theorem Grows.trans {t₁ t₂ t₃ : MerkleTree V} (h₁ : Grows t₁ t₂) (h₂ : Grows t₂ t₃) :
    Grows t₁ t₃ :=
  ⟨h₂.blockSize.trans h₁.blockSize, h₁.leaves.trans h₂.leaves⟩

theorem addChunk_absorbs {pre : List V} {t : MerkleTree V} {data chunk : Str}
    (ha : Absorbs h pre t data) (hc : chunk.length = BASE_BLOCK_SIZE)
    (hbs : BASE_BLOCK_SIZE ≤ t.blockSize) :
    Absorbs h pre (addChunk h t chunk) (data ++ chunk) ∧ Grows t (addChunk h t chunk) := by
  obtain ⟨done, rest, rfl, hl, hsize, hcomplete, hpiled, hbound⟩ := ha
  have hspan : (hasher h).span 0 = BASE_BLOCK_SIZE := (hasher h).span_zero
  have hleaf : leafHash h chunk = (hasher h).hash chunk :=
    ((hasher h).hash_leaf hc.le).symm
  have hpos : 0 < chunk.length := by rw [hc]; exact Nat.zero_lt_succ _
  unfold addChunk
  by_cases hlt : BASE_BLOCK_SIZE < t.blockSize
  · rw [if_pos hlt, hleaf]
    have hge : ∀ b ∈ t.blocks, (hasher h).span 0 ≤ b.2 := fun b hb => by
      obtain ⟨j, hj⟩ := hpiled.size b hb
      rw [hj]
      exact Nat.le_of_dvd ((hasher h).span_pos j) ((hasher h).span_dvd (Nat.zero_le j))
    have hj : ∀ k, t.blockSize = (hasher h).span k → (hasher h).span 0 < (hasher h).span k :=
      fun k hk => by rw [hspan]; omega
    rcases reduceBlocks_pile (t := { t with
      blocks := ((hasher h).hash chunk, BASE_BLOCK_SIZE) :: t.blocks })
      (m := 0) hpiled hpos (hc.trans hspan.symm) hge hbound hj (by rw [hspan])
      with ⟨k, hk, hlen, heq⟩ | ⟨blocks', hpiled', hbound', heq⟩
    · rw [heq]
      refine ⟨⟨done ++ [rest ++ chunk], [], by simp, ?_, fun b hb => ?_, fun _ => ⟨k, hk⟩,
        TreeHasher.Piled.nil, by simp⟩, rfl, List.prefix_append _ _⟩
      · simp [hl]
      · rcases List.mem_append.mp hb with hb | hb
        · exact hsize b hb
        · rw [List.mem_singleton.mp hb]
          exact hlen.trans hk.symm
    · rw [heq]
      exact ⟨⟨done, rest ++ chunk, by simp, hl, hsize, hcomplete, hpiled'.piled, hbound'⟩,
        rfl, List.prefix_rfl⟩
  · -- a leaf is one chunk, and nothing is ever piled
    have hk : t.blockSize = (hasher h).span 0 := by rw [hspan]; omega
    have hrest : rest = [] := by
      have h₁ := hpiled.length_lt (hbound 0 hk)
      have h₂ := hpiled.base_dvd
      rw [hspan] at h₁
      exact List.eq_nil_of_length_eq_zero (Nat.eq_zero_of_dvd_of_lt h₂ h₁)
    subst hrest
    rw [if_neg hlt, hleaf]
    refine ⟨⟨done ++ [chunk], [], by simp, by simp [hl], fun b hb => ?_, fun _ => ⟨0, hk⟩,
      hpiled, hbound⟩, rfl, List.prefix_append _ _⟩
    rcases List.mem_append.mp hb with hb | hb
    · exact hsize b hb
    · rw [List.mem_singleton.mp hb, hc, ← hspan]
      exact hk.symm

theorem addChunks_absorbs {pre : List V} {t : MerkleTree V} {data d : Str}
    (ha : Absorbs h pre t data) (hpos : 0 < d.length) (hd : BASE_BLOCK_SIZE ∣ d.length)
    (hbs : BASE_BLOCK_SIZE ≤ t.blockSize) :
    Absorbs h pre (addChunks h t d) (data ++ d) ∧ Grows t (addChunks h t d) := by
  have hge : BASE_BLOCK_SIZE ≤ d.length := Nat.le_of_dvd hpos hd
  obtain ⟨ha', hg⟩ := addChunk_absorbs ha
    (show (d.take BASE_BLOCK_SIZE).length = BASE_BLOCK_SIZE by rw [List.length_take]; omega) hbs
  rw [addChunks]
  by_cases hle : d.length ≤ BASE_BLOCK_SIZE
  · rw [if_pos hle]
    rw [List.take_of_length_le hle] at ha' hg ⊢
    exact ⟨ha', hg⟩
  · rw [if_neg hle]
    have hlen : (d.drop BASE_BLOCK_SIZE).length = d.length - BASE_BLOCK_SIZE := List.length_drop
    obtain ⟨ha'', hg'⟩ := addChunks_absorbs ha' (d := d.drop BASE_BLOCK_SIZE)
      (by rw [hlen]; omega) (by rw [hlen]; exact Nat.dvd_sub hd (dvd_refl _))
      (hg.blockSize.symm ▸ hbs)
    rw [List.append_assoc, List.take_append_drop] at ha''
    exact ⟨ha'', hg.trans hg'⟩
termination_by d.length
decreasing_by rw [hlen]; simp only [BASE_BLOCK_SIZE] at *; omega

/-- **`update` on whole chunks** hashes them after what has been hashed. -/
theorem update_absorbs {pre : List V} {t : MerkleTree V} {data d : Str}
    (ha : Absorbs h pre t data) (hpos : 0 < d.length) (hd : BASE_BLOCK_SIZE ∣ d.length)
    (hbs : BASE_BLOCK_SIZE ≤ t.blockSize) :
    Absorbs h pre (update h t d) (data ++ d) ∧ Grows t (update h t d) := by
  have hne : d.isEmpty = false := List.isEmpty_eq_false_iff.mpr (List.ne_nil_of_length_pos hpos)
  obtain ⟨⟨done, rest, heq, hl, hsize, hcomplete, hpiled, hbound⟩, hg⟩ :=
    addChunks_absorbs ha hpos hd hbs
  unfold update
  rw [hne, Bool.false_and, if_neg Bool.false_ne_true]
  exact ⟨⟨done, rest, heq, hl, hsize, hcomplete, hpiled, hbound⟩, hg.blockSize, hg.leaves⟩

/-! ## Reading the leaves back -/

/-- The `i`-th block of `blockSize` bytes; the last one may be shorter. -/
def leafBlock (blockSize : Nat) (data : Str) (i : Nat) : Str :=
  (data.drop (i * blockSize)).take blockSize

/-- A block that is complete is the same in longer data. -/
theorem leafBlock_append {n i : Nat} {d e : Str} (hi : (i + 1) * n ≤ d.length) :
    leafBlock n (d ++ e) i = leafBlock n d i := by
  unfold leafBlock
  rw [Nat.succ_mul] at hi
  rw [List.drop_append_of_le_length (by omega),
    List.take_append_of_le_length (by rw [List.length_drop]; omega)]

/-- The block after whole blocks. -/
theorem leafBlock_last {n m : Nat} {d e : Str} (hd : d.length = m * n) (he : e.length ≤ n) :
    leafBlock n (d ++ e) m = e := by
  unfold leafBlock
  rw [← hd, List.drop_left, List.take_of_length_le he]

theorem leafBlock_drop {n k i : Nat} {d : Str} :
    leafBlock n (d.drop (k * n)) i = leafBlock n d (k + i) := by
  unfold leafBlock
  rw [List.drop_drop, Nat.add_mul]

/-- Blocks of one length, one after the other, are the blocks of the whole. -/
theorem leafBlock_flatten {n : Nat} {done : List Str} {rest : Str}
    (hsize : ∀ b ∈ done, b.length = n) {i : Nat} (hi : i < done.length) :
    leafBlock n (done.flatten ++ rest) i = done[i] := by
  induction done generalizing i with
  | nil => exact absurd hi (by simp)
  | cons b done ih =>
    have hb : b.length = n := hsize b (List.mem_cons_self ..)
    unfold leafBlock
    cases i with
    | zero =>
      rw [Nat.zero_mul, List.drop_zero, List.flatten_cons, List.append_assoc, ← hb, List.take_left]
      rfl
    | succ i =>
      rw [List.flatten_cons, List.append_assoc, Nat.succ_mul, Nat.add_comm, ← List.drop_drop,
        ← hb, List.drop_left, hb]
      exact ih (fun b hb => hsize b (List.mem_cons_of_mem _ hb)) (by simpa using hi)

theorem length_flatten_of_size {n : Nat} {done : List Str} (hsize : ∀ b ∈ done, b.length = n) :
    done.flatten.length = done.length * n := by
  induction done with
  | nil => simp
  | cons b done ih =>
    rw [List.flatten_cons, List.length_append, ih fun b hb => hsize b (List.mem_cons_of_mem _ hb),
      hsize b (List.mem_cons_self ..), List.length_cons, Nat.succ_mul, Nat.add_comm]

theorem Absorbs.prefix {pre : List V} {t : MerkleTree V} {data : Str}
    (ha : Absorbs h pre t data) : pre <+: t.leaves := by
  obtain ⟨done, rest, -, hl, -⟩ := ha
  exact hl ▸ List.prefix_append _ _

/-- A leaf the tree has emitted is the hash of a block of the data that was complete, and block
    sizes are then `1024 · 2^k`. -/
theorem Absorbs.leaf {pre : List V} {t : MerkleTree V} {data : Str} (ha : Absorbs h pre t data)
    {i : Nat} (hi : pre.length + i < t.leaves.length) :
    t.leaves[pre.length + i]? = some ((hasher h).hash (leafBlock t.blockSize data i)) ∧
      (i + 1) * t.blockSize ≤ data.length ∧ ∃ k, t.blockSize = (hasher h).span k := by
  obtain ⟨done, rest, rfl, hl, hsize, hcomplete, -, -⟩ := ha
  have hi' : i < done.length := by simpa [hl] using hi
  refine ⟨?_, ?_, hcomplete (List.ne_nil_of_length_pos (by omega))⟩
  · rw [hl, List.getElem?_append_right (by omega), Nat.add_sub_cancel_left, List.getElem?_map,
      List.getElem?_eq_getElem hi', leafBlock_flatten hsize hi', Option.map_some]
  · rw [List.length_append, length_flatten_of_size hsize]
    exact le_trans (Nat.mul_le_mul_right _ hi') (Nat.le_add_right _ _)

/-- With a block size of `1024 · 2^k`, every complete block has its leaf. -/
theorem Absorbs.complete {pre : List V} {t : MerkleTree V} {data : Str} (ha : Absorbs h pre t data)
    {k : Nat} (hk : t.blockSize = (hasher h).span k) {i : Nat}
    (hi : (i + 1) * t.blockSize ≤ data.length) : pre.length + i < t.leaves.length := by
  obtain ⟨done, rest, rfl, hl, hsize, -, hpiled, hbound⟩ := ha
  have hrest := hpiled.length_lt (hbound k hk)
  rw [List.length_append, length_flatten_of_size hsize] at hi
  have hlt : i < done.length := by
    have : (i + 1) * t.blockSize < (done.length + 1) * t.blockSize := by
      rw [Nat.add_mul done.length, Nat.one_mul]
      omega
    exact Nat.lt_of_succ_lt_succ (Nat.lt_of_mul_lt_mul_right this)
  simp [hl, hlt]

end MerkleTree

end Airdcpp
