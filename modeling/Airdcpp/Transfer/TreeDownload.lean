import Airdcpp.Hash.MerkleTreeOutputStream
import Airdcpp.Hash.TreeStorage
import Airdcpp.Lib.Loop

/-!
# `Transfer/TreeDownload` — a hash tree from a peer

A `Download` of `TYPE_TREE`: the peer announces how many bytes it will send, sends them, and
`endData` decides whether they are the leaves of the tree whose root is the file's TTH. The
block size is not sent. It is searched, by doubling 1024 until the leaves cover the file.

The search relies on there being a leaf, and the root on there being no more leaves than it is
made of: a peer that announces nothing makes `endData` double for ever, and leaves behind the
last one that is needed are never looked at. `Covered` is the exact condition under which none
of this happens.

An overflow, which C++ leaves undefined, is `none` here, as it is in `Hash/HashStore`.
-/

namespace Airdcpp

open Lib
open HashStore (int64? int64?_eq_some int64?_of Int64 Doubles getHash64 getHash64_cast
  widths_of_getHash64)

/-- A `Download` of a tree; the tree itself is the one that its stream refers to. -/
structure TreeDownload (V : Type*) where
  tth : V
  segmentSize : Int
  pos : Int
  output : LimitedOutputStream (MerkleTreeOutputStream V)

inductive TreeOutcome (V : Type*)
  | running (d : TreeDownload V)
  | failed (e : Exception)
  /-- "Full tree does not match TTH root" -/
  | invalidTree
  /-- `setTreeValid(true)` -/
  | completed (tt : MerkleTree V)
  /-- `endData` does not return, or what it does is undefined. -/
  | stuck

namespace TreeDownload

open MerkleTree MerkleTreeOutputStream

variable {V : Type*}

/-! ## `DownloadManager` -/

/-- One round of `while(bl * (int64_t)leaves.size() < fileSize) bl *= 2`. -/
def blockSizeRound (leaves : Nat) (fileSize bl : Int) : Option (Int ⊕ Int) := do
  let covered ← int64? (bl * leaves)
  if covered < fileSize then
    let next ← int64? (bl * 2)
    return .inr next
  else return .inl bl

/-- The loop; a number other than zero cannot be doubled 64 times. -/
def searchBlockSize (leaves : Nat) (fileSize : Int) : Option Int :=
  Loop.run (blockSizeRound leaves fileSize) 64 BASE_BLOCK_SIZE

section Model

variable (h : Hasher V)

/-- `setBlockSize(bl)` and `calcRoot()`, with the block size that the search finds. -/
def setSizes (tt : MerkleTree V) : Option (MerkleTree V) :=
  (searchBlockSize tt.leaves.length tt.fileSize).bind fun bl =>
    (getHash64 h tt.leaves bl 0 tt.fileSize).map fun root =>
      { tt with blockSize := bl.toNat, root := root }

variable [DecidableEq V] (value : Str → V)

def endData (d : TreeDownload V) : TreeOutcome V :=
  let output := (d.output.flushBuffers (ops value) false).2
  (setSizes h output.s.tree).elim .stuck fun tt =>
    if d.tth ≠ tt.root then .invalidTree else .completed tt

def invalidSize : Exception := { errorString := str "Invalid size" }

/-- The tree of a new download: `MerkleTree()`, and the size of the file. -/
def newTree [Inhabited V] (fileSize : Nat) : MerkleTree V :=
  { ofBlockSize BASE_BLOCK_SIZE with fileSize := fileSize }

/-- `startData` for a file with `fileSize` bytes and the root `tth`, when the peer announces
    `bytes`. -/
def startData [Inhabited V] (tth : V) (fileSize : Nat) (bytes : Int) : TreeOutcome V :=
  if bytes < 0 then .failed invalidSize
  else
    let d : TreeDownload V :=
      { tth := tth, segmentSize := bytes, pos := 0
        output := { s := create (newTree fileSize), maxBytes := bytes.toNat } }
    if d.pos = d.segmentSize then endData h value d else .running d

/-- `on(Data)` -/
def onData (d : TreeDownload V) (aData : Str) : TreeOutcome V :=
  match d.output.write (ops value) aData with
  | (.error e, _) => .failed e
  | (.ok n, output) =>
    let d := { d with output := output, pos := d.pos + n }
    if output.eof then endData h value d else .running d

/-- Data arrives until the download ends. -/
def run : TreeOutcome V → List Str → TreeOutcome V
  | .running d, aData :: rest => run (onData h value d aData) rest
  | o, _ => o

end Model

/-! ## The search for the block size -/

/-- `1024 · 2^k` is the first block size with which `n` leaves cover the file. -/
structure FirstCovering (n fileSize k : Nat) : Prop where
  covers : fileSize ≤ BASE_BLOCK_SIZE * 2 ^ k * n
  small : BASE_BLOCK_SIZE * 2 ^ k * n < 2 ^ 63
  first : ∀ j < k, BASE_BLOCK_SIZE * 2 ^ j * n < fileSize

section Search

variable {n fileSize k : Nat}

theorem int64?_natCast {m : Nat} (hm : m < 2 ^ 63) : int64? (m : Int) = some (m : Int) :=
  int64?_of ⟨by omega, by exact_mod_cast hm⟩

theorem blockSizeRound_of_lt {bl : Nat} (hlt : bl * n < fileSize) (hsize : fileSize < 2 ^ 63)
    (hnext : bl * 2 < 2 ^ 63) :
    Loop.Next (blockSizeRound n fileSize) (bl : Int) ((bl * 2 : Nat) : Int) := by
  unfold Loop.Next blockSizeRound
  rw [← Nat.cast_mul, int64?_natCast (hlt.trans hsize)]
  simp only [Option.bind_eq_bind, Option.bind_some]
  rw [if_pos (by exact_mod_cast hlt)]
  rw [show (bl : Int) * 2 = ((bl * 2 : Nat) : Int) by push_cast; rfl, int64?_natCast hnext]
  rfl

theorem blockSizeRound_of_le {bl : Nat} (hle : fileSize ≤ bl * n) (hsmall : bl * n < 2 ^ 63) :
    blockSizeRound n fileSize (bl : Int) = some (.inl (bl : Int)) := by
  unfold blockSizeRound
  rw [← Nat.cast_mul, int64?_natCast hsmall]
  simp only [Option.bind_eq_bind, Option.bind_some]
  rw [if_neg (by exact_mod_cast not_lt.mpr hle)]
  rfl

/-- What a round does, read off its result. -/
theorem blockSizeRound_cases {bl : Nat} {r : Int ⊕ Int}
    (hr : blockSizeRound n fileSize (bl : Int) = some r) :
    bl * n < 2 ^ 63 ∧ (bl * n < fileSize ∧ r = .inr ((bl * 2 : Nat) : Int) ∨
      fileSize ≤ bl * n ∧ r = .inl (bl : Int)) := by
  unfold blockSizeRound at hr
  simp only [Option.bind_eq_bind, Option.bind_eq_some_iff] at hr
  obtain ⟨covered, hcovered, hr⟩ := hr
  obtain ⟨hsmall, rfl⟩ := int64?_eq_some.mp hcovered
  rw [← Nat.cast_mul] at hsmall hr
  refine ⟨by exact_mod_cast hsmall.2, ?_⟩
  by_cases hlt : ((bl * n : Nat) : Int) < fileSize
  · rw [if_pos hlt] at hr
    simp only [Option.bind_eq_some_iff] at hr
    obtain ⟨next, hnext, hr⟩ := hr
    obtain ⟨-, rfl⟩ := int64?_eq_some.mp hnext
    refine Or.inl ⟨by exact_mod_cast hlt, ?_⟩
    rw [← Option.some.inj hr, Nat.cast_mul]
    rfl
  · rw [if_neg hlt] at hr
    exact Or.inr ⟨by exact_mod_cast not_lt.mp hlt, (Option.some.inj hr).symm⟩

/-- Up to the `k`-th doubling every round goes on. -/
theorem run_blockSizeRound (hpos : 0 < fileSize) (hsize : fileSize < 2 ^ 63)
    (hk : FirstCovering n fileSize k) {d : Nat} (hd : d ≤ k) :
    Loop.run (blockSizeRound n fileSize) (d + 1)
      ((BASE_BLOCK_SIZE * 2 ^ (k - d) : Nat) : Int) =
        some ((BASE_BLOCK_SIZE * 2 ^ k : Nat) : Int) := by
  obtain ⟨hcovers, hsmall, hfirst⟩ := hk
  have hn : 0 < n := by
    apply Nat.pos_of_ne_zero
    rintro rfl
    omega
  induction d with
  | zero => exact Loop.run_succ_of_return (blockSizeRound_of_le hcovers hsmall)
  | succ d ih =>
    have hdouble : BASE_BLOCK_SIZE * 2 ^ (k - (d + 1)) * 2 = BASE_BLOCK_SIZE * 2 ^ (k - d) := by
      rw [Nat.mul_assoc, ← pow_succ, show k - (d + 1) + 1 = k - d by omega]
    have hnext := blockSizeRound_of_lt (hfirst (k - (d + 1)) (by omega)) hsize (by
      calc BASE_BLOCK_SIZE * 2 ^ (k - (d + 1)) * 2 = BASE_BLOCK_SIZE * 2 ^ (k - d) := hdouble
        _ ≤ BASE_BLOCK_SIZE * 2 ^ k :=
          Nat.mul_le_mul_left _ (Nat.pow_le_pow_right (by omega) (Nat.sub_le k d))
        _ ≤ BASE_BLOCK_SIZE * 2 ^ k * n := Nat.le_mul_of_pos_right _ hn
        _ < 2 ^ 63 := hsmall)
    rw [Loop.run_succ_of_next hnext, hdouble]
    exact ih (by omega)

/-- **The search ends** exactly when some block size covers the file, and with the first. -/
theorem returns_iff (hpos : 0 < fileSize) (hsize : fileSize < 2 ^ 63) {bl : Int} :
    Loop.Returns (blockSizeRound n fileSize) BASE_BLOCK_SIZE bl ↔
      ∃ k, bl = ((BASE_BLOCK_SIZE * 2 ^ k : Nat) : Int) ∧ FirstCovering n fileSize k := by
  constructor
  · intro hr
    refine hr.induct (P := fun bl => ∃ j, bl = ((BASE_BLOCK_SIZE * 2 ^ j : Nat) : Int) ∧
      ∀ i < j, BASE_BLOCK_SIZE * 2 ^ i * n < fileSize)
      (Q := fun bl => ∃ k, bl = ((BASE_BLOCK_SIZE * 2 ^ k : Nat) : Int) ∧
        FirstCovering n fileSize k) ?_ ?_ ⟨0, by simp, by simp⟩
    · rintro s t ⟨j, rfl, hfirst⟩ hnext
      obtain ⟨-, ⟨hlt, heq⟩ | ⟨-, heq⟩⟩ := blockSizeRound_cases hnext
      · refine ⟨j + 1, ?_, fun i hi => ?_⟩
        · rw [Sum.inr.inj heq, pow_succ, Nat.mul_assoc]
        · rcases Nat.lt_succ_iff_lt_or_eq.mp hi with hi | rfl
          · exact hfirst i hi
          · exact hlt
      · cases heq
    · rintro s x ⟨j, rfl, hfirst⟩ hreturn
      obtain ⟨hsmall, ⟨-, heq⟩ | ⟨hle, heq⟩⟩ := blockSizeRound_cases hreturn
      · cases heq
      · exact ⟨j, Sum.inl.inj heq, hle, hsmall, hfirst⟩
  · rintro ⟨k, rfl, hk⟩
    have hrun := run_blockSizeRound hpos hsize hk le_rfl
    rw [Nat.sub_self, pow_zero, Nat.mul_one] at hrun
    exact ⟨k + 1, hrun⟩

/-- No block size can be doubled as often as that. -/
theorem FirstCovering.lt (hpos : 0 < fileSize) (hk : FirstCovering n fileSize k) : k < 53 := by
  obtain ⟨hcovers, hsmall, -⟩ := hk
  have hn : 0 < n := by
    apply Nat.pos_of_ne_zero
    rintro rfl
    omega
  have hlt : BASE_BLOCK_SIZE * 2 ^ k < BASE_BLOCK_SIZE * 2 ^ 53 :=
    lt_of_le_of_lt (Nat.le_mul_of_pos_right _ hn) (hsmall.trans_eq (by decide))
  exact (Nat.pow_lt_pow_iff_right Nat.one_lt_two).mp (Nat.lt_of_mul_lt_mul_left hlt)

theorem searchBlockSize_eq_some (hpos : 0 < fileSize) (hsize : fileSize < 2 ^ 63) {bl : Int} :
    searchBlockSize n fileSize = some bl ↔
      Loop.Returns (blockSizeRound n fileSize) BASE_BLOCK_SIZE bl := by
  constructor
  · intro h
    exact ⟨64, h⟩
  · intro h
    obtain ⟨k, rfl, hk⟩ := (returns_iff hpos hsize).mp h
    have hrun := run_blockSizeRound hpos hsize hk le_rfl
    have hlt := hk.lt hpos
    rw [Nat.sub_self, pow_zero, Nat.mul_one] at hrun
    exact Loop.run_mono hrun (by omega)

end Search

/-! ## What the root says about the leaves -/

/-- The leaves that the root is made of are the file's. -/
def ReadsRight (h : Hasher V) (file : Str) (leaves : List V) (k : Nat) : Prop :=
  ∀ i < calcBlocks file.length (BASE_BLOCK_SIZE * 2 ^ k),
    leaves[i % 2 ^ 32]? = some ((hasher h).hash (leafBlock (BASE_BLOCK_SIZE * 2 ^ k) file i))

/-- The widths that `getHash` tries. -/
theorem doubles_iff {k : Nat} {size : Nat} (hk : k < 53) :
    Doubles ((BASE_BLOCK_SIZE * 2 ^ k : Nat) : Int) size ↔ size ≤ 2 ^ 62 := by
  have hwidth : ∀ m, ((BASE_BLOCK_SIZE * 2 ^ k : Nat) : Int) * 2 ^ m =
      ((2 ^ (10 + k + m) : Nat) : Int) := by
    intro m
    rw [show BASE_BLOCK_SIZE = 2 ^ 10 from rfl]
    push_cast
    ring
  constructor
  · rintro ⟨m, hm, hsmall⟩
    rw [hwidth] at hm hsmall
    have hlt : 10 + k + m < 63 :=
      (Nat.pow_lt_pow_iff_right Nat.one_lt_two).mp (by exact_mod_cast hsmall)
    calc size ≤ 2 ^ (10 + k + m) := by exact_mod_cast hm
      _ ≤ 2 ^ 62 := Nat.pow_le_pow_right (by omega) (by omega)
  · intro hle
    refine ⟨52 - k, ?_, ?_⟩
    · rw [hwidth, show 10 + k + (52 - k) = 62 by omega]
      exact_mod_cast hle
    · rw [hwidth, show 10 + k + (52 - k) = 62 by omega]
      norm_num

section Root

variable [Inhabited V] {h : Hasher V} {file : Str} {leaves : List V} {k : Nat}

/-- The tree whose root `calcRoot` computes. -/
def rootTree (leaves : List V) (k : Nat) : MerkleTree V :=
  { ofBlockSize (BASE_BLOCK_SIZE * 2 ^ k) with leaves := leaves }

/-- `getHash` stays within the leaves, and within `int64_t` unless the file is too large. -/
theorem getHash64_iff (hpos : 0 < file.length) (hsize : file.length < 2 ^ 63)
    (hk : FirstCovering leaves.length file.length k) {root : V} :
    getHash64 h leaves ((BASE_BLOCK_SIZE * 2 ^ k : Nat) : Int) 0 file.length = some root ↔
      (file.length ≤ BASE_BLOCK_SIZE * 2 ^ k ∨ file.length ≤ 2 ^ 62) ∧
        root = getHash h (rootTree leaves k) 0 file.length := by
  have hbpos : 0 < BASE_BLOCK_SIZE * 2 ^ k := Nat.mul_pos (by decide) (by positivity)
  have hlt := hk.lt hpos
  have hcast : file.length ≤ BASE_BLOCK_SIZE * 2 ^ k ∨ file.length ≤ 2 ^ 62 →
      getHash64 h leaves ((BASE_BLOCK_SIZE * 2 ^ k : Nat) : Int) 0 file.length =
        some (getHash h (rootTree leaves k) 0 file.length) := by
    intro hwidths
    have hcovers := hk.covers
    show getHash64 h (rootTree leaves k).leaves (rootTree leaves k).blockSize ((0 : Nat) : Int)
      file.length = _
    refine getHash64_cast hbpos hpos ?_ (by omega) ?_
    · rw [Nat.zero_add, Nat.mul_comm]
      exact hcovers
    · intro hbig
      have hnot : ¬ file.length ≤ BASE_BLOCK_SIZE * 2 ^ k := not_le.mpr hbig
      exact (doubles_iff hlt).mpr (hwidths.resolve_left hnot)
  constructor
  · intro hroot
    have hwidths : file.length ≤ BASE_BLOCK_SIZE * 2 ^ k ∨ file.length ≤ 2 ^ 62 := by
      rcases widths_of_getHash64 (by exact_mod_cast hbpos.ne') hroot with hle | ⟨-, hd⟩
      · exact Or.inl (by exact_mod_cast hle)
      · exact Or.inr ((doubles_iff hlt).mp hd)
    rw [hcast hwidths] at hroot
    exact ⟨hwidths, (Option.some.inj hroot).symm⟩
  · rintro ⟨hwidths, rfl⟩
    exact hcast hwidths

/-- **The root is the file's** exactly when the leaves it is made of are. -/
theorem root_iff_readsRight (hinj : (hasher h).Injective) (hpos : 0 < file.length)
    (hcovers : file.length ≤ BASE_BLOCK_SIZE * 2 ^ k * leaves.length) :
    getHash h (rootTree leaves k) 0 file.length = (hasher h).hash file ↔
      ReadsRight h file leaves k := by
  have hb : (rootTree leaves k).blockSize = (hasher h).span k := rfl
  have hbpos : 0 < BASE_BLOCK_SIZE * 2 ^ k := Nat.mul_pos (by decide) (by positivity)
  have hrange : Covers h k file 0 file.length :=
    ⟨dvd_zero _, hpos, by omega, Or.inl (Nat.zero_add _)⟩
  have hpiece : piece file 0 file.length = file := by
    unfold piece
    rw [List.drop_zero, List.take_length]
  have hleafAt : ∀ i < calcBlocks file.length (BASE_BLOCK_SIZE * 2 ^ k), ∀ v,
      leaves[i % 2 ^ 32]? = some v ↔ leafAt (rootTree leaves k) i = v := by
    intro i hi v
    have hlt : i % 2 ^ 32 < leaves.length := by
      apply lt_of_le_of_lt (Nat.mod_le _ _)
      apply Nat.lt_of_mul_lt_mul_right (a := BASE_BLOCK_SIZE * 2 ^ k)
      rw [Nat.mul_comm leaves.length]
      exact lt_of_lt_of_le ((lt_calcBlocks_iff hbpos hpos).mp hi) hcovers
    rw [List.getElem?_eq_getElem hlt, Option.some.injEq]
    unfold leafAt
    rw [show (rootTree leaves k).leaves = leaves from rfl, List.getD_eq_getElem _ _ hlt]
  constructor
  · intro hroot i hi
    rw [hleafAt i hi]
    refine leafAt_of_getHash hinj hb hrange (hpiece.symm ▸ hroot) (Nat.zero_le _) ?_
    rw [Nat.zero_add]
    exact (lt_calcBlocks_iff hbpos hpos).mp hi
  · intro hright
    rw [getHash_eq hb hrange, hpiece]
    intro i _ hi
    rw [Nat.zero_add] at hi
    have hlt := (lt_calcBlocks_iff hbpos hpos).mpr hi
    exact (hleafAt i hlt _).mp (hright i hlt)

end Root

/-! ## Accepting a tree -/

/-- What is to happen to the leaves that were sent: the search ends with a block size of
    `1024 · 2^k`, the root is made of leaves there are, and if it is the file's, the leaves are
    the file's leaves and no others. -/
def Decides [Inhabited V] (h : Hasher V) (file : Str) (leaves : List V) : Prop :=
  ∃ k root,
    Loop.Returns (blockSizeRound leaves.length file.length) BASE_BLOCK_SIZE
      ((BASE_BLOCK_SIZE * 2 ^ k : Nat) : Int) ∧
    getHash64 h leaves ((BASE_BLOCK_SIZE * 2 ^ k : Nat) : Int) 0 file.length = some root ∧
    (root = (hasher h).hash file → leaves = leafHashes h (BASE_BLOCK_SIZE * 2 ^ k) file)

/-- There are enough leaves, and not too many for `int64_t`; and either one of those that the
    root is made of is wrong, or there is none that it is not made of. -/
structure Covered (h : Hasher V) (file : Str) (leaves : List V) (k : Nat) : Prop where
  first : FirstCovering leaves.length file.length k
  widths : file.length ≤ BASE_BLOCK_SIZE * 2 ^ k ∨ file.length ≤ 2 ^ 62
  others : ¬ ReadsRight h file leaves k ∨
    leaves.length = calcBlocks file.length (BASE_BLOCK_SIZE * 2 ^ k) ∧
      ∀ i, 2 ^ 32 ≤ i → i < leaves.length →
        leaves[i]? = some ((hasher h).hash (leafBlock (BASE_BLOCK_SIZE * 2 ^ k) file i))

/-- The leaves are the file's when those that are read are, and there are no others. -/
theorem leafHashes_iff {h : Hasher V} {file : Str} {leaves : List V} {k : Nat}
    (hright : ReadsRight h file leaves k) :
    leaves = leafHashes h (BASE_BLOCK_SIZE * 2 ^ k) file ↔
      leaves.length = calcBlocks file.length (BASE_BLOCK_SIZE * 2 ^ k) ∧
        ∀ i, 2 ^ 32 ≤ i → i < leaves.length →
          leaves[i]? = some ((hasher h).hash (leafBlock (BASE_BLOCK_SIZE * 2 ^ k) file i)) := by
  constructor
  · intro heq
    have hlen : leaves.length = calcBlocks file.length (BASE_BLOCK_SIZE * 2 ^ k) := by
      rw [heq, length_leafHashes]
    refine ⟨hlen, fun i _ hi => ?_⟩
    rw [hlen] at hi
    rw [heq]
    exact getElem?_leafHashes h hi
  · rintro ⟨hlen, hlarge⟩
    apply List.ext_getElem?
    intro i
    by_cases hi : i < leaves.length
    · rw [getElem?_leafHashes h (hlen ▸ hi)]
      rcases Nat.lt_or_ge i (2 ^ 32) with hsmall | hge
      · have hleaf := hright i (hlen ▸ hi)
        rwa [Nat.mod_eq_of_lt hsmall] at hleaf
      · exact hlarge i hge hi
    · rw [List.getElem?_eq_none (not_lt.mp hi),
        List.getElem?_eq_none (by rw [length_leafHashes, ← hlen]; exact not_lt.mp hi)]

theorem decides_iff [Inhabited V] {h : Hasher V} (hinj : (hasher h).Injective) {file : Str}
    (hpos : 0 < file.length) (hsize : file.length < 2 ^ 63) {leaves : List V} :
    Decides h file leaves ↔ ∃ k, Covered h file leaves k := by
  constructor
  · rintro ⟨k, root, hsearch, hroot, haccept⟩
    obtain ⟨k', hk', hfirst⟩ := (returns_iff hpos hsize).mp hsearch
    obtain rfl : k = k' := by
      have heq : BASE_BLOCK_SIZE * 2 ^ k = BASE_BLOCK_SIZE * 2 ^ k' := by exact_mod_cast hk'
      exact (hasher h).span_inj heq
    obtain ⟨hwidths, rfl⟩ := (getHash64_iff hpos hsize hfirst).mp hroot
    refine ⟨k, hfirst, hwidths, not_or_of_imp fun hright => ?_⟩
    exact (leafHashes_iff hright).mp
      (haccept ((root_iff_readsRight hinj hpos hfirst.covers).mpr hright))
  · rintro ⟨k, hfirst, hwidths, hothers⟩
    refine ⟨k, _, (returns_iff hpos hsize).mpr ⟨k, rfl, hfirst⟩,
      (getHash64_iff hpos hsize hfirst).mpr ⟨hwidths, rfl⟩, fun hroot => ?_⟩
    have hright := (root_iff_readsRight hinj hpos hfirst.covers).mp hroot
    exact (leafHashes_iff hright).mpr (hothers.resolve_left (not_not.mpr hright))

/-! ## The download -/

theorem flatten_pos {chunks : List Str} (hchunks : chunks ≠ []) (hne : ∀ c ∈ chunks, c ≠ []) :
    0 < chunks.flatten.length := by
  obtain ⟨x, xs, rfl⟩ := List.exists_cons_of_ne_nil hchunks
  have hx := List.length_pos_of_ne_nil (hne x (by simp))
  rw [List.flatten_cons, List.length_append]
  omega

section Run

variable [DecidableEq V] {h : Hasher V} {value : Str → V}

theorem run_nil (o : TreeOutcome V) : run h value o [] = o := by
  cases o <;> rfl

/-- Whatever pieces the announced bytes arrive in, `endData` is called after the last one. -/
theorem run_received {d : TreeDownload V} {chunks : List Str} (hchunks : chunks ≠ [])
    (hne : ∀ c ∈ chunks, c ≠ []) (hmax : d.output.maxBytes = chunks.flatten.length) :
    run h value (.running d) chunks = endData h value { d with
      output := { s := written value d.output.s chunks, maxBytes := 0 }
      pos := d.pos + chunks.flatten.length } := by
  induction chunks generalizing d with
  | nil => exact absurd rfl hchunks
  | cons c rest ih =>
    rw [List.flatten_cons, List.length_append] at hmax ⊢
    have hwrite : d.output.write (ops value) c =
        (.ok c.length, { s := writeFrom value d.output.s c, maxBytes := rest.flatten.length }) := by
      rw [LimitedOutputStream.write_of_le (ops value) (by omega), hmax, Nat.add_sub_cancel_left]
      rfl
    rw [run, onData, hwrite]
    simp only [LimitedOutputStream.eof, beq_iff_eq]
    by_cases hrest : rest = []
    · subst hrest
      rw [if_pos (by simp), run_nil]
      simp [written]
    · have hne' : ∀ c ∈ rest, c ≠ [] := fun c hc => hne c (List.mem_cons_of_mem _ hc)
      rw [if_neg (flatten_pos hrest hne').ne', ih hrest hne' rfl]
      simp only [written, List.foldl_cons, Nat.cast_add, add_assoc]

/-- The download of a tree from a peer that sends what it announced. -/
theorem run_startData [Inhabited V] {tth : V} {fileSize : Nat} {chunks : List Str}
    (hne : ∀ c ∈ chunks, c ≠ []) :
    ∃ d : TreeDownload V, d.tth = tth ∧
      d.output.s.tree = { newTree fileSize with leaves := sentLeaves value chunks.flatten } ∧
      run h value (startData h value tth fileSize chunks.flatten.length) chunks =
        endData h value d := by
  have htree := written_leaves value (newTree fileSize) chunks
  rw [show (newTree fileSize : MerkleTree V).leaves = [] from rfl, List.nil_append] at htree
  unfold startData
  rw [if_neg (by omega)]
  dsimp only
  by_cases hchunks : chunks = []
  · subst hchunks
    rw [if_pos (by simp), run_nil]
    exact ⟨_, rfl, htree, rfl⟩
  · have hpos := flatten_pos hchunks hne
    rw [if_neg (by omega), run_received hchunks hne (Int.toNat_natCast _)]
    exact ⟨_, rfl, htree, rfl⟩

end Run

/-- The download ends, and a tree that is accepted has the file's leaves and no others. -/
structure Safe (h : Hasher V) (file : Str) (o : TreeOutcome V) : Prop where
  ends : o ≠ .stuck
  leaves : ∀ tt, o = .completed tt → ∃ k, tt.blockSize = BASE_BLOCK_SIZE * 2 ^ k ∧
    tt.leaves = leafHashes h tt.blockSize file

/-- The sizes and the root of the leaves that were sent, for the file's size. -/
theorem decides_iff_setSizes [Inhabited V] {h : Hasher V} {file : Str} (hpos : 0 < file.length)
    (hsize : file.length < 2 ^ 63) {tt : MerkleTree V} (hfile : tt.fileSize = file.length) :
    Decides h file tt.leaves ↔ ∃ tt', setSizes h tt = some tt' ∧
      (tt'.root = (hasher h).hash file → ∃ k, tt'.blockSize = BASE_BLOCK_SIZE * 2 ^ k ∧
        tt'.leaves = leafHashes h tt'.blockSize file) := by
  unfold setSizes
  rw [hfile]
  constructor
  · rintro ⟨k, root, hk, hroot, haccept⟩
    rw [(searchBlockSize_eq_some hpos hsize).mpr hk, Option.bind_some, hroot, Option.map_some]
    exact ⟨_, rfl, fun heq => ⟨k, rfl, haccept heq⟩⟩
  · rintro ⟨tt', hsome, haccept⟩
    obtain ⟨bl, hsearch, hsome⟩ := Option.bind_eq_some_iff.mp hsome
    obtain ⟨root, hroot, rfl⟩ := Option.map_eq_some_iff.mp hsome
    have hreturns := (searchBlockSize_eq_some hpos hsize).mp hsearch
    obtain ⟨k, rfl, -⟩ := (returns_iff hpos hsize).mp hreturns
    refine ⟨k, root, hreturns, hroot, fun heq => ?_⟩
    obtain ⟨-, -, hleaves⟩ := haccept heq
    exact hleaves

theorem endData_safe_iff [Inhabited V] [DecidableEq V] {h : Hasher V} {value : Str → V}
    {file : Str} (hpos : 0 < file.length) (hsize : file.length < 2 ^ 63) {d : TreeDownload V}
    (htth : d.tth = (hasher h).hash file) (hfile : d.output.s.tree.fileSize = file.length) :
    Safe h file (endData h value d) ↔ Decides h file d.output.s.tree.leaves := by
  rw [decides_iff_setSizes hpos hsize hfile]
  unfold endData
  rw [show (d.output.flushBuffers (ops value) false).2 = d.output from rfl, htth]
  dsimp only
  cases setSizes h d.output.s.tree with
  | none =>
    constructor
    · intro hsafe
      exact absurd rfl hsafe.ends
    · rintro ⟨tt, hsome, -⟩
      cases hsome
  | some tt =>
    rw [Option.elim_some]
    constructor
    · intro hsafe
      refine ⟨tt, rfl, fun heq => hsafe.leaves tt ?_⟩
      rw [if_neg (not_not.mpr heq.symm)]
    · rintro ⟨tt', hsome, haccept⟩
      obtain rfl := Option.some.inj hsome
      by_cases heq : tt.root = (hasher h).hash file
      · rw [if_neg (not_not.mpr heq.symm)]
        refine ⟨nofun, fun tt' htt => ?_⟩
        cases htt
        exact haccept heq
      · rw [if_pos (Ne.symm heq)]
        exact ⟨nofun, nofun⟩

theorem run_safe_iff [Inhabited V] [DecidableEq V] {h : Hasher V} {value : Str → V} {file : Str}
    (hpos : 0 < file.length) (hsize : file.length < 2 ^ 63) {chunks : List Str}
    (hne : ∀ c ∈ chunks, c ≠ []) :
    Safe h file (run h value
        (startData h value ((hasher h).hash file) file.length chunks.flatten.length) chunks) ↔
      Decides h file (sentLeaves value chunks.flatten) := by
  obtain ⟨d, htth, htree, hrun⟩ :=
    @run_startData V _ h value _ ((hasher h).hash file) file.length chunks hne
  rw [hrun, endData_safe_iff hpos hsize htth (by rw [htree]; rfl), htree]

/-! ## Any bytes -/

/-- **A tree from a peer**, whatever it sends and however the bytes are cut: the search ends, the
    root is made of leaves there are, and what is accepted is the file's leaves and no others,
    exactly when the leaves cover the file and there are none that the root does not show. -/
theorem written_decides_iff [Inhabited V] {h : Hasher V} (hinj : (hasher h).Injective) {file : Str}
    (hpos : 0 < file.length) (hsize : file.length < 2 ^ 63) (value : Str → V)
    (chunks : List Str) :
    Decides h file (written value (create (newTree file.length)) chunks).tree.leaves ↔
      ∃ k, Covered h file (sentLeaves value chunks.flatten) k := by
  rw [written_leaves]
  exact decides_iff hinj hpos hsize

/-- One leaf in two pieces, for a file of 23 bytes. -/
theorem written_decides_iff_piece :
    Decides textHasher (List.replicate 23 7) (written id (create (newTree 23))
        [[0], List.replicate 23 7]).tree.leaves ↔
      ∃ k, Covered textHasher (List.replicate 23 7)
        (sentLeaves id [[0], List.replicate 23 7].flatten) k :=
  @written_decides_iff Str _ textHasher textHasher_injective (List.replicate 23 7) (by decide)
    (by decide) id [[0], List.replicate 23 7]

/-- Without leaves no block size is large enough. And a second leaf is accepted where one leaf is
    all there is. -/
theorem written_not_decides :
    ¬ Decides textHasher (List.replicate 100000 7)
        (written id (create (newTree 100000)) []).tree.leaves ∧
      ¬ Decides textHasher (List.replicate 23 7) (written id (create (newTree 23))
        [0 :: List.replicate 23 7, List.replicate 24 1]).tree.leaves := by
  constructor
  · rintro ⟨k, root, hk, -⟩
    have hlen : (List.replicate 100000 (7 : UInt8)).length = 100000 := List.length_replicate
    rw [hlen, written_leaves] at hk
    obtain ⟨k', -, hcovers, -⟩ := (returns_iff (by omega) (by omega)).mp hk
    simp [sentLeaves, newTree, ofBlockSize] at hcovers
  · intro hdecides
    rw [decides_iff textHasher_injective (by decide) (by decide), written_leaves] at hdecides
    obtain ⟨k, ⟨-, -, hfirst⟩, -, hothers⟩ := hdecides
    obtain rfl : k = 0 := by
      by_contra hk
      exact absurd (hfirst 0 (Nat.pos_of_ne_zero hk)) (by decide)
    rcases hothers with hwrong | ⟨hlen, -⟩
    · apply hwrong
      intro i hi
      obtain rfl : i = 0 := Nat.lt_one_iff.mp hi
      have hleaf : (hasher textHasher).hash (List.replicate 23 7) = 0 :: List.replicate 23 7 :=
        (hasher textHasher).hash_leaf (by decide)
      exact congrArg some hleaf.symm
    · exact absurd hlen (by decide)

end TreeDownload

end Airdcpp
