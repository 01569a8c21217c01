import Airdcpp.Core.Streams
import Airdcpp.Hash.MerkleTree

/-!
# `Hash/MerkleCheckOutputStream` — checking data against a tree while it is written

The stream hashes everything written to it into `cur`, 1024 bytes at a time with the odd bytes
kept in `buf`, and compares the leaves of `cur` with those of the trusted tree `real`.

`write` compares what leaves there are, and a leaf exists once its block is complete. Only
`flushBuffers` turns the bytes after the last complete block into a leaf and compares that.
`write_spec` says both halves of the first sentence: a write goes through to the stream below
exactly when all complete blocks so far have the right hashes.
-/

namespace Airdcpp

open Lib

/-- `MerkleCheckOutputStream` over a stream with states `σ`; `buf` has the `bufPos` bytes that
    are not hashed yet. -/
structure MerkleCheckOutputStream (V σ : Type*) where
  s : σ
  real : MerkleTree V
  cur : MerkleTree V
  verified : Nat
  buf : Str

namespace MerkleCheckOutputStream

open MerkleTree

variable {V σ : Type*} (h : Hasher V)

def tthInconsistency : Exception :=
  { errorString := str "TTH inconsistency", errorCode := Exception.TTH_INCONSISTENCY }

/-- The constructor: the leaves in front of `start` are taken over from the tree. -/
def create [Inhabited V] (aTree : MerkleTree V) (aStream : σ) (start : Nat) :
    MerkleCheckOutputStream V σ :=
  let nBlocks := start / aTree.blockSize
  { s := aStream, real := aTree
    cur := { ofBlockSize aTree.blockSize with
      fileSize := start
      leaves := if nBlocks > aTree.leaves.length then [] else aTree.leaves.take nBlocks }
    verified := 0, buf := [] }

/-- The first part of `commitBytes`: fill up a buffer that has something in it. Returns the
    position in the data as well. -/
def fillBuffer (m : MerkleCheckOutputStream V σ) (b : Str) : MerkleCheckOutputStream V σ × Nat :=
  if m.buf.isEmpty then (m, 0)
  else
    let bytes := min (BASE_BLOCK_SIZE - m.buf.length) b.length
    let buf := m.buf ++ b.take bytes
    if buf.length = BASE_BLOCK_SIZE then ({ m with cur := update h m.cur buf, buf := [] }, bytes)
    else ({ m with buf := buf }, bytes)

/-- The second part: hash whole chunks and keep the rest. -/
def commitRest (m : MerkleCheckOutputStream V σ) (b : Str) : MerkleCheckOutputStream V σ :=
  let part := b.length - b.length % BASE_BLOCK_SIZE
  { m with
    cur := if part > 0 then update h m.cur (b.take part) else m.cur
    buf := b.drop part }

def commitBytes (m : MerkleCheckOutputStream V σ) (b : Str) : MerkleCheckOutputStream V σ :=
  let (m, pos) := fillBuffer h m b
  if pos < b.length then commitRest h m (b.drop pos) else m

/-- Compare the leaves that have not been compared before; `none` when they all agree. -/
def checkTrees [DecidableEq V] (m : MerkleCheckOutputStream V σ) :
    Option Exception × MerkleCheckOutputStream V σ :=
  if _hv : m.cur.leaves.length > m.verified then
    if m.cur.leaves.length > m.real.leaves.length ∨
        m.cur.leaves[m.verified]? ≠ m.real.leaves[m.verified]? then
      (some tthInconsistency, m)
    else checkTrees { m with verified := m.verified + 1 }
  else (none, m)
termination_by m.cur.leaves.length - m.verified

def write [DecidableEq V] (os : OutputStream σ) (m : MerkleCheckOutputStream V σ) (b : Str) :
    Except Exception Nat × MerkleCheckOutputStream V σ :=
  match checkTrees (commitBytes h m b) with
  | (some e, m) => (.error e, m)
  | (none, m) =>
    let (r, s) := os.write m.s b
    (r, { m with s := s })

/-- The bytes that have not been hashed become the last chunk, and `finalize` makes the last
    leaf of what is left. -/
def flushBuffers [Inhabited V] [DecidableEq V] (os : OutputStream σ)
    (m : MerkleCheckOutputStream V σ) (aForce : Bool) :
    Except Exception Nat × MerkleCheckOutputStream V σ :=
  let cur := if m.buf.isEmpty then m.cur else update h m.cur m.buf
  let m := { m with cur := finalize h cur, buf := [] }
  let (e, m) :=
    if m.cur.leaves.length = m.real.leaves.length then
      (if m.cur.root ≠ m.real.root then some tthInconsistency else none, m)
    else checkTrees m
  match e with
  | some e => (.error e, m)
  | none =>
    let (r, s) := os.flushBuffers m.s aForce
    (r, { m with s := s })

/-- `OutputStream`'s functions, as the stream above calls them. -/
def ops [Inhabited V] [DecidableEq V] (os : OutputStream σ) :
    OutputStream (MerkleCheckOutputStream V σ) where
  write := write h os
  flushBuffers := flushBuffers h os

/-! ## What has been hashed -/

variable {h}

/-- `data` has been written since the leaves `pre`: all of it but the buffer is hashed. -/
structure Committed (h : Hasher V) (pre : List V) (m : MerkleCheckOutputStream V σ)
    (data : Str) : Prop where
  hashed : ∃ d, data = d ++ m.buf ∧ Absorbs h pre m.cur d ∧ BASE_BLOCK_SIZE ∣ d.length
  buffered : m.buf.length < BASE_BLOCK_SIZE
  blockSize : m.cur.blockSize = m.real.blockSize

/-- Chunks are complete only within the block size: a smaller file never fills one. -/
def Fits (m : MerkleCheckOutputStream V σ) (data : Str) : Prop :=
  BASE_BLOCK_SIZE ≤ m.cur.blockSize ∨ data.length < BASE_BLOCK_SIZE

/-- Hashing more data changes nothing else. -/
structure Advances (m m' : MerkleCheckOutputStream V σ) : Prop where
  cur : Grows m.cur m'.cur
  real : m'.real = m.real
  s : m'.s = m.s
  verified : m'.verified = m.verified

theorem Advances.trans {m₁ m₂ m₃ : MerkleCheckOutputStream V σ} (h₁ : Advances m₁ m₂)
    (h₂ : Advances m₂ m₃) : Advances m₁ m₃ :=
  ⟨h₁.cur.trans h₂.cur, h₂.real.trans h₁.real, h₂.s.trans h₁.s, h₂.verified.trans h₁.verified⟩

theorem fillBuffer_committed {pre : List V} {m : MerkleCheckOutputStream V σ} {data b : Str}
    (hc : Committed h pre m data) (hfit : Fits m (data ++ b)) :
    ∃ m' pos, fillBuffer h m b = (m', pos) ∧ Committed h pre m' (data ++ b.take pos) ∧
      (pos < b.length → m'.buf = []) ∧ Advances m m' := by
  obtain ⟨⟨d, rfl, ha, hd⟩, hbuf, hbs⟩ := hc
  unfold fillBuffer
  by_cases hemp : m.buf.isEmpty
  · rw [if_pos hemp]
    exact ⟨m, 0, rfl, ⟨⟨d, by simp, ha, hd⟩, hbuf, hbs⟩, fun _ => List.isEmpty_iff.mp hemp,
      Grows.refl _, rfl, rfl, rfl⟩
  · rw [if_neg hemp]
    set bytes := min (BASE_BLOCK_SIZE - m.buf.length) b.length with hbytes
    have htake : (m.buf ++ b.take bytes).length = m.buf.length + bytes := by
      rw [List.length_append, List.length_take]; omega
    by_cases hfull : (m.buf ++ b.take bytes).length = BASE_BLOCK_SIZE
    · have hge : BASE_BLOCK_SIZE ≤ m.cur.blockSize := by
        rcases hfit with hge | hlt
        · exact hge
        · simp only [List.length_append] at hlt; omega
      obtain ⟨ha', hg⟩ := update_absorbs ha (d := m.buf ++ b.take bytes)
        (by rw [hfull]; decide) (by rw [hfull]) hge
      rw [if_pos hfull]
      refine ⟨_, bytes, rfl, ⟨⟨_, ?_, ha', ?_⟩, Nat.zero_lt_succ _, hg.blockSize.trans hbs⟩,
        fun _ => rfl, hg, rfl, rfl, rfl⟩
      · simp
      · rw [List.length_append, hfull]
        exact Nat.dvd_add hd (dvd_refl _)
    · rw [if_neg hfull]
      refine ⟨_, bytes, rfl, ⟨⟨d, by simp, ha, hd⟩, ?_, hbs⟩, fun hlt => ?_,
        Grows.refl _, rfl, rfl, rfl⟩
      · show (m.buf ++ b.take bytes).length < _
        omega
      · omega

theorem commitRest_committed {pre : List V} {m : MerkleCheckOutputStream V σ} {data b : Str}
    (hc : Committed h pre m data) (hbuf : m.buf = []) (hfit : Fits m (data ++ b)) :
    Committed h pre (commitRest h m b) (data ++ b) ∧ Advances m (commitRest h m b) := by
  obtain ⟨⟨d, rfl, ha, hd⟩, -, hbs⟩ := hc
  unfold commitRest
  dsimp only
  set part := b.length - b.length % BASE_BLOCK_SIZE with hpart
  have hmod := Nat.mod_lt b.length (show 0 < BASE_BLOCK_SIZE by decide)
  have hmodle := Nat.mod_le b.length BASE_BLOCK_SIZE
  have hdvd : BASE_BLOCK_SIZE ∣ part := Nat.dvd_sub_mod b.length
  have hdrop : (b.drop part).length < BASE_BLOCK_SIZE := by rw [List.length_drop]; omega
  have htake : (b.take part).length = part := by rw [List.length_take]; omega
  by_cases hpos : part > 0
  · have hge : BASE_BLOCK_SIZE ≤ m.cur.blockSize := by
      rcases hfit with hge | hlt
      · exact hge
      · have := Nat.le_of_dvd hpos hdvd
        simp only [List.length_append] at hlt; omega
    obtain ⟨ha', hg⟩ := update_absorbs ha (d := b.take part) (by omega) (by rwa [htake]) hge
    rw [if_pos hpos]
    refine ⟨⟨⟨d ++ b.take part, ?_, ha', ?_⟩, hdrop, hg.blockSize.trans hbs⟩, hg, rfl, rfl, rfl⟩
    · simp [hbuf]
    · rw [List.length_append, htake]
      exact Nat.dvd_add hd hdvd
  · rw [if_neg hpos]
    refine ⟨⟨⟨d, ?_, ha, hd⟩, hdrop, hbs⟩, Grows.refl _, rfl, rfl, rfl⟩
    simp [hbuf, show part = 0 by omega]

/-- **Every byte is hashed once, in order**, however the data is cut. -/
theorem commitBytes_committed {pre : List V} {m : MerkleCheckOutputStream V σ} {data b : Str}
    (hc : Committed h pre m data) (hfit : Fits m (data ++ b)) :
    Committed h pre (commitBytes h m b) (data ++ b) ∧ Advances m (commitBytes h m b) := by
  obtain ⟨m₁, pos, heq, hc₁, hnil, hadv₁⟩ := fillBuffer_committed hc hfit
  unfold commitBytes
  rw [heq]
  simp only
  by_cases hlt : pos < b.length
  · have hsplit : data ++ b = data ++ b.take pos ++ b.drop pos := by
      rw [List.append_assoc, List.take_append_drop]
    obtain ⟨hc₂, hadv₂⟩ := commitRest_committed hc₁ (hnil hlt) (b := b.drop pos)
      (by unfold Fits; rw [← hsplit, hadv₁.cur.blockSize]; exact hfit)
    rw [if_pos hlt, hsplit]
    exact ⟨hc₂, hadv₁.trans hadv₂⟩
  · rw [if_neg hlt]
    rw [List.take_of_length_le (not_lt.mp hlt)] at hc₁
    exact ⟨hc₁, hadv₁⟩

/-- The leaves of `cur`, read off the data: those before it, and one for each block that is
    complete, where blocks are `1024 · 2^k` bytes. -/
theorem Committed.leaf {pre : List V} {m : MerkleCheckOutputStream V σ} {data : Str}
    (hc : Committed h pre m data) {i : Nat} (hi : pre.length + i < m.cur.leaves.length) :
    m.cur.leaves[pre.length + i]? =
        some ((hasher h).hash (leafBlock m.real.blockSize data i)) ∧
      (i + 1) * m.real.blockSize ≤ data.length ∧
      ∃ k, m.real.blockSize = (hasher h).span k := by
  obtain ⟨⟨d, rfl, ha, -⟩, -, hbs⟩ := hc
  obtain ⟨hleaf, hle, hk⟩ := ha.leaf hi
  rw [hbs] at hleaf hle hk
  rw [hleaf, leafBlock_append hle, List.length_append]
  exact ⟨rfl, by omega, hk⟩

theorem Committed.prefix {pre : List V} {m : MerkleCheckOutputStream V σ} {data : Str}
    (hc : Committed h pre m data) : pre <+: m.cur.leaves := by
  obtain ⟨⟨d, -, ha, -⟩, -, -⟩ := hc
  exact ha.prefix

theorem Committed.complete {pre : List V} {m : MerkleCheckOutputStream V σ} {data : Str}
    (hc : Committed h pre m data) {k : Nat} (hk : m.real.blockSize = (hasher h).span k) {i : Nat}
    (hi : (i + 1) * m.real.blockSize ≤ data.length) : pre.length + i < m.cur.leaves.length := by
  obtain ⟨⟨d, rfl, ha, hd⟩, hbuf, hbs⟩ := hc
  refine ha.complete (hbs.trans hk) ?_
  rw [hbs]
  -- both are whole chunks, and the buffer is less than one
  obtain ⟨c, hc⟩ := hd
  obtain ⟨c', hc'⟩ : BASE_BLOCK_SIZE ∣ (i + 1) * m.real.blockSize := by
    rw [hk]
    exact Dvd.dvd.mul_left (dvd_mul_right _ _) _
  rw [List.length_append] at hi
  rw [hc'] at hi ⊢
  rw [hc] at hi ⊢
  have : c' < c + 1 := Nat.lt_of_mul_lt_mul_left (a := BASE_BLOCK_SIZE) (by
    rw [Nat.mul_add]; omega)
  exact Nat.mul_le_mul_left _ (by omega)

/-! ## The comparison -/

variable [DecidableEq V]

/-- The leaves compared so far are leaves there are, and agree. -/
structure Verified (m : MerkleCheckOutputStream V σ) : Prop where
  le : m.verified ≤ m.cur.leaves.length
  agree : m.cur.leaves.take m.verified <+: m.real.leaves

omit [DecidableEq V] in
theorem Verified.succ {m : MerkleCheckOutputStream V σ} (hv : Verified m)
    (hlt : m.verified < m.cur.leaves.length)
    (heq : m.cur.leaves[m.verified]? = m.real.leaves[m.verified]?) :
    Verified { m with verified := m.verified + 1 } := by
  have htake : m.cur.leaves.take m.verified = m.real.leaves.take m.verified := by
    rw [List.prefix_iff_eq_take.mp hv.agree, List.length_take, min_eq_left hlt.le]
  refine ⟨hlt, ?_⟩
  show m.cur.leaves.take (m.verified + 1) <+: m.real.leaves
  rw [List.take_add_one, htake, heq, ← List.take_add_one]
  exact List.take_prefix _ _

/-- **`checkTrees` decides whether the leaves are the first leaves of the tree.** -/
theorem checkTrees_spec {m : MerkleCheckOutputStream V σ} (hv : Verified m) :
    if m.cur.leaves <+: m.real.leaves then
      checkTrees m = (none, { m with verified := m.cur.leaves.length })
    else ∃ m', checkTrees m = (some tthInconsistency, m') := by
  rw [checkTrees]
  by_cases hlt : m.cur.leaves.length > m.verified
  · rw [dif_pos hlt]
    by_cases hbad : m.cur.leaves.length > m.real.leaves.length ∨
        m.cur.leaves[m.verified]? ≠ m.real.leaves[m.verified]?
    · rw [if_pos hbad, if_neg]
      · exact ⟨m, rfl⟩
      · intro hpre
        rcases hbad with hlen | hne
        · exact absurd hpre.length_le (by omega)
        · exact hne (by
            rw [List.prefix_iff_getElem?.mp hpre m.verified hlt, List.getElem?_eq_getElem hlt])
    · rw [if_neg hbad]
      push Not at hbad
      exact checkTrees_spec (hv.succ hlt hbad.2)
  · have hlen : m.cur.leaves.length = m.verified := by have := hv.le; omega
    have hpre := hv.agree
    rw [← hlen, List.take_length] at hpre
    rw [dif_neg hlt, if_pos hpre, hlen]
termination_by m.cur.leaves.length - m.verified

/-- Whatever it finds, what it has compared is right, and nothing else changes. -/
theorem checkTrees_keeps {m : MerkleCheckOutputStream V σ} (hv : Verified m) :
    Verified (checkTrees m).2 ∧ ∃ v, (checkTrees m).2 = { m with verified := v } := by
  fun_induction checkTrees m with
  | case1 m hlt hbad => exact ⟨hv, m.verified, rfl⟩
  | case2 m hlt hbad ih =>
    push Not at hbad
    exact ih (hv.succ hlt hbad.2)
  | case3 m hlt => exact ⟨hv, m.verified, rfl⟩

/-- **A write goes through exactly when every complete block so far has the right hash**, and
    what goes through is what was written. -/
theorem write_spec {pre : List V} {m : MerkleCheckOutputStream V σ} {data b : Str}
    (os : OutputStream σ) (hc : Committed h pre m data) (hv : Verified m)
    (hfit : Fits m (data ++ b)) :
    ∃ m', Committed h pre m' (data ++ b) ∧ Advances m m' ∧
      if m'.cur.leaves <+: m.real.leaves then
        write h os m b = ((os.write m.s b).1,
          { m' with verified := m'.cur.leaves.length, s := (os.write m.s b).2 })
      else ∃ m'', write h os m b = (.error tthInconsistency, m'') := by
  obtain ⟨hc', hadv⟩ := commitBytes_committed hc hfit
  refine ⟨commitBytes h m b, hc', hadv, ?_⟩
  have hv' : Verified (commitBytes h m b) := by
    obtain ⟨l, hl⟩ := hadv.cur.leaves
    refine ⟨?_, ?_⟩
    · rw [hadv.verified]
      exact hv.le.trans hadv.cur.leaves.length_le
    · rw [hadv.verified, hadv.real, ← hl, List.take_append_of_le_length hv.le]
      exact hv.agree
  have hspec := checkTrees_spec hv'
  rw [hadv.real] at hspec
  unfold write
  by_cases hpre : (commitBytes h m b).cur.leaves <+: m.real.leaves
  · rw [if_pos hpre] at hspec ⊢
    rw [hspec]
    simp only [hadv.s, hadv.real]
  · rw [if_neg hpre] at hspec ⊢
    obtain ⟨m', hm'⟩ := hspec
    rw [hm']
    exact ⟨m', rfl⟩

end MerkleCheckOutputStream

end Airdcpp
