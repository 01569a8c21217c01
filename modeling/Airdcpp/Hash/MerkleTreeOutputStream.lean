import Airdcpp.Core.Streams
import Airdcpp.Hash.HashStore

/-!
# `Hash/MerkleTreeOutputStream` — the leaves of a tree, as they arrive

The stream appends a hash value to the leaves for every 24 bytes written to it. A value may
arrive in pieces, which are collected in `buf`; it never holds a whole one, and that is a field
of the structure.

What the leaves are depends on the bytes only (`received_leaves`): the hash values of the
complete groups of 24 bytes. The bytes after the last complete group stay in the buffer, and
`flushBuffers` does nothing with them.
-/

namespace Airdcpp

open HashStore (BYTES)

/-- `MerkleTreeOutputStream` with the tree that it refers to; `buf` has `bufPos` bytes. -/
structure MerkleTreeOutputStream (V : Type*) where
  tree : MerkleTree V
  buf : Str
  short : buf.length < BYTES

namespace MerkleTreeOutputStream

open MerkleTree

variable {V : Type*}

theorem nil_short : ([] : Str).length < BYTES := by decide

/-- The bytes that are still missing in the buffer, or as many of them as there are. -/
def bytes (buf b : Str) : Nat := min (BYTES - buf.length) b.length

/-- The buffer with them. -/
def fill (buf b : Str) : Str := buf ++ b.take (bytes buf b)

theorem fill_short {buf b : Str} (hbuf : buf.length < BYTES) (hne : (fill buf b).length ≠ BYTES) :
    (fill buf b).length < BYTES := by
  unfold fill bytes at hne ⊢
  rw [List.length_append, List.length_take] at hne ⊢
  omega

def create (aTree : MerkleTree V) : MerkleTreeOutputStream V := ⟨aTree, [], nil_short⟩

def pushLeaf (t : MerkleTree V) (v : V) : MerkleTree V := { t with leaves := t.leaves ++ [v] }

/-- The loop of `write` over the bytes that are left; `value` reads a hash value from memory. -/
def writeFrom (value : Str → V) (s : MerkleTreeOutputStream V) (b : Str) :
    MerkleTreeOutputStream V :=
  if b.length = 0 then s
  else if s.buf.length = 0 ∧ BYTES ≤ b.length then
    writeFrom value { s with tree := pushLeaf s.tree (value (b.take BYTES)) } (b.drop BYTES)
  else if hfull : (fill s.buf b).length = BYTES then
    writeFrom value ⟨pushLeaf s.tree (value (fill s.buf b)), [], nil_short⟩
      (b.drop (bytes s.buf b))
  else
    writeFrom value ⟨s.tree, fill s.buf b, fill_short s.short hfull⟩ (b.drop (bytes s.buf b))
termination_by b.length
decreasing_by
  all_goals
    have hshort := s.short
    simp only [List.length_drop, bytes, BYTES] at *
    omega

def write (value : Str → V) (s : MerkleTreeOutputStream V) (b : Str) :
    Except Exception Nat × MerkleTreeOutputStream V :=
  (.ok b.length, writeFrom value s b)

def flushBuffers (s : MerkleTreeOutputStream V) (_aForce : Bool) :
    Except Exception Nat × MerkleTreeOutputStream V :=
  (.ok 0, s)

/-- `OutputStream`'s functions, as the stream above calls them. -/
def ops (value : Str → V) : OutputStream (MerkleTreeOutputStream V) where
  write := write value
  flushBuffers := flushBuffers

/-! ## What has arrived -/

/-- `data` has been written since the tree was `t`: hash values, and the bytes in the buffer. -/
def Holds (value : Str → V) (t : MerkleTree V) (s : MerkleTreeOutputStream V) (data : Str) :
    Prop :=
  ∃ done : List Str, data = done.flatten ++ s.buf ∧ (∀ g ∈ done, g.length = BYTES) ∧
    s.tree = { t with leaves := t.leaves ++ done.map value }

theorem holds_create (value : Str → V) (t : MerkleTree V) : Holds value t (create t) [] :=
  ⟨[], rfl, by simp, by simp [create]⟩

/-- A whole hash value more. -/
theorem Holds.push {value : Str → V} {t : MerkleTree V} {s s' : MerkleTreeOutputStream V}
    {data g : Str} (hs : Holds value t s data) (hg : (s.buf ++ g).length = BYTES)
    (hbuf : s'.buf = []) (htree' : s'.tree = pushLeaf s.tree (value (s.buf ++ g))) :
    Holds value t s' (data ++ g) := by
  obtain ⟨done, rfl, hsize, htree⟩ := hs
  refine ⟨done ++ [s.buf ++ g], by simp [hbuf], fun b hb => ?_, ?_⟩
  · rcases List.mem_append.mp hb with hb | hb
    · exact hsize b hb
    · rw [List.mem_singleton.mp hb]
      exact hg
  · simp [htree', pushLeaf, htree]

/-- **Bytes are taken in order**, whatever is in the buffer. -/
theorem writeFrom_holds {value : Str → V} {t : MerkleTree V} {s : MerkleTreeOutputStream V}
    {data : Str} (hs : Holds value t s data) (b : Str) :
    Holds value t (writeFrom value s b) (data ++ b) := by
  fun_induction writeFrom value s b generalizing data with
  | case1 s b hnil =>
    rw [List.eq_nil_of_length_eq_zero hnil, List.append_nil]
    exact hs
  | case2 s b hne hwhole ih =>
    have hbuf : s.buf = [] := List.eq_nil_of_length_eq_zero hwhole.1
    have hg : (s.buf ++ b.take BYTES).length = BYTES := by
      rw [hbuf, List.nil_append, List.length_take]
      exact min_eq_left hwhole.2
    have hrest := ih (hs.push hg hbuf (by simp [hbuf]))
    rwa [List.append_assoc, List.take_append_drop] at hrest
  | case3 s b hne hwhole hfull ih =>
    have hrest := ih (hs.push hfull rfl rfl)
    rwa [List.append_assoc, List.take_append_drop] at hrest
  | case4 s b hne hwhole hfull ih =>
    obtain ⟨done, rfl, hsize, htree⟩ := hs
    have hkept : Holds value t ⟨s.tree, fill s.buf b, fill_short s.short hfull⟩
        (done.flatten ++ s.buf ++ b.take (bytes s.buf b)) :=
      ⟨done, List.append_assoc _ _ _, hsize, htree⟩
    have hrest := ih hkept
    rwa [List.append_assoc, List.take_append_drop] at hrest

/-- The stream after some `write` calls. -/
def written (value : Str → V) (s : MerkleTreeOutputStream V) (chunks : List Str) :
    MerkleTreeOutputStream V :=
  chunks.foldl (writeFrom value) s

theorem written_holds {value : Str → V} {t : MerkleTree V} {s : MerkleTreeOutputStream V}
    {data : Str} (hs : Holds value t s data) (chunks : List Str) :
    Holds value t (written value s chunks) (data ++ chunks.flatten) := by
  unfold written
  induction chunks generalizing data s with
  | nil => simpa using hs
  | cons b chunks ih =>
    rw [List.foldl_cons, List.flatten_cons, ← List.append_assoc]
    exact ih (writeFrom_holds hs b)

/-- The hash values in the bytes, one after the other. -/
def sentLeaves (value : Str → V) (data : Str) : List V :=
  (List.range (data.length / BYTES)).map fun i => value (leafBlock BYTES data i)

/-- **The leaves are the complete hash values**, however the bytes are cut. -/
theorem written_leaves (value : Str → V) (t : MerkleTree V) (chunks : List Str) :
    (written value (create t) chunks).tree =
      { t with leaves := t.leaves ++ sentLeaves value chunks.flatten } := by
  obtain ⟨done, hflat, hsize, htree⟩ := written_holds (holds_create value t) chunks
  rw [List.nil_append] at hflat
  have hshort := (written value (create t) chunks).short
  have hlen : chunks.flatten.length / BYTES = done.length := by
    rw [hflat, List.length_append, length_flatten_of_size hsize]
    exact Nat.div_eq_of_lt_le (Nat.le_add_right _ _) (by rw [Nat.succ_mul]; omega)
  have hsent : sentLeaves value chunks.flatten = done.map value := by
    unfold sentLeaves
    rw [hlen]
    apply List.ext_getElem
    · simp
    · intro i h₁ _
      rw [List.length_map, List.length_range] at h₁
      rw [List.getElem_map, List.getElem_map, List.getElem_range, hflat,
        leafBlock_flatten hsize h₁]
  rw [htree, hsent]

end MerkleTreeOutputStream

end Airdcpp
