import Airdcpp.Hash.HashStore
import Airdcpp.Hash.TreeRoot

/-!
# `Hash/TreeStorage` — what the hash database gives back

A record that is read back is safe exactly when the sizes in it are (`SizesOk`): the number of
leaves that the loader computes must be there, and the widths that `getHash` tries must stay below
`2 ^ 63`. Within these limits the `int64_t` functions compute what the functions of
`Hash/MerkleTree` do (`doubleBelow_cast`, `getHash_cast`), so a tree that has been hashed comes back
as it was.
-/

namespace Airdcpp

open Bytes (readInt writeInt readInt_writeInt length_writeInt)

namespace HashStore

variable {h : Hasher TTHValue}

/-! ## Arithmetic -/

def Int64 (n : Int) : Prop := -2 ^ 63 ≤ n ∧ n < 2 ^ 63

instance : DecidablePred Int64 := fun n => inferInstanceAs (Decidable (-2 ^ 63 ≤ n ∧ n < 2 ^ 63))

theorem int64?_eq_some {n m : Int} : int64? n = some m ↔ Int64 n ∧ n = m := by
  rw [int64?]
  by_cases hn : -2 ^ 63 ≤ n ∧ n < 2 ^ 63
  · rw [if_pos hn, Option.some.injEq]
    exact ⟨fun h => ⟨hn, h⟩, fun h => h.2⟩
  · rw [if_neg hn]
    constructor
    · intro hnone
      cases hnone
    · intro hboth
      exact absurd hboth.1 hn

theorem int64?_of {n : Int} (hn : Int64 n) : int64? n = some n := int64?_eq_some.mpr ⟨hn, rfl⟩

/-- The widths that are tried for a length: the first that is not too small must exist. -/
def Doubles (blockSize length : Int) : Prop :=
  ∃ m : Nat, length ≤ blockSize * 2 ^ m ∧ blockSize * 2 ^ m < 2 ^ 63

theorem doubleBelow_neg {n : Nat} {l length : Int} (hl : l < 0) (hlt : l < length) :
    doubleBelow n l length = none := by
  induction n generalizing l with
  | zero => rfl
  | succ n ih =>
    rw [doubleBelow]
    cases hd : int64? (l * 2) with
    | none => rfl
    | some d =>
      obtain ⟨-, rfl⟩ := int64?_eq_some.mp hd
      simp only [Option.bind_eq_bind, Option.bind_some]
      rw [if_pos (by omega)]
      exact ih (by omega) (by omega)

/-- The loop computes what it does without bounds, if it stays within them. -/
theorem doubleBelow_cast {n l length : Nat} (hl : 0 < l) (hlt : l < length)
    (hfuel : length ≤ l * 2 ^ n) (hd : Doubles l length) :
    doubleBelow n l length = some (MerkleTree.doubleBelow l length : Int) := by
  induction n generalizing l with
  | zero => omega
  | succ n ih =>
    obtain ⟨m, hm, hsmall⟩ := hd
    have hm0 : m ≠ 0 := by
      rintro rfl
      rw [pow_zero, mul_one] at hm
      omega
    obtain ⟨m, rfl⟩ := Nat.exists_eq_succ_of_ne_zero hm0
    have hpow : (0 : Int) < 2 ^ m := by positivity
    have hstep : (l : Int) * 2 ^ (m + 1) = l * 2 * 2 ^ m := by ring
    rw [Nat.succ_eq_add_one, hstep] at hm hsmall
    have hdouble : (l : Int) * 2 ≤ l * 2 * 2 ^ m := by nlinarith
    rw [doubleBelow, int64?_of ⟨by omega, by omega⟩, MerkleTree.doubleBelow]
    simp only [Option.bind_eq_bind, Option.bind_some]
    by_cases hmore : l * 2 < length
    · rw [if_pos (by omega), if_pos ⟨hl, hmore⟩]
      have hrest := ih (l := l * 2) (by omega) hmore (by rw [pow_succ'] at hfuel; linarith)
        ⟨m, by push_cast; exact hm, by push_cast; exact hsmall⟩
      push_cast at hrest
      exact hrest
    · rw [if_neg (by omega), if_neg (fun hc => hmore hc.2)]
      rfl

/-- It stays within them only if there is such a width. -/
theorem doubles_of_doubleBelow {n : Nat} {l length r : Int} (hl : 0 < l)
    (h : doubleBelow n l length = some r) : Doubles l length := by
  induction n generalizing l with
  | zero => cases h
  | succ n ih =>
    rw [doubleBelow] at h
    cases hd : int64? (l * 2) with
    | none =>
      rw [hd] at h
      cases h
    | some d =>
      obtain ⟨hsmall, rfl⟩ := int64?_eq_some.mp hd
      rw [hd] at h
      simp only [Option.bind_eq_bind, Option.bind_some] at h
      split at h
      · obtain ⟨m, hm, hm'⟩ := ih (by omega) h
        refine ⟨m + 1, ?_, ?_⟩ <;> rw [pow_succ', ← mul_assoc]
        · exact hm
        · exact hm'
      · refine ⟨1, ?_, ?_⟩ <;> rw [pow_one]
        · omega
        · exact hsmall.2

theorem Doubles.mono {b length length' : Int} (h : Doubles b length) (hle : length' ≤ length) :
    Doubles b length' := by
  obtain ⟨m, hm, hsmall⟩ := h
  exact ⟨m, hle.trans hm, hsmall⟩

/-! ## Roots -/

/-- `getHash` over the hash values of any hash. -/
def getHash64 {V : Type*} (h : Hasher V) (leaves : List V) (blockSize start length : Int) :
    Option V :=
  if length ≤ blockSize then leaves[((start.tdiv blockSize) % 2 ^ 32).toNat]?
  else
    match doubleBelow 64 blockSize length with
    | none => none
    | some l =>
      if _hc : 0 < l ∧ l < length then
        (getHash64 h leaves blockSize start l).bind fun a =>
          (int64? (start + l)).bind fun next =>
            (getHash64 h leaves blockSize next (length - l)).map fun b => MerkleTree.combine h a b
      else none
termination_by length.toNat
decreasing_by all_goals omega

theorem getHash_eq_getHash64 (leaves : List TTHValue) (blockSize start length : Int) :
    getHash h leaves blockSize start length = getHash64 h leaves blockSize start length := by
  fun_induction getHash h leaves blockSize start length with
  | case1 start length hle => rw [getHash64, if_pos hle]
  | case2 start length hle hl => rw [getHash64, if_neg hle, hl]
  | case3 start length hle l hl hc hleft hright =>
    rw [getHash64, if_neg hle, hl]
    simp only [dif_pos hc, hleft, hright, Option.map_eq_bind]
    rfl
  | case4 start length hle l hl hc =>
    rw [getHash64, if_neg hle, hl]
    simp only [dif_neg hc]

/-- The root that is computed within the limits is the one of `Hash/MerkleTree`. -/
theorem getHash64_cast {V : Type*} [Inhabited V] {h : Hasher V} {t : MerkleTree V}
    {start length : Nat} (hb : 0 < t.blockSize) (hpos : 0 < length)
    (hinside : start + length ≤ t.leaves.length * t.blockSize)
    (hsmall : start + length < 2 ^ 63) (hd : t.blockSize < length → Doubles t.blockSize length) :
    getHash64 h t.leaves t.blockSize start length = some (MerkleTree.getHash h t start length) := by
  fun_induction MerkleTree.getHash h t start length with
  | case1 start length hc =>
    have hle : (length : Int) ≤ t.blockSize := by omega
    have hdiv : start / t.blockSize < t.leaves.length := by
      rw [Nat.div_lt_iff_lt_mul hb]
      omega
    have hidx : (((start : Int).tdiv t.blockSize) % 2 ^ 32).toNat =
        start / t.blockSize % 2 ^ 32 := by
      rw [Int.tdiv_eq_ediv_of_nonneg (Int.natCast_nonneg _)]
      norm_cast
    have hlt : start / t.blockSize % 2 ^ 32 < t.leaves.length :=
      Nat.lt_of_le_of_lt (Nat.mod_le _ _) hdiv
    rw [getHash64, if_pos hle, hidx, List.getElem?_eq_getElem hlt, List.getD_eq_getElem _ _ hlt]
  | case2 start length hc l hleft hright =>
    have hlt : t.blockSize < length := by omega
    have hbounds := MerkleTree.doubleBelow_bounds hb hlt
    have hdoubles := hd hlt
    have hfuel : length ≤ t.blockSize * 2 ^ 64 := by
      have hone : 1 * 2 ^ 64 ≤ t.blockSize * 2 ^ 64 := Nat.mul_le_mul_right _ hb
      omega
    have hloop := doubleBelow_cast hb hlt hfuel hdoubles
    have hl := hleft hbounds.1 (by omega) (by omega)
      fun _ => hdoubles.mono (by exact_mod_cast hbounds.2.le)
    have hr := hright (by omega) (by omega) (by omega) fun _ => hdoubles.mono (by omega)
    rw [getHash64, if_neg (by omega), hloop]
    simp only
    rw [dif_pos ⟨by exact_mod_cast hbounds.1, by exact_mod_cast hbounds.2⟩]
    have hcastr : ((length : Int) - (l : Int)) = ((length - l : Nat) : Int) := by omega
    have hcasts : ((start : Int) + (l : Int)) = ((start + l : Nat) : Int) := by omega
    rw [show (MerkleTree.doubleBelow t.blockSize length : Int) = (l : Int) from rfl, hl, hcastr,
      hcasts, int64?_of ⟨by omega, by omega⟩]
    simp only [Option.bind_some]
    rw [hr]
    rfl

theorem widths_of_getHash64 {V : Type*} {h : Hasher V} {leaves : List V} {b start length : Int}
    {root : V} (hb : b ≠ 0) (hroot : getHash64 h leaves b start length = some root) :
    length ≤ b ∨ 0 < b ∧ Doubles b length := by
  by_cases hle : length ≤ b
  · exact Or.inl hle
  · right
    rw [getHash64, if_neg hle] at hroot
    cases hl : doubleBelow 64 b length with
    | none =>
      rw [hl] at hroot
      cases hroot
    | some l =>
      rcases lt_or_gt_of_ne hb with hneg | hpos
      · rw [doubleBelow_neg hneg (by omega)] at hl
        cases hl
      · exact ⟨hpos, doubles_of_doubleBelow hpos hl⟩

theorem getHash_cast {t : MerkleTree TTHValue} {start length : Nat} (hb : 0 < t.blockSize)
    (hpos : 0 < length) (hinside : start + length ≤ t.leaves.length * t.blockSize)
    (hsmall : start + length < 2 ^ 63) (hd : t.blockSize < length → Doubles t.blockSize length) :
    getHash h t.leaves t.blockSize start length = some (MerkleTree.getHash h t start length) := by
  rw [getHash_eq_getHash64]
  exact getHash64_cast hb hpos hinside hsmall hd

/-! ## Trees from records -/

/-- The sizes in a record with `n` bytes of leaves: no overflow and no division by zero on the way
    to the number of leaves, which are there, and widths for the whole length. -/
structure SizesOk (fileSize blockSize : Int) (n : Nat) : Prop where
  sum : Int64 (fileSize + blockSize)
  dividend : Int64 (fileSize + blockSize - 1)
  nonzero : blockSize ≠ 0
  quotient : Int64 ((fileSize + blockSize - 1).tdiv blockSize)
  leaves : max (toSizeT ((fileSize + blockSize - 1).tdiv blockSize)) 1 * BYTES ≤ n
  widths : fileSize ≤ blockSize ∨ 0 < blockSize ∧ Doubles blockSize fileSize

/-- Records that are read without harm. -/
def RecordOk (src : Str) : Prop :=
  src.length < 17 ∨ HASHDATA_VERSION < src.getD 0 0 ∨ src.length = 17 ∨
    SizesOk (readInt ((src.drop 1).take 8)) (readInt ((src.drop 9).take 8)) (src.length - 17)

theorem calcBlocks_eq_some {f b : Int} {n : Nat} : calcBlocks f b = some n ↔
    Int64 (f + b) ∧ Int64 (f + b - 1) ∧ b ≠ 0 ∧ Int64 ((f + b - 1).tdiv b) ∧
      n = max (toSizeT ((f + b - 1).tdiv b)) 1 := by
  unfold calcBlocks
  constructor
  · intro hsome
    simp only [Option.bind_eq_bind, Option.bind_eq_some_iff] at hsome
    obtain ⟨sum, hsum, dividend, hdividend, hrest⟩ := hsome
    obtain ⟨hs, rfl⟩ := int64?_eq_some.mp hsum
    obtain ⟨hd, rfl⟩ := int64?_eq_some.mp hdividend
    by_cases hb : b = 0
    · rw [if_pos hb] at hrest
      cases hrest
    · rw [if_neg hb] at hrest
      simp only [Option.bind_eq_some_iff] at hrest
      obtain ⟨quotient, hquotient, hn⟩ := hrest
      obtain ⟨hq, rfl⟩ := int64?_eq_some.mp hquotient
      cases hn
      exact ⟨hs, hd, hb, hq, rfl⟩
  · rintro ⟨hs, hd, hb, hq, rfl⟩
    simp only [Option.bind_eq_bind, int64?_of hs, int64?_of hd, if_neg hb, Option.bind_some,
      int64?_of hq]
    rfl

theorem ofData_eq_some {f b : Int} {data : Str} {t : TigerTree} :
    ofData h f b data = some t ↔ ∃ n root, calcBlocks f b = some n ∧ n * BYTES ≤ data.length ∧
      getHash h ((List.range n).map (valueAt data)) b 0 f = some root ∧
      t = ⟨f, b, (List.range n).map (valueAt data), root⟩ := by
  unfold ofData
  constructor
  · intro hsome
    simp only [Option.bind_eq_bind, Option.bind_eq_some_iff] at hsome
    obtain ⟨n, hn, hrest⟩ := hsome
    by_cases hshort : data.length < n * BYTES
    · rw [if_pos hshort] at hrest
      cases hrest
    · rw [if_neg hshort] at hrest
      simp only [Option.bind_eq_some_iff] at hrest
      obtain ⟨root, hroot, ht⟩ := hrest
      cases ht
      exact ⟨n, root, hn, Nat.not_lt.mp hshort, hroot, rfl⟩
  · rintro ⟨n, root, hn, hlen, hroot, rfl⟩
    simp only [Option.bind_eq_bind, hn, Option.bind_some, if_neg (Nat.not_lt.mpr hlen), hroot]
    rfl

theorem ofData_spec {f b : Int} {data : Str} {t : TigerTree} (ht : ofData h f b data = some t) :
    t.fileSize = f ∧ t.blockSize = b ∧ t.leaves = (List.range t.leaves.length).map (valueAt data) ∧
      t.leaves.length * BYTES ≤ data.length ∧
      getHash h t.leaves t.blockSize 0 t.fileSize = some t.root := by
  obtain ⟨n, root, -, hstored, hroot, rfl⟩ := ofData_eq_some.mp ht
  refine ⟨rfl, rfl, ?_, ?_, hroot⟩
  · simp
  · simpa using hstored

theorem widths_of_getHash {leaves : List TTHValue} {b start length : Int} {root : TTHValue}
    (hb : b ≠ 0) (hroot : getHash h leaves b start length = some root) :
    length ≤ b ∨ 0 < b ∧ Doubles b length :=
  widths_of_getHash64 hb (getHash_eq_getHash64 leaves b start length ▸ hroot)

/-- The root exists for sizes that are not too large. -/
theorem getHash_of_sizesOk {f b : Int} {n : Nat} {leaves : List TTHValue} (hs : SizesOk f b n)
    (hf : f < 2 ^ 63) (hlen : leaves.length = max (toSizeT ((f + b - 1).tdiv b)) 1) :
    ∃ root, getHash h leaves b 0 f = some root := by
  by_cases hle : f ≤ b
  · have hpos : 0 < leaves.length := by omega
    rw [getHash, if_pos hle, Int.zero_tdiv]
    exact ⟨leaves[0], List.getElem?_eq_getElem hpos⟩
  · obtain hle' | ⟨hb, hd⟩ := hs.widths
    · exact absurd hle' hle
    · obtain ⟨b, rfl⟩ := Int.eq_ofNat_of_zero_le hb.le
      obtain ⟨f, rfl⟩ := Int.eq_ofNat_of_zero_le (show 0 ≤ f by omega)
      have hb' : 0 < b := by exact_mod_cast hb
      have hcount : toSizeT (((f : Int) + b - 1).tdiv b) = (f + b - 1) / b := by
        have hcast : (f : Int) + b - 1 = ((f + b - 1 : Nat) : Int) := by omega
        have hq := hs.quotient.2
        unfold toSizeT
        rw [hcast, Int.tdiv_eq_ediv_of_nonneg (Int.natCast_nonneg _), ← Int.natCast_ediv] at hq ⊢
        rw [Int.emod_eq_of_lt (Int.natCast_nonneg _) (by omega), Int.toNat_natCast]
      have hcover : f ≤ leaves.length * b := by
        have hdiv := Nat.div_add_mod (f + b - 1) b
        have hmod := Nat.mod_lt (f + b - 1) hb'
        have hmono : (f + b - 1) / b * b ≤ leaves.length * b :=
          Nat.mul_le_mul_right b (by omega)
        rw [Nat.mul_comm] at hdiv
        omega
      have hroot := @getHash_cast h ⟨[], leaves, default, f, b⟩ 0 f hb' (by omega)
        (by simpa using hcover) (by omega) fun _ => hd
      exact ⟨_, hroot⟩

/-- **Sizes.** Leaves make a tree exactly for the sizes that are right. -/
theorem ofData_isSome_iff {f b : Int} {data : Str} (hf : f < 2 ^ 63) :
    (∃ t, ofData h f b data = some t) ↔ SizesOk f b data.length := by
  constructor
  · rintro ⟨t, ht⟩
    obtain ⟨n, root, hn, hlen, hroot, -⟩ := ofData_eq_some.mp ht
    obtain ⟨hs, hd, hb, hq, rfl⟩ := calcBlocks_eq_some.mp hn
    exact ⟨hs, hd, hb, hq, hlen, widths_of_getHash hb hroot⟩
  · intro hs
    have hcount : ((List.range (max (toSizeT ((f + b - 1).tdiv b)) 1)).map (valueAt data)).length
        = max (toSizeT ((f + b - 1).tdiv b)) 1 := by
      rw [List.length_map, List.length_range]
    obtain ⟨root, hroot⟩ := getHash_of_sizesOk (h := h) hs hf hcount
    exact ⟨_, ofData_eq_some.mpr ⟨_, root,
      calcBlocks_eq_some.mpr ⟨hs.sum, hs.dividend, hs.nonzero, hs.quotient, rfl⟩, hs.leaves, hroot,
      rfl⟩⟩

/-! ## Reading records -/

theorem loadTree_short {src : Str} {key : TTHValue} {tree : TigerTree} (hlen : src.length < 17) :
    loadTree h src key tree = some (false, tree) := by
  unfold loadTree
  rw [if_pos hlen]
  rfl

theorem loadTree_newer {src : Str} {key : TTHValue} {tree : TigerTree} (hlen : 17 ≤ src.length)
    (hv : HASHDATA_VERSION < src.getD 0 0) : loadTree h src key tree = some (false, tree) := by
  unfold loadTree
  rw [if_neg (Nat.not_lt.mpr hlen), if_pos hv]
  rfl

/-- A record without leaves is its root. -/
theorem loadTree_leaf {src : Str} {key : TTHValue} {tree : TigerTree} (hlen : src.length = 17)
    (hv : ¬ HASHDATA_VERSION < src.getD 0 0) : loadTree h src key tree =
      some (true, ⟨readInt ((src.drop 1).take 8), readInt ((src.drop 9).take 8), [key], key⟩) := by
  have hdata : src.drop 17 = [] := List.drop_eq_nil_of_le (le_of_eq hlen)
  unfold loadTree
  rw [if_neg (by omega), if_neg hv]
  simp only [Option.bind_eq_bind, hdata, ne_eq, not_true_eq_false, if_false]
  rfl

theorem loadTree_data {src : Str} {key : TTHValue} {tree : TigerTree} (hlen : 17 < src.length)
    (hv : ¬ HASHDATA_VERSION < src.getD 0 0) : loadTree h src key tree =
      (ofData h (readInt ((src.drop 1).take 8)) (readInt ((src.drop 9).take 8))
        (src.drop 17)).map fun tt => (decide (tt.root = key), tt) := by
  have hdata : src.drop 17 ≠ [] := by
    intro hnil
    have hle := List.drop_eq_nil_iff.mp hnil
    omega
  unfold loadTree
  rw [if_neg (by omega), if_neg hv]
  simp only [if_pos hdata, Option.bind_eq_bind]
  rw [Option.map_eq_bind]
  rfl

theorem readInt_lt {s : Str} (hs : s.length ≤ 8) : readInt s < 2 ^ 63 := by
  have hlt := Bytes.read_lt s
  have hpow : 256 ^ s.length ≤ 256 ^ 8 := Nat.pow_le_pow_right (by norm_num) hs
  unfold readInt
  rw [Int.bmod_def]
  split <;> omega

/-- A tree whose leaves are those of the record and make the root `key`. -/
structure Genuine (h : Hasher TTHValue) (src : Str) (key : TTHValue) (t : TigerTree) : Prop where
  fileSize : t.fileSize = readInt ((src.drop 1).take 8)
  blockSize : t.blockSize = readInt ((src.drop 9).take 8)
  leaves : t.leaves = (List.range t.leaves.length).map (valueAt (src.drop 17))
  stored : t.leaves.length * BYTES ≤ src.length - 17
  root : getHash h t.leaves t.blockSize 0 t.fileSize = some key

/-- `loadTree` comes to an end, and what it has found in a record with leaves is genuine. -/
def LoadsSafely (h : Hasher TTHValue) (src : Str) (key : TTHValue) (tree : TigerTree) : Prop :=
  ∃ found t, loadTree h src key tree = some (found, t) ∧
    (found = true → 17 < src.length → Genuine h src key t)

theorem genuine_of_loadTree {src : Str} {key : TTHValue} {tree t : TigerTree}
    (hlen : 17 < src.length) (ht : loadTree h src key tree = some (true, t)) :
    Genuine h src key t := by
  by_cases hv : HASHDATA_VERSION < src.getD 0 0
  · rw [loadTree_newer hlen.le hv] at ht
    cases ht
  · rw [loadTree_data hlen hv, Option.map_eq_some_iff] at ht
    obtain ⟨tt, hdata, heq⟩ := ht
    obtain ⟨hkey, rfl⟩ := Prod.mk.inj heq
    obtain ⟨hfile, hblock, hleaves, hstored, hroot⟩ := ofData_spec hdata
    rw [List.length_drop] at hstored
    exact ⟨hfile, hblock, hleaves, hstored, of_decide_eq_true hkey ▸ hroot⟩

/-- **Safe records.** -/
theorem loadsSafely_iff {src : Str} {key : TTHValue} {tree : TigerTree} :
    LoadsSafely h src key tree ↔ RecordOk src := by
  unfold RecordOk
  constructor
  · rintro ⟨found, t, ht, -⟩
    by_cases hshort : src.length < 17
    · exact Or.inl hshort
    by_cases hv : HASHDATA_VERSION < src.getD 0 0
    · exact Or.inr (Or.inl hv)
    by_cases hleaf : src.length = 17
    · exact Or.inr (Or.inr (Or.inl hleaf))
    right; right; right
    rw [loadTree_data (by omega) hv, Option.map_eq_some_iff] at ht
    obtain ⟨tt, hdata, -⟩ := ht
    rw [← List.length_drop]
    exact (ofData_isSome_iff (readInt_lt (List.length_take_le _ _))).mp ⟨tt, hdata⟩
  · intro hok
    have hout : ∃ out, loadTree h src key tree = some out := by
      by_cases hshort : src.length < 17
      · exact ⟨_, loadTree_short hshort⟩
      by_cases hv : HASHDATA_VERSION < src.getD 0 0
      · exact ⟨_, loadTree_newer (by omega) hv⟩
      by_cases hleaf : src.length = 17
      · exact ⟨_, loadTree_leaf hleaf hv⟩
      obtain hc | hc | hc | hs := hok
      · exact absurd hc hshort
      · exact absurd hc hv
      · exact absurd hc hleaf
      rw [← List.length_drop] at hs
      obtain ⟨tt, htt⟩ := (ofData_isSome_iff (h := h)
        (readInt_lt (List.length_take_le _ _))).mpr hs
      rw [loadTree_data (by omega) hv, htt]
      exact ⟨_, rfl⟩
    obtain ⟨⟨found, t⟩, ht⟩ := hout
    refine ⟨found, t, ht, ?_⟩
    rintro rfl hlen
    exact genuine_of_loadTree hlen ht

/-! ## Round trips -/

theorem valueAt_flatMap {leaves : List TTHValue} {i : Nat} (hi : i < leaves.length) :
    valueAt (leaves.flatMap Vector.toList) i = leaves[i] := by
  unfold valueAt
  have hslice : Bytes.slice BYTES (leaves.flatMap Vector.toList) i = leaves[i].toList :=
    Bytes.slice_flatMap (fun v => Vector.length_toList) hi
  rw [hslice]
  apply Vector.ext
  intro j hj
  rw [Vector.getElem_ofFn, List.getD_eq_getElem _ _ (by simpa using hj), Vector.getElem_toList]

theorem map_valueAt_flatMap (leaves : List TTHValue) :
    (List.range leaves.length).map (valueAt (leaves.flatMap Vector.toList)) = leaves := by
  apply List.ext_getElem
  · simp
  · intro i h₁ h₂
    rw [List.getElem_map, List.getElem_range, valueAt_flatMap h₂]

/-- The parts of a record. -/
theorem saveTree_parts (t : TigerTree) :
    (saveTree t).getD 0 0 = HASHDATA_VERSION ∧
    ((saveTree t).drop 1).take 8 = writeInt t.fileSize ∧
    ((saveTree t).drop 9).take 8 = writeInt t.blockSize ∧
    (saveTree t).drop 17 =
      if t.leaves.length = 1 then [] else t.leaves.flatMap Vector.toList := by
  have hf := length_writeInt t.fileSize
  have hb := length_writeInt t.blockSize
  unfold saveTree
  refine ⟨rfl, ?_, ?_, ?_⟩
  · rw [List.drop_succ_cons, List.drop_zero, List.append_assoc, List.take_left' hf]
  · rw [List.drop_succ_cons, List.append_assoc, List.drop_left' hf, List.take_left' hb]
  · rw [List.drop_succ_cons, List.drop_left' (by rw [List.length_append, hf, hb])]

/-- A tree of one leaf. -/
theorem getTree_addTree_leaf {t r : TigerTree} {db : Db TTHValue} (hl : t.leaves = [t.root])
    (hf : Int64 t.fileSize) (hb : Int64 t.blockSize) :
    getTree h (addTree db t) t.root r = some (true, t) := by
  obtain ⟨hversion, hfile, hblock, hdata⟩ := saveTree_parts t
  have hlen : (saveTree t).length = 17 := by
    unfold saveTree
    rw [hl]
    simp [length_writeInt]
  have hdb : addTree db t t.root = some (saveTree t) := if_pos rfl
  unfold getTree
  rw [hdb]
  simp only
  rw [loadTree_leaf hlen (by rw [hversion]; exact lt_irrefl _), hfile, hblock,
    readInt_writeInt hf.1 hf.2, readInt_writeInt hb.1 hb.2, ← hl]

/-- A tree of several leaves comes back if it can be made of them. -/
theorem getTree_addTree_data {t r : TigerTree} {db : Db TTHValue} (hl : t.leaves.length ≠ 1)
    (hne : t.leaves ≠ []) (hf : Int64 t.fileSize) (hb : Int64 t.blockSize) :
    getTree h (addTree db t) t.root r =
      (ofData h t.fileSize t.blockSize (t.leaves.flatMap Vector.toList)).map
        fun tt => (decide (tt.root = t.root), tt) := by
  obtain ⟨hversion, hfile, hblock, hdata⟩ := saveTree_parts t
  rw [if_neg hl] at hdata
  have hpos := List.length_pos_of_ne_nil hne
  have hlen : 17 < (saveTree t).length := by
    have hdrop := congrArg List.length hdata
    rw [List.length_drop,
      Bytes.length_flatMap (f := Vector.toList) fun v => Vector.length_toList] at hdrop
    omega
  have hdb : addTree db t t.root = some (saveTree t) := if_pos rfl
  unfold getTree
  rw [hdb]
  simp only
  rw [loadTree_data hlen (by rw [hversion]; exact lt_irrefl _), hfile, hblock, hdata,
    readInt_writeInt hf.1 hf.2, readInt_writeInt hb.1 hb.2]

/-! ## Hashed files -/

open MerkleTree (BASE_BLOCK_SIZE finalize hashed hasher leafHashes Calls)

/-- The tree of a file that has been hashed in blocks of `1024 * 2 ^ k` bytes. -/
def fileTree (h : Hasher TTHValue) (k : Nat) (calls : List Str) : TigerTree :=
  ofMerkleTree (finalize h (hashed h (BASE_BLOCK_SIZE * 2 ^ k) calls))

/-- What hashing makes of the data, but for the hashes themselves. -/
theorem fileTree_eq {k : Nat} {calls : List Str} {data : Str} (hc : Calls calls data) :
    ∃ t : MerkleTree TTHValue, t.blockSize = BASE_BLOCK_SIZE * 2 ^ k ∧ t.fileSize = data.length ∧
      t.leaves.length = MerkleTree.calcBlocks data.length (BASE_BLOCK_SIZE * 2 ^ k) ∧
      fileTree h k calls = ⟨data.length, (BASE_BLOCK_SIZE * 2 ^ k : Nat), t.leaves,
        MerkleTree.getHash h t 0 data.length⟩ := by
  obtain ⟨t, heq, hl, hb, hf⟩ := MerkleTree.finalize_hashed h k hc
  refine ⟨t, hb, hf, ?_, ?_⟩
  · rw [hl, MerkleTree.length_leafHashes]
    rfl
  · have hfinal : finalize h (hashed h (BASE_BLOCK_SIZE * 2 ^ k) calls) = MerkleTree.calcRoot h t :=
      heq
    unfold fileTree
    rw [hfinal]
    unfold ofMerkleTree MerkleTree.calcRoot
    rw [TigerTree.mk.injEq]
    refine ⟨congrArg Nat.cast hf, congrArg Nat.cast hb, rfl, ?_⟩
    simp only [hf]

theorem span_eq (k : Nat) : BASE_BLOCK_SIZE * 2 ^ k = 2 ^ (k + 10) := by
  rw [pow_add, Nat.mul_comm]
  rfl

/-- A power of two above `2 ^ 62` is too large for `int64_t`. -/
theorem doubles_span {k n : Nat} (hlt : BASE_BLOCK_SIZE * 2 ^ k < n) :
    Doubles (BASE_BLOCK_SIZE * 2 ^ k : Nat) n ↔ n ≤ 2 ^ 62 := by
  rw [span_eq] at hlt ⊢
  unfold Doubles
  constructor
  · rintro ⟨m, hle, hsmall⟩
    have hpow : ((2 ^ (k + 10) : Nat) : Int) * 2 ^ m = ((2 ^ (k + 10 + m) : Nat) : Int) := by
      push_cast
      rw [← pow_add]
    rw [hpow] at hle hsmall
    have hexp : k + 10 + m < 63 := by
      apply (Nat.pow_lt_pow_iff_right (show 1 < 2 by omega)).mp
      exact_mod_cast hsmall
    have hmax : 2 ^ (k + 10 + m) ≤ 2 ^ 62 := Nat.pow_le_pow_right (by omega) (by omega)
    have hle' : n ≤ 2 ^ (k + 10 + m) := by exact_mod_cast hle
    omega
  · intro hle
    have hexp : k + 10 < 62 := by
      apply (Nat.pow_lt_pow_iff_right (show 1 < 2 by omega)).mp
      omega
    refine ⟨62 - (k + 10), ?_⟩
    have hexp' : k + 10 + (62 - (k + 10)) = 62 := by omega
    have hpow : ((2 ^ (k + 10) : Nat) : Int) * 2 ^ (62 - (k + 10)) = 2 ^ 62 := by
      rw [Nat.cast_pow, Nat.cast_ofNat, ← pow_add, hexp']
    rw [hpow]
    exact ⟨by exact_mod_cast hle, by norm_num⟩

theorem calcBlocks_fileSize {n b : Nat} (hlt : b < n) (hb : 0 < b) (hsum : n + b < 2 ^ 63) :
    calcBlocks n b = some (MerkleTree.calcBlocks n b) := by
  have hcast : (n : Int) + b - 1 = ((n + b - 1 : Nat) : Int) := by omega
  have hdiv : (n + b - 1) / b ≤ n + b - 1 := Nat.div_le_self _ _
  rw [calcBlocks_eq_some, hcast, Int.tdiv_eq_ediv_of_nonneg (Int.natCast_nonneg _),
    ← Int.natCast_ediv]
  have hquotient : Int64 (((n + b - 1) / b : Nat) : Int) :=
    ⟨le_trans (by norm_num) (Int.natCast_nonneg _), by exact_mod_cast (by omega)⟩
  refine ⟨⟨by omega, by omega⟩, ⟨by omega, by omega⟩, by omega, hquotient, ?_⟩
  unfold toSizeT MerkleTree.calcBlocks
  rw [Int.emod_eq_of_lt (Int.natCast_nonneg _) (by omega), Int.toNat_natCast]

/-- **Files.** The tree of a file comes back exactly if it has one leaf or the file has no more
    than `2 ^ 62` bytes. -/
theorem getTree_fileTree_iff {k : Nat} {calls : List Str} {data : Str} (hc : Calls calls data)
    (hne : data ≠ []) (hsize : data.length < 2 ^ 63) (hspan : BASE_BLOCK_SIZE * 2 ^ k < 2 ^ 63)
    (db : Db TTHValue) (r : TigerTree) :
    getTree h (addTree db (fileTree h k calls)) (fileTree h k calls).root r =
      some (true, fileTree h k calls) ↔
    data.length ≤ BASE_BLOCK_SIZE * 2 ^ k ∨ data.length ≤ 2 ^ 62 := by
  obtain ⟨t, hb, hf, hl, heq⟩ := fileTree_eq (h := h) (k := k) hc
  have hbpos : 0 < BASE_BLOCK_SIZE * 2 ^ k := by
    rw [span_eq]
    positivity
  have hpos := List.length_pos_of_ne_nil hne
  have hfile : Int64 data.length := ⟨by omega, by exact_mod_cast hsize⟩
  have hblock : Int64 (BASE_BLOCK_SIZE * 2 ^ k : Nat) := ⟨by omega, by exact_mod_cast hspan⟩
  rw [heq]
  by_cases hle : data.length ≤ BASE_BLOCK_SIZE * 2 ^ k
  · apply iff_of_true _ (Or.inl hle)
    apply getTree_addTree_leaf _ hfile hblock
    have hone : t.leaves.length = 1 := by
      rw [hl, MerkleTree.calcBlocks, max_eq_right]
      rw [← Nat.lt_succ_iff, Nat.div_lt_iff_lt_mul hbpos]
      omega
    obtain ⟨x, hx⟩ := List.length_eq_one_iff.mp hone
    simp only [hx]
    rw [MerkleTree.getHash, dif_pos (Or.inl (hb ▸ hle)), hx, Nat.zero_div]
    rfl
  · have hlt : BASE_BLOCK_SIZE * 2 ^ k < data.length := Nat.lt_of_not_le hle
    have hmany : 1 < t.leaves.length := by
      rw [hl, MerkleTree.lt_calcBlocks_iff hbpos hpos, one_mul]
      exact hlt
    have hnonempty : t.leaves ≠ [] := List.length_pos_iff.mp (by omega)
    rw [getTree_addTree_data hmany.ne' hnonempty hfile hblock, or_iff_right hle]
    constructor
    · intro hsome
      obtain ⟨tt, hdata, -⟩ := Option.map_eq_some_iff.mp hsome
      obtain ⟨n, root, -, -, hroot, -⟩ := ofData_eq_some.mp hdata
      have hnonzero : ((BASE_BLOCK_SIZE * 2 ^ k : Nat) : Int) ≠ 0 := by exact_mod_cast hbpos.ne'
      obtain hc | ⟨-, hd⟩ := widths_of_getHash hnonzero hroot
      · exact absurd (Int.ofNat_le.mp hc) hle
      · exact (doubles_span hlt).mp hd
    · intro hmax
      have hcover : data.length ≤ t.leaves.length * t.blockSize := by
        rw [hl, hb]
        by_contra hbeyond
        exact lt_irrefl _
          ((MerkleTree.lt_calcBlocks_iff hbpos hpos).mpr (Nat.lt_of_not_le hbeyond))
      have hroot := @getHash_cast h t 0 data.length (hb ▸ hbpos) hpos (by omega) (by omega)
        fun _ => hb ▸ (doubles_span hlt).mpr hmax
      have hn := calcBlocks_fileSize hlt hbpos (by omega)
      have hdata : ofData h data.length (BASE_BLOCK_SIZE * 2 ^ k : Nat)
          (t.leaves.flatMap Vector.toList) = some ⟨data.length, (BASE_BLOCK_SIZE * 2 ^ k : Nat),
            t.leaves, MerkleTree.getHash h t 0 data.length⟩ := by
        rw [ofData_eq_some]
        refine ⟨_, MerkleTree.getHash h t 0 data.length, hn, ?_, ?_, ?_⟩
        · rw [← hl]
          exact (Bytes.length_flatMap fun v => Vector.length_toList).ge
        · rw [← hl, map_valueAt_flatMap, ← hb]
          exact hroot
        · rw [← hl, map_valueAt_flatMap]
      rw [hdata]
      simp

/-- A record of zeros with one leaf: the number of leaves is zero divided by zero. -/
theorem not_loadsSafely_zeros : ¬ ∀ (h : Hasher TTHValue) (src : Str) (key : TTHValue)
    (tree : TigerTree), LoadsSafely h src key tree := by
  intro hall
  let src : Str := List.replicate 41 0
  obtain ⟨found, t, ht, -⟩ := hall ⟨fun _ => default, Vector.toList⟩ src default ⟨0, 0, [], default⟩
  rw [loadTree_data (by simp [src]) (by decide), Option.map_eq_some_iff] at ht
  obtain ⟨tt, hdata, -⟩ := ht
  obtain ⟨n, root, hn, -⟩ := ofData_eq_some.mp hdata
  have hzero : readInt ((src.drop 9).take 8) = 0 := by decide
  exact (calcBlocks_eq_some.mp hn).2.2.1 hzero

/-- **Hash trees in the database.** Trees of one leaf come back, the tree of a file with more
    leaves comes back exactly if the file has no more than `2 ^ 62` bytes, and a record is read
    without harm, and believed only for its leaves, exactly if the sizes in it are right. -/
theorem trees_survive (h : Hasher TTHValue) :
    (∀ (t r : TigerTree) (db : Db TTHValue), t.leaves = [t.root] → Int64 t.fileSize →
      Int64 t.blockSize → getTree h (addTree db t) t.root r = some (true, t)) ∧
    (∀ (k : Nat) (calls : List Str) (data : Str) (db : Db TTHValue) (r : TigerTree),
      Calls calls data → data ≠ [] → data.length < 2 ^ 63 → BASE_BLOCK_SIZE * 2 ^ k < 2 ^ 63 →
      (getTree h (addTree db (fileTree h k calls)) (fileTree h k calls).root r =
        some (true, fileTree h k calls) ↔
        data.length ≤ BASE_BLOCK_SIZE * 2 ^ k ∨ data.length ≤ 2 ^ 62)) ∧
    ∀ (src : Str) (key : TTHValue) (tree : TigerTree),
      LoadsSafely h src key tree ↔ RecordOk src := by
  refine ⟨?_, ?_, ?_⟩
  · intro t r db hl hf hb
    exact getTree_addTree_leaf hl hf hb
  · intro k calls data db r hc hne hsize hspan
    exact getTree_fileTree_iff hc hne hsize hspan db r
  · intro src key tree
    exact loadsSafely_iff

theorem trees_survive_byte :
    ∃ t : TigerTree, t = fileTree ⟨fun _ => default, Vector.toList⟩ 0 [[97]] ∧
      (getTree ⟨fun _ => default, Vector.toList⟩ (addTree (fun _ => none) t) t.root t =
        some (true, t) ↔ ([97] : Str).length ≤ BASE_BLOCK_SIZE * 2 ^ 0 ∨
          ([97] : Str).length ≤ 2 ^ 62) :=
  ⟨_, rfl, (trees_survive ⟨fun _ => default, Vector.toList⟩).2.1 0 [[97]] [97] _ _
    ⟨rfl, by simp, by simp⟩ (by simp) (by simp) (by simp [BASE_BLOCK_SIZE])⟩

end HashStore
end Airdcpp
