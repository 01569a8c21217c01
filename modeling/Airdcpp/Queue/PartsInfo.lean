import Airdcpp.Queue.QueueItem

/-!
# `Queue/PartsInfo` — block ranges that peers tell each other about unfinished files

`PartsInfo` is a list of 16-bit block numbers, two for each range: the first block, and the block
after the last one. `isNeededPart` looks for a range with something that is not finished here, and
`getPartialInfo` makes the list of what is.

Both are about bytes in the end. `isNeededPart_iff` is what the walk of `isNeededPart` decides, and
it differs from what is asked where a range ends behind the file. In `getPartialInfo` a segment
keeps its bytes only when it begins and ends where blocks do; numbers that do not fit into 16 bits
begin again at zero.
-/

namespace Airdcpp

open Lib

abbrev PartsInfo := List Nat

namespace PartsInfo

/-- The ranges of a list: what `j` and `j + 1` point at when `j` goes on by two. -/
def pairs {α : Type*} : List α → List (α × α)
  | s :: e :: rest => (s, e) :: pairs rest
  | _ => []

variable {size bs : Int} {info : PartsInfo} {p : Nat × Nat}

/-- The bytes of a range, up to the end of the file. -/
def rangeBytes (size bs : Int) (p : Nat × Nat) : Set Int :=
  Set.Ico (p.1 * bs) (min size (p.2 * bs))

/-- Non-empty ranges that begin inside the file, in order. -/
structure Wf (size bs : Int) (info : PartsInfo) : Prop where
  even : info.length % 2 = 0
  nonempty : ∀ p ∈ pairs info, p.1 < p.2
  inside : ∀ p ∈ pairs info, p.1 * bs < size
  sorted : (pairs info).Pairwise fun p p' => p.1 ≤ p'.1

end PartsInfo

namespace QueueItem

open PartsInfo SegmentSet

variable {q : QueueItem} {bs : Int} {info : PartsInfo}

/-! ## Parts that are needed -/

/-- The loop of `isNeededPart`; `i` is what the iterator of `done` has not passed. -/
def isNeededPartFrom (aBlockSize : Int) : (i : List Segment) → PartsInfo → Bool
  | i, s :: e :: rest =>
    match i.dropWhile fun x => decide (x.getEnd ≤ s * aBlockSize) with
    | [] => true
    | x :: i =>
      if !(decide (x.start ≤ s * aBlockSize) && decide (x.getEnd ≥ e * aBlockSize)) then true
      else isNeededPartFrom aBlockSize (x :: i) rest
  | _, _ => false

def isNeededPart (q : QueueItem) (aPartsInfo : PartsInfo) (aBlockSize : Int) : Bool :=
  isNeededPartFrom aBlockSize q.done.toList aPartsInfo

/-- Some byte of the advertised ranges is not finished. -/
def Lacks (q : QueueItem) (info : PartsInfo) (bs : Int) : Prop :=
  ∃ p ∈ pairs info, ∃ x ∈ rangeBytes q.size bs p, x ∉ bytes q.done.toList

/-- No range ends behind the file, unless the finished segments do too. -/
def EndsInside (q : QueueItem) (info : PartsInfo) (bs : Int) : Prop :=
  ∀ p ∈ pairs info, p.2 * bs ≤ q.size ∨ Set.Ico q.size (p.2 * bs) ⊆ bytes q.done.toList

/-- The segment that the iterator stops at is the only one that can contain what comes next. -/
theorem dropWhile_contains {l : List Segment} {a b : Int} (hl : IsCanonical l) (hab : a < b) :
    (∃ x ∈ l, x.start ≤ a ∧ b ≤ x.getEnd) ↔
      ∃ x ∈ (l.dropWhile fun x => decide (x.getEnd ≤ a)).head?, x.start ≤ a ∧ b ≤ x.getEnd := by
  induction l with
  | nil => simp
  | cons y rest ih =>
    obtain ⟨hpos, hrest, hgap⟩ := canonical_cons.mp hl
    by_cases hend : y.getEnd ≤ a
    · rw [List.dropWhile_cons_of_pos (by simpa using hend), ← ih hrest]
      constructor
      · intro h
        obtain ⟨x, hx, hstart, hx'⟩ := h
        rcases List.mem_cons.mp hx with rfl | hx
        · exact absurd (lt_of_lt_of_le hab hx') (not_lt.mpr hend)
        · exact ⟨x, hx, hstart, hx'⟩
      · intro h
        obtain ⟨x, hx, hx'⟩ := h
        exact ⟨x, List.mem_cons_of_mem _ hx, hx'⟩
    · rw [List.dropWhile_cons_of_neg (by simpa using hend)]
      constructor
      · intro h
        obtain ⟨x, hx, hstart, hx'⟩ := h
        rcases List.mem_cons.mp hx with rfl | hx
        · exact ⟨x, rfl, hstart, hx'⟩
        · exact absurd (lt_of_lt_of_le (hgap x hx) hstart) (not_lt.mpr (not_le.mp hend).le)
      · intro h
        obtain ⟨x, hx, hx'⟩ := h
        exact ⟨x, List.mem_cons.mpr (.inl (Option.some.inj hx).symm), hx'⟩

theorem canonical_dropWhile {l : List Segment} {f : Segment → Bool} (hl : IsCanonical l) :
    IsCanonical (l.dropWhile f) := by
  have h := (List.takeWhile_append_dropWhile (p := f) (l := l)).symm
  rw [h] at hl
  exact (canonical_append.mp hl).2.1

/-- Segments that end before a range begins contain no later range either. -/
theorem dropWhile_later {l : List Segment} {a a' b : Int} (haa : a ≤ a') (hab : a' < b) :
    (∃ x ∈ l.dropWhile fun x => decide (x.getEnd ≤ a), x.start ≤ a' ∧ b ≤ x.getEnd) ↔
      ∃ x ∈ l, x.start ≤ a' ∧ b ≤ x.getEnd := by
  constructor
  · intro h
    obtain ⟨x, hx, hx'⟩ := h
    exact ⟨x, (List.dropWhile_sublist _).mem hx, hx'⟩
  · intro h
    obtain ⟨x, hx, hstart, hend⟩ := h
    refine ⟨x, ?_, hstart, hend⟩
    rw [← List.takeWhile_append_dropWhile (p := fun x => decide (x.getEnd ≤ a)) (l := l)] at hx
    rcases List.mem_append.mp hx with hx | hx
    · have hpassed := @List.mem_takeWhile_imp _ (fun x : Segment => decide (x.getEnd ≤ a)) _ _ hx
      have hle : x.getEnd ≤ a := of_decide_eq_true hpassed
      exact absurd (lt_of_lt_of_le hab (le_trans hend (le_trans hle haa))) (lt_irrefl _)
    · exact hx

/-- **What the walk decides**: whether some range is not inside one finished segment. -/
theorem isNeededPartFrom_iff (hbs : 0 < bs) {l : List Segment} (hl : IsCanonical l)
    (hne : ∀ p ∈ pairs info, p.1 < p.2) (hsorted : (pairs info).Pairwise fun p p' => p.1 ≤ p'.1) :
    isNeededPartFrom bs l info = true ↔
      ∃ p ∈ pairs info, ¬ ∃ x ∈ l, x.start ≤ p.1 * bs ∧ p.2 * bs ≤ x.getEnd := by
  induction info using pairs.induct generalizing l with
  | case1 s e rest ih =>
    simp only [pairs, List.mem_cons, forall_eq_or_imp, exists_eq_or_imp] at hne ⊢
    obtain ⟨hle, hsorted⟩ := List.pairwise_cons.mp hsorted
    have hlt : ∀ a b : Nat, a < b → (a : Int) * bs < b * bs := fun a b h =>
      mul_lt_mul_of_pos_right (Int.ofNat_lt.mpr h) hbs
    rw [isNeededPartFrom, dropWhile_contains hl (hlt s e hne.1)]
    -- a range that comes later does not begin before this one
    have hrest : (∃ p ∈ pairs rest, ¬ ∃ x ∈ l, x.start ≤ p.1 * bs ∧ p.2 * bs ≤ x.getEnd) ↔
        ∃ p ∈ pairs rest, ¬ ∃ x ∈ l.dropWhile fun x => decide (x.getEnd ≤ s * bs),
          x.start ≤ p.1 * bs ∧ p.2 * bs ≤ x.getEnd := by
      refine exists_congr fun p => and_congr_right fun hp => not_congr ?_
      refine (dropWhile_later ?_ (hlt p.1 p.2 (hne.2 p hp))).symm
      exact mul_le_mul_of_nonneg_right (Int.ofNat_le.mpr (hle p hp)) hbs.le
    have hdrop := canonical_dropWhile (f := fun x => decide (x.getEnd ≤ s * bs)) hl
    cases hcase : l.dropWhile fun x => decide (x.getEnd ≤ s * bs) with
    | nil => simp
    | cons x i =>
      rw [hcase] at hrest hdrop
      by_cases hin : x.start ≤ s * bs ∧ e * bs ≤ x.getEnd
      · simp only [ge_iff_le, hin.1, hin.2, decide_true, Bool.and_self, Bool.not_true,
          Bool.false_eq_true, if_false, List.head?_cons, Option.mem_def, Option.some.injEq,
          exists_eq_left', and_self, not_true_eq_false, false_or]
        rw [ih hdrop hne.2 hsorted, hrest]
      · have hout : (!(decide (x.start ≤ s * bs) && decide (x.getEnd ≥ e * bs))) = true := by
          rw [Bool.not_eq_true', ← Bool.decide_and]
          exact decide_eq_false hin
        simp only [hout, if_true, List.head?_cons, Option.mem_def, Option.some.injEq,
          exists_eq_left', hin, not_false_eq_true, true_or]
  | case2 info hinfo =>
    match info, hinfo with
    | [], _ => simp [isNeededPartFrom, pairs]
    | [s], _ => simp [isNeededPartFrom, pairs]
    | s :: e :: rest, h => exact absurd rfl (h s e rest)

/-- **The walk against the bytes.** A range that is finished up to the end of the file is still
    needed where it ends behind it, and this is all that goes wrong. -/
theorem isNeededPart_exact (hbs : 0 < bs) (hdone : IsCanonical q.done.toList)
    (hinfo : Wf q.size bs info) :
    (q.isNeededPart info bs = true ↔ q.Lacks info bs) ↔ q.Lacks info bs ∨ q.EndsInside info bs := by
  have hneeded : q.isNeededPart info bs = true ↔
      ∃ p ∈ pairs info, ¬ Set.Ico (p.1 * bs) (p.2 * bs) ⊆ bytes q.done.toList := by
    rw [isNeededPart, isNeededPartFrom_iff hbs hdone hinfo.nonempty hinfo.sorted]
    refine exists_congr fun p => and_congr_right fun hp => not_congr ?_
    exact (hdone.subset_iff (mul_lt_mul_of_pos_right
      (Int.ofNat_lt.mpr (hinfo.nonempty p hp)) hbs)).symm
  -- without a lack a range is finished exactly when its part behind the file is
  have hends : ¬ q.Lacks info bs → ((∀ p ∈ pairs info,
      Set.Ico (p.1 * bs) (p.2 * bs) ⊆ bytes q.done.toList) ↔ q.EndsInside info bs) := by
    intro hnone
    have hin : ∀ p ∈ pairs info, rangeBytes q.size bs p ⊆ bytes q.done.toList := by
      intro p hp x hx
      by_contra hout
      exact hnone ⟨p, hp, x, hx, hout⟩
    refine forall₂_congr fun p hp => ?_
    have hstart := hinfo.inside p hp
    constructor
    · intro hall
      refine .inr fun x hx => hall ⟨?_, hx.2⟩
      exact le_trans hstart.le hx.1
    · intro hbehind x hx
      by_cases hx' : x < q.size
      · exact hin p hp ⟨hx.1, lt_min hx' hx.2⟩
      · rcases hbehind with hle | hsub
        · exact absurd (lt_of_lt_of_le hx.2 hle) hx'
        · exact hsub ⟨not_lt.mp hx', hx.2⟩
  by_cases hlacks : q.Lacks info bs
  · refine iff_of_true (iff_of_true (hneeded.mpr ?_) hlacks) (.inl hlacks)
    obtain ⟨p, hp, x, hx, hout⟩ := hlacks
    exact ⟨p, hp, fun hall => hout (hall ⟨hx.1, lt_of_lt_of_le hx.2 (min_le_right _ _)⟩)⟩
  · simp only [hlacks, iff_false, false_or]
    rw [← hends hlacks, hneeded]
    push Not
    rfl

/-- Two blocks of 64 bytes, and a file of 100 that is finished. -/
def finishedSample : QueueItem :=
  { sample 100 with done := OrderedSet.empty.insert ⟨0, 100⟩ }

theorem canonical_finishedSample : IsCanonical finishedSample.done.toList := by
  have hlist : finishedSample.done.toList = [⟨0, 100⟩] := rfl
  rw [hlist]
  exact canonical_cons.mpr ⟨by decide, Canonical.nil, by simp⟩

theorem wf_finishedSample : Wf finishedSample.size 64 [0, 2] where
  even := rfl
  nonempty := by decide
  inside := by decide
  sorted := by decide

/-- Both blocks are finished, and the second one is asked for. -/
theorem isNeededPart_last_block :
    ¬ ∀ (q : QueueItem) (bs : Int) (info : PartsInfo), 0 < bs → IsCanonical q.done.toList →
      Wf q.size bs info → (q.isNeededPart info bs = true ↔ q.Lacks info bs) := by
  intro h
  have hlacks := (h finishedSample 64 [0, 2] (by decide) canonical_finishedSample
    wf_finishedSample).mp (by decide)
  obtain ⟨p, hp, x, hx, hout⟩ := hlacks
  obtain rfl : p = (0, 2) := List.mem_singleton.mp hp
  refine hout ⟨⟨0, 100⟩, List.mem_singleton.mpr rfl, by simpa using hx.1, ?_⟩
  exact lt_of_lt_of_le hx.2 (min_le_left _ _)

theorem isNeededPart_exact_first_block :
    (finishedSample.isNeededPart [0, 1] 64 = true ↔ finishedSample.Lacks [0, 1] 64) ↔
      finishedSample.Lacks [0, 1] 64 ∨ finishedSample.EndsInside [0, 1] 64 :=
  isNeededPart_exact (by decide) canonical_finishedSample
    ⟨rfl, by decide, by decide, by decide⟩

/-! ## Parts that are there -/

def startBlock (aBlockSize : Int) (i : Segment) : Int := i.start.tdiv aBlockSize
def endBlock (aBlockSize : Int) (i : Segment) : Int := (i.getEnd - 1).tdiv aBlockSize + 1

/-- `(uint16_t)` -/
def toUInt16 (n : Int) : Nat := (n % 65536).toNat

/-- The two numbers of a finished segment. -/
def blockNumbers (aBlockSize : Int) (i : Segment) : Nat × Nat :=
  (toUInt16 (startBlock aBlockSize i), toUInt16 (endBlock aBlockSize i))

/-- The loop of `getPartialInfo` -/
def partialInfoFrom (aBlockSize : Int) (maxSize : Nat) : List Segment → PartsInfo → PartsInfo
  | [], aPartialInfo => aPartialInfo
  | i :: rest, aPartialInfo =>
    if aPartialInfo.length < maxSize then
      let numbers := blockNumbers aBlockSize i
      partialInfoFrom aBlockSize maxSize rest (aPartialInfo ++ [numbers.1, numbers.2])
    else aPartialInfo

/-- The list is empty before. -/
def getPartialInfo (q : QueueItem) (aBlockSize : Int) : PartsInfo :=
  partialInfoFrom aBlockSize (min (q.done.size * 2) 510) q.done.toList []

/-- The segments that the list has room for. -/
def emitted (q : QueueItem) : List Segment := q.done.toList.take 255

/-- The ranges are ranges, in order, not too many, and what they say is there is there. -/
structure Truthful (q : QueueItem) (bs : Int) (info : PartsInfo) : Prop where
  nonempty : ∀ p ∈ pairs info, p.1 < p.2
  sorted : (pairs info).Pairwise fun p p' => p.2 ≤ p'.1
  few : (pairs info).length ≤ 255
  covered : ∀ p ∈ pairs info, rangeBytes q.size bs p ⊆ bytes q.done.toList

/-- The number of the block after the segment is a 16-bit number. -/
def Fits (bs : Int) (i : Segment) : Prop := endBlock bs i < 65536

instance (bs : Int) (i : Segment) : Decidable (Fits bs i) :=
  inferInstanceAs (Decidable (_ < _))

/-- The segments up to the first one that does not fit, and from it on. -/
def fitting (q : QueueItem) (bs : Int) : List Segment :=
  q.emitted.takeWhile fun i => decide (Fits bs i)

def wrapping (q : QueueItem) (bs : Int) : List Segment :=
  q.emitted.dropWhile fun i => decide (Fits bs i)

/-- Segments are made of blocks as long as the block numbers fit. The first segment with a number
    that does not fit begins with a block whose number does, and from then on the numbers go on
    increasing. -/
structure Blockwise (q : QueueItem) (bs : Int) : Prop where
  aligned : ∀ i ∈ q.fitting bs, bs ∣ i.start ∧ (bs ∣ i.getEnd ∨ i.getEnd = q.size)
  first : ∀ i ∈ (q.wrapping bs).head?, bs ∣ i.start ∧ startBlock bs i < 65536
  nonempty : ∀ i ∈ q.wrapping bs, (blockNumbers bs i).1 < (blockNumbers bs i).2
  sorted : (q.wrapping bs).Pairwise fun i j => (blockNumbers bs i).2 ≤ (blockNumbers bs j).1

/-! ### The numbers -/

theorem pairs_flatMap {α : Type*} {l : List α} {f : α → Nat × Nat} :
    pairs (l.flatMap fun i => [(f i).1, (f i).2]) = l.map f := by
  induction l with
  | nil => rfl
  | cons a l ih =>
    simp only [List.flatMap_cons, List.cons_append, List.nil_append, pairs, ih, List.map_cons]

theorem partialInfoFrom_eq {maxSize n : Nat} {l : List Segment}
    (h : info.length + 2 * n = maxSize) :
    partialInfoFrom bs maxSize l info =
      info ++ (l.take n).flatMap fun i => [(blockNumbers bs i).1, (blockNumbers bs i).2] := by
  induction l generalizing info n with
  | nil => simp [partialInfoFrom]
  | cons i rest ih =>
    cases n with
    | zero => simp [partialInfoFrom, ← h]
    | succ n =>
      have hlt : info.length < maxSize := by omega
      have hrest : (info ++ [(blockNumbers bs i).1, (blockNumbers bs i).2]).length + 2 * n =
          maxSize := by
        simp only [List.length_append, List.length_cons, List.length_nil]
        omega
      rw [partialInfoFrom, if_pos hlt, ih hrest]
      simp only [List.take_succ_cons, List.flatMap_cons, List.append_assoc]

theorem pairs_getPartialInfo : pairs (q.getPartialInfo bs) = q.emitted.map (blockNumbers bs) := by
  have hlength : ([] : PartsInfo).length + 2 * min q.done.toList.length 255 =
      min (q.done.size * 2) 510 := by
    simp only [List.length_nil, OrderedSet.size]
    omega
  rw [getPartialInfo, partialInfoFrom_eq hlength, List.nil_append, pairs_flatMap, emitted]
  congr 1
  rcases le_total q.done.toList.length 255 with hle | hle
  · rw [min_eq_left hle, List.take_length, List.take_of_length_le hle]
  · rw [min_eq_right hle]

theorem emitted_split : q.emitted = q.fitting bs ++ q.wrapping bs :=
  List.takeWhile_append_dropWhile.symm

theorem mem_of_emitted {i : Segment} (h : i ∈ q.emitted) : i ∈ q.done.toList :=
  List.mem_of_mem_take h

section Numbers

variable {i : Segment}

theorem startBlock_spec (hbs : 0 < bs) (h0 : 0 ≤ i.start) :
    startBlock bs i * bs ≤ i.start ∧ i.start < (startBlock bs i + 1) * bs ∧
      0 ≤ startBlock bs i := by
  rw [startBlock, Int.tdiv_eq_ediv_of_nonneg h0]
  exact ⟨Int.ediv_mul_le _ hbs.ne', Int.lt_ediv_add_one_mul_self _ hbs, Int.ediv_nonneg h0 hbs.le⟩

theorem endBlock_spec (hbs : 0 < bs) (h0 : 0 ≤ i.start) (hpos : i.start < i.getEnd) :
    i.getEnd ≤ endBlock bs i * bs ∧ (endBlock bs i - 1) * bs < i.getEnd ∧ 0 < endBlock bs i := by
  have hend : 0 ≤ i.getEnd - 1 := by omega
  rw [endBlock, Int.tdiv_eq_ediv_of_nonneg hend, Int.add_sub_cancel]
  have hlt := Int.lt_ediv_add_one_mul_self (i.getEnd - 1) hbs
  have hle := Int.ediv_mul_le (i.getEnd - 1) hbs.ne'
  have hnonneg := Int.ediv_nonneg hend hbs.le
  exact ⟨by omega, by omega, by omega⟩

theorem toUInt16_of_lt {n : Int} (h0 : 0 ≤ n) (h : n < 65536) : (toUInt16 n : Int) = n := by
  rw [toUInt16, Int.emod_eq_of_lt h0 h, Int.toNat_of_nonneg h0]

theorem toUInt16_lt (n : Int) : (toUInt16 n : Int) < 65536 := by
  rw [toUInt16, Int.toNat_of_nonneg (Int.emod_nonneg _ (by decide))]
  exact Int.emod_lt_of_pos _ (by decide)

end Numbers

section Truth

variable {i j : Segment} {post : List Segment} {h : Segment}

theorem numbers_of_fits (hbs : 0 < bs) (h0 : 0 ≤ i.start) (hpos : i.start < i.getEnd)
    (hfits : Fits bs i) :
    ((blockNumbers bs i).1 : Int) = startBlock bs i ∧
      ((blockNumbers bs i).2 : Int) = endBlock bs i ∧ startBlock bs i < endBlock bs i := by
  obtain ⟨hs1, -, hs0⟩ := startBlock_spec hbs h0
  obtain ⟨he1, -, he0⟩ := endBlock_spec hbs h0 hpos
  have hlt : startBlock bs i < endBlock bs i :=
    lt_of_mul_lt_mul_right (lt_of_le_of_lt hs1 (lt_of_lt_of_le hpos he1)) hbs.le
  exact ⟨toUInt16_of_lt hs0 (lt_trans hlt hfits), toUInt16_of_lt he0.le hfits, hlt⟩

theorem startBlock_mul (h0 : 0 ≤ i.start) (hdvd : bs ∣ i.start) :
    startBlock bs i * bs = i.start := by
  rw [startBlock, Int.tdiv_eq_ediv_of_nonneg h0]
  exact Int.ediv_mul_cancel hdvd

/-- The byte before a segment and the byte behind it are in no segment. -/
theorem notMem_bytes_before (hdone : IsCanonical q.done.toList) (hi : i ∈ q.done.toList) :
    i.start - 1 ∉ bytes q.done.toList := by
  intro hmem
  obtain ⟨g, hg, hlo, hhi⟩ := hmem
  have hne : i ≠ g := by
    rintro rfl
    omega
  have hpos := hdone.pos i hi
  rcases hdone.apart hi hg hne with hgap | hgap
  · omega
  · omega

theorem notMem_bytes_behind (hdone : IsCanonical q.done.toList) (hi : i ∈ q.done.toList) :
    i.getEnd ∉ bytes q.done.toList := by
  intro hmem
  obtain ⟨g, hg, hlo, hhi⟩ := hmem
  have hne : i ≠ g := by
    rintro rfl
    omega
  have hpos := hdone.pos g hg
  rcases hdone.apart hi hg hne with hgap | hgap
  · omega
  · have hpos' := hdone.pos i hi
    omega

/-- Where the numbers of a segment fit, its range is finished exactly when it is aligned. -/
theorem range_fits (hbs : 0 < bs) (hdone : IsCanonical q.done.toList)
    (hin : Inside q.size q.done.toList) (hi : i ∈ q.done.toList) (hfits : Fits bs i) :
    rangeBytes q.size bs (blockNumbers bs i) ⊆ bytes q.done.toList ↔
      bs ∣ i.start ∧ (bs ∣ i.getEnd ∨ i.getEnd = q.size) := by
  obtain ⟨h0, hsize⟩ := hin i hi
  have hpos := hdone.pos i hi
  obtain ⟨hs, he, hlt⟩ := numbers_of_fits hbs h0 hpos hfits
  obtain ⟨hs1, hs2, -⟩ := startBlock_spec hbs h0
  obtain ⟨he1, he2, -⟩ := endBlock_spec hbs h0 hpos
  rw [rangeBytes, hs, he]
  constructor
  · intro hsub
    refine ⟨?_, ?_⟩
    · by_contra hdvd
      have hne : startBlock bs i * bs ≠ i.start := fun heq => hdvd ⟨_, by rw [← heq, mul_comm]⟩
      refine notMem_bytes_before hdone hi (hsub ⟨?_, lt_min ?_ ?_⟩)
      · omega
      · omega
      · omega
    · by_contra hboth
      obtain ⟨hdvd, hsz⟩ := not_or.mp hboth
      have hne : endBlock bs i * bs ≠ i.getEnd := fun heq => hdvd ⟨_, by rw [← heq, mul_comm]⟩
      refine notMem_bytes_behind hdone hi (hsub ⟨?_, lt_min ?_ ?_⟩)
      · omega
      · omega
      · omega
  · intro haligned x hx
    obtain ⟨hstart, hend⟩ := haligned
    refine ⟨i, hi, (startBlock_mul h0 hstart) ▸ hx.1, ?_⟩
    rcases hend with hend | hend
    · obtain ⟨k, hk⟩ := hend
      -- the block after the last one is the one the segment ends at
      have hle : endBlock bs i ≤ k := by
        have hk' : (endBlock bs i - 1) * bs < k * bs := by
          rw [mul_comm k]
          exact hk ▸ he2
        exact Int.le_of_sub_one_lt (lt_of_mul_lt_mul_right hk' hbs.le)
      refine lt_of_lt_of_le (lt_of_lt_of_le hx.2 (min_le_right _ _)) ?_
      rw [hk, mul_comm bs]
      exact mul_le_mul_of_nonneg_right hle hbs.le
    · exact hend ▸ lt_of_lt_of_le hx.2 (min_le_left _ _)

theorem emitted_pairwise (bs : Int) (hdone : IsCanonical q.done.toList) :
    (q.fitting bs ++ q.wrapping bs).Pairwise fun i j => i.getEnd < j.start := by
  rw [← emitted_split]
  exact hdone.gap.sublist (List.take_sublist _ _)

theorem mem_fitting (h : i ∈ q.fitting bs) : i ∈ q.done.toList ∧ Fits bs i :=
  ⟨mem_of_emitted (by rw [emitted_split]; exact List.mem_append_left _ h),
    of_decide_eq_true (@List.mem_takeWhile_imp _ (fun i => decide (Fits bs i)) _ _ h)⟩

theorem mem_wrapping (h : i ∈ q.wrapping bs) : i ∈ q.done.toList :=
  mem_of_emitted (by rw [emitted_split]; exact List.mem_append_right _ h)

theorem head_wrapping (h : i ∈ (q.wrapping bs).head?) : i ∈ q.wrapping bs ∧ ¬ Fits bs i := by
  have hne : q.wrapping bs ≠ [] := by
    intro hnil
    rw [hnil] at h
    cases h
  have hhead : (q.wrapping bs).head hne = i := by
    rw [List.head?_eq_some_head hne] at h
    exact Option.some.inj h
  refine ⟨hhead ▸ List.head_mem hne, ?_⟩
  have hfalse := List.head_dropWhile_not (fun i => decide (Fits bs i)) hne
  exact of_decide_eq_false (hhead ▸ hfalse)

/-- A finished segment below the first one that does not fit has numbers that fit. -/
theorem mem_fitting_of_start_lt (hdone : IsCanonical q.done.toList)
    (hh : h ∈ (q.wrapping bs).head?) (hi : i ∈ q.done.toList) (hlt : i.start < h.start) :
    i ∈ q.fitting bs := by
  obtain ⟨post, hpost⟩ : ∃ post, q.wrapping bs = h :: post := List.head?_eq_some_iff.mp hh
  have hsplit : q.done.toList = q.fitting bs ++ h :: (post ++ q.done.toList.drop 255) := by
    rw [← List.cons_append, ← hpost, ← List.append_assoc, ← emitted_split]
    exact (List.take_append_drop 255 _).symm
  rw [hsplit] at hdone hi
  obtain ⟨-, hcanonical, -⟩ := canonical_append.mp hdone
  obtain ⟨hpos, -, hgap⟩ := canonical_cons.mp hcanonical
  rcases List.mem_append.mp hi with hi | hi
  · exact hi
  · rcases List.mem_cons.mp hi with rfl | hi
    · exact absurd hlt (lt_irrefl _)
    · exact absurd (lt_trans hlt (lt_trans hpos (hgap i hi))) (lt_irrefl _)

/-- From the first segment that does not fit on, every number lies inside that segment. -/
theorem range_wrapping (hbs : 0 < bs) (hdone : IsCanonical q.done.toList)
    (hin : Inside q.size q.done.toList) (hb : q.Blockwise bs) (hh : h ∈ (q.wrapping bs).head?)
    (hj : j ∈ q.wrapping bs) :
    ((blockNumbers bs h).1 : Int) = startBlock bs h ∧
      (blockNumbers bs h).1 ≤ (blockNumbers bs j).1 ∧
      rangeBytes q.size bs (blockNumbers bs j) ⊆ Set.Ico h.start h.getEnd := by
  obtain ⟨hmem, hwide⟩ := head_wrapping hh
  obtain ⟨h0, -⟩ := hin h (mem_wrapping hmem)
  obtain ⟨hdvd, hlow⟩ := hb.first h hh
  obtain ⟨-, -, hs0⟩ := startBlock_spec hbs h0
  have hnumber : ((blockNumbers bs h).1 : Int) = startBlock bs h := toUInt16_of_lt hs0 hlow
  have hle : (blockNumbers bs h).1 ≤ (blockNumbers bs j).1 := by
    obtain ⟨post, hpost⟩ : ∃ post, q.wrapping bs = h :: post := List.head?_eq_some_iff.mp hh
    have hsorted := hb.sorted
    rw [hpost] at hsorted hj
    rcases List.mem_cons.mp hj with rfl | hj
    · exact le_rfl
    · exact le_trans (hb.nonempty h hmem).le ((List.pairwise_cons.mp hsorted).1 j hj)
  refine ⟨hnumber, hle, fun x hx => ⟨?_, ?_⟩⟩
  · rw [← startBlock_mul h0 hdvd, ← hnumber]
    exact le_trans (mul_le_mul_of_nonneg_right (Int.ofNat_le.mpr hle) hbs.le) hx.1
  · -- the numbers end before the block that the first segment reaches
    have hnum : ((blockNumbers bs j).2 : Int) ≤ 65535 := Int.le_of_lt_add_one (toUInt16_lt _)
    have hblock : 65536 ≤ endBlock bs h := not_lt.mp hwide
    have hx2 : x < 65535 * bs :=
      lt_of_lt_of_le (lt_of_lt_of_le hx.2 (min_le_right _ _))
        (mul_le_mul_of_nonneg_right hnum hbs.le)
    have hpos : 0 ≤ h.getEnd - 1 := by
      have := hdone.pos h (mem_wrapping hmem)
      omega
    have hdiv : 65535 ≤ (h.getEnd - 1) / bs := by
      rw [endBlock, Int.tdiv_eq_ediv_of_nonneg hpos] at hblock
      omega
    have hend := (Int.le_ediv_iff_mul_le hbs).mp hdiv
    omega

/-- **What is advertised is finished exactly when the segments are made of blocks**, the numbers
    of which fit or happen to go on increasing. -/
theorem getPartialInfo_truthful_iff (hbs : 0 < bs) (hdone : IsCanonical q.done.toList)
    (hin : Inside q.size q.done.toList) :
    q.Truthful bs (q.getPartialInfo bs) ↔ q.Blockwise bs := by
  have hnumbers : pairs (q.getPartialInfo bs) =
      (q.fitting bs ++ q.wrapping bs).map (blockNumbers bs) := by
    rw [pairs_getPartialInfo, emitted_split]
  have hgap := emitted_pairwise bs hdone
  constructor
  · intro htrue
    have hnonempty := htrue.nonempty
    have hsorted := htrue.sorted
    have hcovered := htrue.covered
    rw [hnumbers] at hnonempty hsorted hcovered
    rw [List.pairwise_map] at hsorted
    have hof : ∀ i ∈ q.fitting bs ++ q.wrapping bs,
        blockNumbers bs i ∈ (q.fitting bs ++ q.wrapping bs).map (blockNumbers bs) :=
      fun i hi => List.mem_map_of_mem hi
    refine ⟨?_, ?_, ?_, ?_⟩
    · intro i hi
      obtain ⟨hmem, hfits⟩ := mem_fitting hi
      exact (range_fits hbs hdone hin hmem hfits).mp
        (hcovered _ (hof i (List.mem_append_left _ hi)))
    · intro h hh
      obtain ⟨hmem, hwide⟩ := head_wrapping hh
      have hmem' := mem_wrapping hmem
      obtain ⟨h0, hsize⟩ := hin h hmem'
      have hpos := hdone.pos h hmem'
      obtain ⟨hs1, hs2, hs0⟩ := startBlock_spec hbs h0
      have hcov := hcovered _ (hof h (List.mem_append_right _ hmem))
      have hlt := hnonempty _ (hof h (List.mem_append_right _ hmem))
      have hlow : startBlock bs h < 65536 := by
        by_contra hhigh
        -- the first block of the range lies in a segment below, whose range ends behind it
        have hnum := toUInt16_lt (startBlock bs h)
        have hfirst : ((blockNumbers bs h).1 : Int) * bs < h.start :=
          lt_of_lt_of_le (mul_lt_mul_of_pos_right (lt_of_lt_of_le hnum (not_lt.mp hhigh)) hbs) hs1
        obtain ⟨g, hg, hlo, hhi⟩ := hcov ⟨le_rfl, lt_min (by omega)
          (mul_lt_mul_of_pos_right (Int.ofNat_lt.mpr hlt) hbs)⟩
        have hgfit := mem_fitting_of_start_lt hdone hh hg (lt_of_le_of_lt hlo hfirst)
        obtain ⟨-, hfits⟩ := mem_fitting hgfit
        obtain ⟨hg0, -⟩ := hin g hg
        obtain ⟨-, he, -⟩ := numbers_of_fits hbs hg0 (hdone.pos g hg) hfits
        obtain ⟨hge, -, -⟩ := endBlock_spec hbs hg0 (hdone.pos g hg)
        have hle := (List.pairwise_append.mp hsorted).2.2 g hgfit h hmem
        have hmul := mul_le_mul_of_nonneg_right (Int.ofNat_le.mpr hle) hbs.le
        rw [he] at hmul
        omega
      refine ⟨?_, hlow⟩
      by_contra hdvd
      have hne : startBlock bs h * bs ≠ h.start := fun heq => hdvd ⟨_, by rw [← heq, mul_comm]⟩
      have hnumber : ((blockNumbers bs h).1 : Int) = startBlock bs h := toUInt16_of_lt hs0 hlow
      refine notMem_bytes_before hdone hmem' (hcov ⟨?_, lt_min ?_ ?_⟩)
      · rw [hnumber]
        omega
      · omega
      · have hnext : startBlock bs h + 1 ≤ ((blockNumbers bs h).2 : Int) := by
          rw [← hnumber]
          exact Int.ofNat_lt.mpr hlt
        have hmul := mul_le_mul_of_nonneg_right hnext hbs.le
        omega
    · exact fun i hi => hnonempty _ (hof i (List.mem_append_right _ hi))
    · exact (List.pairwise_append.mp hsorted).2.1
  · intro hb
    have hexact : ∀ i ∈ q.fitting bs, ((blockNumbers bs i).1 : Int) = startBlock bs i ∧
        ((blockNumbers bs i).2 : Int) = endBlock bs i ∧ startBlock bs i < endBlock bs i := by
      intro i hi
      obtain ⟨hmem, hfits⟩ := mem_fitting hi
      exact numbers_of_fits hbs (hin i hmem).1 (hdone.pos i hmem) hfits
    refine ⟨?_, ?_, ?_, ?_⟩
    · rw [hnumbers]
      intro p hp
      obtain ⟨i, hi, rfl⟩ := List.mem_map.mp hp
      rcases List.mem_append.mp hi with hi | hi
      · obtain ⟨hs, he, hlt⟩ := hexact i hi
        omega
      · exact hb.nonempty i hi
    · rw [hnumbers, List.pairwise_map, List.pairwise_append]
      obtain ⟨hgapf, -, hgapw⟩ := List.pairwise_append.mp hgap
      -- a segment made of blocks ends before the first block of a later one
      have hbefore : ∀ i ∈ q.fitting bs, ∀ j ∈ q.done.toList, i.getEnd < j.start →
          endBlock bs i ≤ startBlock bs j := by
        intro i hi j hj hlt
        obtain ⟨hmem, -⟩ := mem_fitting hi
        obtain ⟨h0, hsize⟩ := hin i hmem
        obtain ⟨hj0, hjsize⟩ := hin j hj
        have hjpos := hdone.pos j hj
        obtain ⟨-, he2, -⟩ := endBlock_spec hbs h0 (hdone.pos i hmem)
        obtain ⟨-, hs2, -⟩ := startBlock_spec hbs hj0
        have hmul : (endBlock bs i - 1) * bs < (startBlock bs j + 1) * bs := by omega
        obtain ⟨-, hend | hend⟩ := hb.aligned i hi
        · obtain ⟨k, hk⟩ := hend
          have hik : endBlock bs i - 1 < k := by
            refine lt_of_mul_lt_mul_right ?_ hbs.le
            rw [mul_comm k, ← hk]
            exact he2
          have hkj : k < startBlock bs j + 1 := by
            refine lt_of_mul_lt_mul_right (lt_trans ?_ hs2) hbs.le
            rw [mul_comm k, ← hk]
            exact hlt
          omega
        · omega
      refine ⟨hgapf.imp_of_mem fun {i j} hi hj hlt => ?_, hb.sorted, fun i hi j hj => ?_⟩
      · obtain ⟨-, he, -⟩ := hexact i hi
        obtain ⟨hs, -, -⟩ := hexact j hj
        have := hbefore i hi j (mem_fitting hj).1 hlt
        omega
      · obtain ⟨h, hh⟩ : ∃ h, h ∈ (q.wrapping bs).head? := by
          obtain ⟨h, hh⟩ := List.exists_mem_of_ne_nil _ (List.ne_nil_of_mem hj)
          exact ⟨_, List.head?_eq_some_head (List.ne_nil_of_mem hj)⟩
        obtain ⟨hnumber, hle, -⟩ := range_wrapping hbs hdone hin hb hh hj
        obtain ⟨-, he, -⟩ := hexact i hi
        have hmem := (head_wrapping hh).1
        have := hbefore i hi h (mem_wrapping hmem) (hgapw i hi h hmem)
        omega
    · rw [pairs_getPartialInfo, List.length_map, emitted, List.length_take]
      exact min_le_left _ _
    · rw [hnumbers]
      intro p hp
      obtain ⟨i, hi, rfl⟩ := List.mem_map.mp hp
      rcases List.mem_append.mp hi with hi | hi
      · obtain ⟨hmem, hfits⟩ := mem_fitting hi
        exact (range_fits hbs hdone hin hmem hfits).mpr (hb.aligned i hi)
      · intro x hx
        have hhead := List.head?_eq_some_head (List.ne_nil_of_mem hi)
        obtain ⟨-, -, hsub⟩ := range_wrapping hbs hdone hin hb hhead hi
        exact ⟨_, mem_wrapping (head_wrapping hhead).1, hsub hx⟩

/-- The first block begins before the finished segment does. -/
theorem getPartialInfo_rounds_outwards :
    ¬ ∀ (q : QueueItem) (bs : Int), 0 < bs → IsCanonical q.done.toList →
      Inside q.size q.done.toList → q.Truthful bs (q.getPartialInfo bs) := by
  intro h
  have hlist : (OrderedSet.empty.insert (⟨10, 90⟩ : Segment)).toList = [⟨10, 90⟩] := rfl
  have htrue := h { sample 1000 with done := OrderedSet.empty.insert ⟨10, 90⟩ } 64 (by decide)
    (by rw [hlist]; exact canonical_cons.mpr ⟨by decide, Canonical.nil, by simp⟩)
    (by rw [hlist]; simp [Inside, Segment.getEnd, sample, create])
  obtain ⟨g, hg, hlo, -⟩ := htrue.covered (0, 2) (by decide) (show (0 : Int) ∈ _ by
    simp [rangeBytes, sample, create])
  obtain rfl : g = ⟨10, 90⟩ := List.mem_singleton.mp hg
  exact absurd hlo (by decide)

theorem getPartialInfo_truthful_iff_finished :
    finishedSample.Truthful 64 (finishedSample.getPartialInfo 64) ↔
      finishedSample.Blockwise 64 :=
  getPartialInfo_truthful_iff (by decide) canonical_finishedSample fun s hs => by
    obtain rfl : s = ⟨0, 100⟩ := List.mem_singleton.mp hs
    decide

end Truth

end QueueItem
end Airdcpp
