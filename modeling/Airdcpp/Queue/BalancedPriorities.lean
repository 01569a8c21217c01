import Airdcpp.Core.Types
import Airdcpp.Lib.ListOps
import Airdcpp.Lib.Ranks

/-!
# `Queue/BalancedPriorities` — priorities by speed and sources

Items with few and slow sources get a higher priority. The speeds and the numbers of sources are
scaled to each other, the items are sorted by the points this gives, and the sorted items are cut
into three groups.

The items are keys of a map, so their addresses decide in which order they come. `max_element`
compares the keys of the map as well: what it finds is the last item and not the greatest speed, and
the scale is taken from this item.
-/

namespace Airdcpp

open Lib Lib.Ranks

/-- The speed and the number of sources of an item. -/
structure PrioInfo where
  speed : Int
  sources : ℚ
deriving DecidableEq

namespace BalancedPriorities

variable {T : Type*}

/-! ## The calculation -/

structure Factors where
  speed : ℚ
  sources : ℚ

/-- The scale that is taken from what `max_element` finds. -/
def factors (max : PrioInfo) : Factors where
  speed := if 0 < max.speed then 100 / max.speed else 0
  sources := if 0 < max.sources then 100 / max.sources else 0

def points (factor : Factors) (info : PrioInfo) : ℚ :=
  info.speed * factor.speed + info.sources * factor.sources

/-- `emplace` of a `multimap` -/
def emplace (finalMap : List (ℚ × T)) (e : ℚ × T) : List (ℚ × T) :=
  insertAt (upperBound (fun a b => decide (a.1 < b.1)) e finalMap) e finalMap

/-- `finalMap` and `uniqueValues` -/
def collect (factor : Factors) (speedSourceMap : List (T × PrioInfo)) : List (ℚ × T) × Nat :=
  speedSourceMap.foldl (fun (finalMap, uniqueValues) (item, speedSourcePair) =>
    let p := points factor speedSourcePair
    (emplace finalMap (p, item),
      if finalMap.any (fun e => e.1 == p) then uniqueValues else uniqueValues + 1)) ([], 0)

/-- `prio` is the value of the enumerator. -/
structure Grouping where
  prio : Int := Priority.high.toInt
  lastPoints : ℚ := 999
  prioSet : Nat := 0

def Grouping.next (prioGroup : Nat) (s : Grouping) (points : ℚ) : Grouping :=
  if s.lastPoints = points then
    { s with prioSet := if s.prioSet < prioGroup then s.prioSet + 1 else s.prioSet }
  else
    -- all priorities are set from this group, but it does not go below low
    if s.prioSet = prioGroup ∧ s.prio ≠ Priority.low.toInt then
      { prio := s.prio - 1, prioSet := 1, lastPoints := points }
    else { s with prioSet := s.prioSet + 1, lastPoints := points }

def Grouping.newItemPrio (s : Grouping) : Priority := (Priority.ofInt? s.prio).getD .default

/-- The loop over `finalMap`. -/
def assign (prioGroup : Nat) (s : Grouping) : List (ℚ × T) → List (T × Priority)
  | [] => []
  | (points, item) :: rest =>
    let s := s.next prioGroup points
    (item, s.newItemPrio) :: assign prioGroup s rest

variable (getPriority : T → Priority)

/-- The map is a list in the order of its keys. The greatest of its pairs is the last one. -/
def calculateBalancedPriorities (speedSourceMap : List (T × PrioInfo)) : List (T × Priority) :=
  match speedSourceMap.getLast? with
  | none => []
  | some (_, max) =>
    let (finalMap, uniqueValues) := collect (factors max) speedSourceMap
    if uniqueValues ≤ 1 then []
    else
      let prioGroup := if uniqueValues > 2 then uniqueValues / 3 else 1
      (assign prioGroup {} finalMap).filter fun (item, prio) => getPriority item ≠ prio

/-- The priority of an item after the new ones are set. -/
def priorityAfter [DecidableEq T] (speedSourceMap : List (T × PrioInfo)) (item : T) : Priority :=
  ((calculateBalancedPriorities getPriority speedSourceMap).lookup item).getD (getPriority item)

/-! ## The groups -/

/-- The size of a group, which equal points may exceed. -/
def groupSize (all : List ℚ) : Nat := if distinct all > 2 then distinct all / 3 else 1

/-- The priority for points: the first group, the second group, or what is left. -/
def third (all : List ℚ) (g : Nat) (x : ℚ) : Priority :=
  if below all x < g then .high
  else if below all x < groupEnd all g 1 + g then .normal
  else .low

/-- The points of all items when the scale is taken from one of them. -/
def pointsBy (items : List (T × PrioInfo)) (max : PrioInfo) : List ℚ :=
  items.map fun e => points (factors max) e.2

/-- The priority an item has then. Nothing changes when all points are the same. -/
def priorityBy (items : List (T × PrioInfo)) (max : PrioInfo) (e : T × PrioInfo) : Priority :=
  let all := pointsBy items max
  if distinct all ≤ 1 then getPriority e.1
  else third all (groupSize all) (points (factors max) e.2)

/-! ## The loop -/

section Loop

variable {all pre post : List ℚ} {g : Nat} {x : ℚ} {s : Grouping}

/-- What is known after the values in `pre`, the last of which is `x`. -/
structure Inv (all : List ℚ) (g : Nat) (pre : List ℚ) (x : ℚ) (s : Grouping) : Prop where
  lastPoints : s.lastPoints = x
  prio : s.prio = (third all g x).toInt
  high : below all x < g → s.prioSet = min g pre.length
  normal : ¬ below all x < g → below all x < groupEnd all g 1 + g →
    groupEnd all g 1 ≤ pre.length ∧ s.prioSet = min g (pre.length - groupEnd all g 1)

theorem third_high (h : below all x < g) : third all g x = .high := if_pos h

theorem third_normal (h : ¬ below all x < g) (h' : below all x < groupEnd all g 1 + g) :
    third all g x = .normal := by rw [third, if_neg h, if_pos h']

theorem third_low (h : ¬ below all x < g) (h' : ¬ below all x < groupEnd all g 1 + g) :
    third all g x = .low := by rw [third, if_neg h, if_neg h']

theorem inv_first (hg : 0 < g) (hall : all = x :: post)
    (hpost : ∀ y ∈ post, x ≤ y) : Inv all g [x] x (({} : Grouping).next g x) := by
  have hbelow : below all x = 0 := by
    rw [hall]
    show below ([] ++ x :: post) x = 0
    exact below_eq_length (by simp) (List.forall_mem_cons.mpr ⟨le_rfl, hpost⟩)
  have hhigh : below all x < g := hbelow ▸ hg
  have hone : min g [x].length = 1 := min_eq_right hg
  rw [Grouping.next]
  by_cases hlast : (999 : ℚ) = x
  · refine ⟨?_, ?_, fun _ => ?_, fun hn => absurd hhigh hn⟩
    · rw [if_pos hlast]
      exact hlast
    · rw [if_pos hlast, third_high hhigh]
    · rw [if_pos hlast, hone]
      exact if_pos hg
  · have hne : ¬ (0 = g ∧ Priority.high.toInt ≠ Priority.low.toInt) := fun h => hg.ne h.1
    refine ⟨?_, ?_, fun _ => ?_, fun hn => absurd hhigh hn⟩
    · rw [if_neg hlast, if_neg hne]
    · rw [if_neg hlast, if_neg hne, third_high hhigh]
    · rw [if_neg hlast, if_neg hne, hone]

/-- Another item with the same points. -/
theorem inv_same (h : Inv all g pre x s) : Inv all g (pre ++ [x]) x (s.next g x) := by
  have hnext : s.next g x =
      { s with prioSet := if s.prioSet < g then s.prioSet + 1 else s.prioSet } :=
    if_pos h.lastPoints
  rw [hnext]
  refine ⟨h.lastPoints, h.prio, fun hhigh => ?_, fun hhigh hnormal => ?_⟩
  · have hset := h.high hhigh
    rw [List.length_append, List.length_singleton]
    show (if s.prioSet < g then _ else _) = _
    split <;> omega
  · obtain ⟨hle, hset⟩ := h.normal hhigh hnormal
    rw [List.length_append, List.length_singleton]
    refine ⟨by omega, ?_⟩
    show (if s.prioSet < g then _ else _) = _
    split <;> omega

theorem next_full {y : ℚ} (hlast : s.lastPoints ≠ y) (hset : s.prioSet = g)
    (hprio : s.prio ≠ Priority.low.toInt) :
    s.next g y = { prio := s.prio - 1, prioSet := 1, lastPoints := y } := by
  rw [Grouping.next, if_neg hlast, if_pos ⟨hset, hprio⟩]

theorem next_open {y : ℚ} (hlast : s.lastPoints ≠ y)
    (h : s.prioSet ≠ g ∨ s.prio = Priority.low.toInt) :
    s.next g y = { s with prioSet := s.prioSet + 1, lastPoints := y } := by
  rw [Grouping.next, if_neg hlast, if_neg]
  rintro ⟨hset, hprio⟩
  rcases h with h | h
  · exact h hset
  · exact hprio h

/-- The next value is greater. -/
theorem inv_greater {y : ℚ} (hg : 0 < g) (h : Inv all g pre x s) (hlt : x < y)
    (hall : all = pre ++ y :: post) (hpre : ∀ z ∈ pre, z ≤ x) (hpost : ∀ z ∈ post, y ≤ z) :
    Inv all g (pre ++ [y]) y (s.next g y) := by
  have hpost' : ∀ z ∈ y :: post, y ≤ z := List.forall_mem_cons.mpr ⟨le_rfl, hpost⟩
  have hbelow : below all y = pre.length := by
    rw [hall]
    exact below_eq_length (fun z hz => lt_of_le_of_lt (hpre z hz) hlt) hpost'
  have hmono : below all x ≤ pre.length := hbelow ▸ below_mono hlt.le
  have hlast : s.lastPoints ≠ y := by
    rw [h.lastPoints]
    exact hlt.ne
  have hlength : (pre ++ [y]).length = pre.length + 1 := List.length_append
  by_cases hhigh : below all x < g
  · have hset := h.high hhigh
    have hprio : s.prio = 5 := by
      rw [h.prio, third_high hhigh]
      rfl
    by_cases hfull : g ≤ pre.length
    · -- the first group ends before this value
      have hend : groupEnd all g 1 = pre.length := by
        refine groupEnd_eq_length hall (fun z hz => ?_) fun z hz => ?_
        · rw [groupEnd, Nat.zero_add]
          exact lt_of_le_of_lt (below_mono (hpre z hz)) hhigh
        · have hz' : below all y ≤ below all z := below_mono (hpost' z hz)
          rw [groupEnd, Nat.zero_add, not_lt]
          exact le_trans (hbelow ▸ hfull) hz'
      have hnot : ¬ below all y < g := by omega
      have hnormal : below all y < groupEnd all g 1 + g := by omega
      rw [next_full hlast (by omega) (by rw [hprio]; decide)]
      refine ⟨rfl, ?_, fun hn => absurd hn hnot, fun _ _ => ⟨by omega, ?_⟩⟩
      · rw [third_normal hnot hnormal, hprio]
        rfl
      · show 1 = _
        omega
    · have hhigh' : below all y < g := by omega
      rw [next_open hlast (.inl (by omega))]
      refine ⟨rfl, ?_, fun _ => ?_, fun hn => absurd hhigh' hn⟩
      · rw [third_high hhigh', hprio]
        rfl
      · show s.prioSet + 1 = _
        omega
  · have hnot : ¬ below all y < g := by omega
    by_cases hmiddle : below all x < groupEnd all g 1 + g
    · obtain ⟨hle, hset⟩ := h.normal hhigh hmiddle
      have hprio : s.prio = 4 := by
        rw [h.prio, third_normal hhigh hmiddle]
        rfl
      by_cases hfull : groupEnd all g 1 + g ≤ pre.length
      · have hlow : ¬ below all y < groupEnd all g 1 + g := by omega
        rw [next_full hlast (by omega) (by rw [hprio]; decide)]
        refine ⟨rfl, ?_, fun hn => absurd hn hnot, fun _ hn => absurd hn hlow⟩
        rw [third_low hnot hlow, hprio]
        rfl
      · have hnormal : below all y < groupEnd all g 1 + g := by omega
        rw [next_open hlast (.inl (by omega))]
        refine ⟨rfl, ?_, fun hn => absurd hn hnot, fun _ _ => ⟨by omega, ?_⟩⟩
        · rw [third_normal hnot hnormal, hprio]
          rfl
        · show s.prioSet + 1 = _
          omega
    · have hlow : ¬ below all y < groupEnd all g 1 + g := by omega
      have hprio : s.prio = Priority.low.toInt := by rw [h.prio, third_low hhigh hmiddle]
      rw [next_open hlast (.inr hprio)]
      refine ⟨rfl, ?_, fun hn => absurd hn hnot, fun _ hn => absurd hn hlow⟩
      rw [third_low hnot hlow]
      exact hprio

/-- The loop before its first value, or after the values in `pre`. -/
def Ready (all : List ℚ) (g : Nat) (pre : List ℚ) (s : Grouping) : Prop :=
  pre = [] ∧ s = {} ∨ ∃ x ∈ pre, (∀ z ∈ pre, z ≤ x) ∧ Inv all g pre x s

theorem inv_next {y : ℚ} (hg : 0 < g) (h : Ready all g pre s) (hall : all = pre ++ y :: post)
    (hsorted : all.Pairwise (· ≤ ·)) : Inv all g (pre ++ [y]) y (s.next g y) := by
  rw [hall] at hsorted
  obtain ⟨-, hback, hcross⟩ := List.pairwise_append.mp hsorted
  have hpost := (List.pairwise_cons.mp hback).1
  rcases h with ⟨rfl, rfl⟩ | ⟨x, hx, hmax, hinv⟩
  · exact inv_first hg hall hpost
  · rcases eq_or_lt_of_le (hcross x hx y List.mem_cons_self) with rfl | hlt
    · exact inv_same hinv
    · exact inv_greater hg hinv hlt hall hmax hpost

theorem newItemPrio_eq (h : Inv all g pre x s) : s.newItemPrio = third all g x := by
  rw [Grouping.newItemPrio, h.prio, Priority.ofInt?_toInt]
  rfl

/-- **The priority of each item is that of the group its points are in.** -/
theorem assign_eq {rest : List (ℚ × T)} (hg : 0 < g) (hall : all = pre ++ rest.map Prod.fst)
    (hsorted : all.Pairwise (· ≤ ·)) (h : Ready all g pre s) :
    assign g s rest = rest.map fun e => (e.2, third all g e.1) := by
  induction rest generalizing pre s with
  | nil => rfl
  | cons e rest ih =>
    have hinv := inv_next hg h hall hsorted
    have hready : Ready all g (pre ++ [e.1]) (s.next g e.1) := by
      refine .inr ⟨e.1, by simp, ?_, hinv⟩
      rw [hall] at hsorted
      intro z hz
      rcases List.mem_append.mp hz with hz | hz
      · exact (List.pairwise_append.mp hsorted).2.2 z hz e.1 List.mem_cons_self
      · exact (List.mem_singleton.mp hz).le
    rw [assign, newItemPrio_eq hinv, ih (by rw [hall]; simp) hready, List.map_cons]

end Loop

/-! ## The map of points -/

section Collect

variable {factor : Factors} {l : List (ℚ × T)} {e : ℚ × T} {m : List (T × PrioInfo)}

theorem emplace_sorted (h : (l.map Prod.fst).Pairwise (· ≤ ·)) :
    ((emplace l e).map Prod.fst).Pairwise (· ≤ ·) := by
  rw [List.pairwise_map] at *
  have hiff : ∀ a b : ℚ × T, ¬ decide (b.1 < a.1) = true ↔ a.1 ≤ b.1 := by
    intro a b
    rw [decide_eq_true_eq, not_lt]
  have hsorted := @insertAt_upperBound_sorted _ (fun a b : ℚ × T => decide (a.1 < b.1)) e l ?_ ?_
    (h.imp fun {a b} hab => (hiff a b).mpr hab)
  · exact hsorted.imp fun {a b} hab => (hiff a b).mp hab
  · intro a b hab hba
    rw [decide_eq_true_eq] at hab hba
    exact lt_asymm hab hba
  · intro a b hea hba
    rw [decide_eq_true_eq] at *
    exact lt_of_lt_of_le hea (not_lt.mp hba)

theorem emplace_perm : (emplace l e).Perm (e :: l) := insertAt_perm

theorem collect_spec (factor : Factors) (m : List (T × PrioInfo)) :
    ((collect factor m).1.map Prod.fst).Pairwise (· ≤ ·) ∧
      (collect factor m).1.Perm (m.map fun e => (points factor e.2, e.1)) ∧
      (collect factor m).2 = distinct (m.map fun e => points factor e.2) := by
  induction m using List.reverseRecOn with
  | nil => exact ⟨List.Pairwise.nil, List.Perm.nil, rfl⟩
  | append_singleton m e ih =>
    obtain ⟨hsorted, hperm, hunique⟩ := ih
    have hcollect : collect factor (m ++ [e]) =
        (emplace (collect factor m).1 (points factor e.2, e.1),
          if (collect factor m).1.any (fun x => x.1 == points factor e.2) then (collect factor m).2
          else (collect factor m).2 + 1) := by
      rw [collect, List.foldl_append]
      rfl
    rw [hcollect]
    refine ⟨emplace_sorted hsorted, ?_, ?_⟩
    · rw [List.map_append]
      exact emplace_perm.trans ((hperm.cons _).trans (List.perm_append_singleton _ _).symm)
    · have hmem : (collect factor m).1.any (fun x => x.1 == points factor e.2) = true ↔
          points factor e.2 ∈ m.map fun x => points factor x.2 := by
        simp [List.any_eq_true, hperm.mem_iff]
      rw [distinct_perm (l := points factor e.2 :: m.map fun x => points factor x.2)
        (by rw [List.map_append]; exact List.perm_append_singleton _ _), hunique]
      simp only [hmem]
      split
      · rename_i hin
        rw [distinct, distinct, List.dedup_cons_of_mem hin]
      · rename_i hout
        rw [distinct, distinct, List.dedup_cons_of_notMem hout, List.length_cons]

end Collect

/-! ## What the items get -/

section Result

variable {getPriority : T → Priority} {all l : List ℚ} {items m : List (T × PrioInfo)}
  {e a b : T × PrioInfo} {max : PrioInfo} {k : T}

theorem groupSize_pos (all : List ℚ) : 0 < groupSize all := by
  rw [groupSize]
  split <;> omega

theorem third_perm (h : all.Perm l) (g : Nat) (x : ℚ) : third all g x = third l g x := by
  rw [third, third, below_perm h, groupEnd_perm h]

theorem groupSize_perm (h : all.Perm l) : groupSize all = groupSize l := by
  rw [groupSize, groupSize, distinct_perm h]

theorem priorityBy_perm (h : m.Perm items) :
    priorityBy getPriority m max e = priorityBy getPriority items max e := by
  have hall : (pointsBy m max).Perm (pointsBy items max) := h.map _
  simp only [priorityBy, third_perm hall, groupSize_perm hall, distinct_perm hall]

theorem calculate_eq (hlast : m.getLast? = some (k, max)) :
    calculateBalancedPriorities getPriority m =
      if distinct (pointsBy m max) ≤ 1 then []
      else ((collect (factors max) m).1.map fun x =>
        (x.2, third (pointsBy m max) (groupSize (pointsBy m max)) x.1)).filter
          fun x => getPriority x.1 ≠ x.2 := by
  obtain ⟨hsorted, hperm, hunique⟩ := collect_spec (factors max) m
  have hall : ((collect (factors max) m).1.map Prod.fst).Perm (pointsBy m max) := by
    have := hperm.map Prod.fst
    rwa [List.map_map] at this
  simp only [calculateBalancedPriorities, hlast, hunique]
  rw [← pointsBy, ← groupSize,
    assign_eq (groupSize_pos _) (List.nil_append _).symm hsorted (.inl ⟨rfl, rfl⟩)]
  simp only [third_perm hall]

/-- Every item ends with the priority of its group. -/
theorem priorityAfter_eq [DecidableEq T] (hkeys : (m.map Prod.fst).Nodup)
    (hlast : m.getLast? = some (k, max)) (he : e ∈ m) :
    priorityAfter getPriority m e.1 = priorityBy getPriority m max e := by
  rw [priorityAfter, calculate_eq hlast, priorityBy]
  by_cases hdistinct : distinct (pointsBy m max) ≤ 1
  · rw [if_pos hdistinct]
    simp [hdistinct]
  · rw [if_neg hdistinct]
    simp only [hdistinct, if_false]
    generalize hthird : third (pointsBy m max) (groupSize (pointsBy m max)) = prio
    obtain ⟨-, hperm, -⟩ := collect_spec (factors max) m
    set l := (collect (factors max) m).1.map fun x => (x.2, prio x.1) with hl
    have hnodup : (l.map Prod.fst).Nodup := by
      have hmap : l.map Prod.fst = (collect (factors max) m).1.map Prod.snd := by
        rw [hl, List.map_map]
        rfl
      rw [hmap, (hperm.map Prod.snd).nodup_iff, List.map_map]
      exact hkeys
    have hmem : (e.1, prio (points (factors max) e.2)) ∈ l :=
      List.mem_map.mpr ⟨(points (factors max) e.2, e.1),
        hperm.mem_iff.mpr (List.mem_map.mpr ⟨e, he, rfl⟩), rfl⟩
    have hfilter : ((l.filter fun x => getPriority x.1 ≠ x.2).map Prod.fst).Nodup :=
      hnodup.sublist (List.filter_sublist.map _)
    by_cases hsame : getPriority e.1 = prio (points (factors max) e.2)
    · rw [lookup_eq_none_of_ne, Option.getD_none, hsame]
      intro x hx hk
      obtain ⟨hx, hne⟩ := List.mem_filter.mp hx
      rw [decide_eq_true_eq] at hne
      obtain rfl := List.inj_on_of_nodup_map hnodup hx hmem hk
      exact hne hsame
    · rw [(lookup_eq_some_iff_mem hfilter).mpr, Option.getD_some]
      exact List.mem_filter.mpr ⟨hmem, decide_eq_true hsame⟩

theorem mem_calculate {p : Priority} (h : (k, p) ∈ calculateBalancedPriorities getPriority m) :
    ∃ last ∈ m.getLast?, ∃ e ∈ m, e.1 = k ∧ 1 < distinct (pointsBy m last.2) ∧
      p = third (pointsBy m last.2) (groupSize (pointsBy m last.2))
        (points (factors last.2) e.2) := by
  cases hlast : m.getLast? with
  | none =>
    rw [calculateBalancedPriorities, hlast] at h
    cases h
  | some last =>
    rw [calculate_eq hlast] at h
    split at h
    · cases h
    · rename_i hdistinct
      obtain ⟨x, hx, heq⟩ := List.mem_map.mp (List.mem_of_mem_filter h)
      obtain ⟨-, hperm, -⟩ := collect_spec (factors last.2) m
      obtain ⟨e, he, rfl⟩ := List.mem_map.mp (hperm.mem_iff.mp hx)
      obtain ⟨rfl, rfl⟩ := Prod.mk.inj heq
      exact ⟨last, rfl, e, he, rfl, not_le.mp hdistinct, rfl⟩

/-- An item that is not in the map keeps its priority. -/
theorem priorityAfter_of_notMem [DecidableEq T] (hk : k ∉ m.map Prod.fst) :
    priorityAfter getPriority m k = getPriority k := by
  rw [priorityAfter, lookup_eq_none_of_ne, Option.getD_none]
  rintro ⟨k', p⟩ hx rfl
  obtain ⟨-, -, e, he, rfl, -⟩ := mem_calculate hx
  exact hk (List.mem_map_of_mem he)

theorem third_mono {g : Nat} {x y : ℚ} (h : x ≤ y) :
    (third all g y).toInt ≤ (third all g x).toInt := by
  have hmono : below all x ≤ below all y := below_mono h
  by_cases hx : below all x < g
  · rw [third_high hx, third]
    split_ifs <;> decide
  · have hy : ¬ below all y < g := by omega
    by_cases hx' : below all x < groupEnd all g 1 + g
    · rw [third_normal hx hx', third, if_neg hy]
      split_ifs <;> decide
    · have hy' : ¬ below all y < groupEnd all g 1 + g := by omega
      rw [third_low hx hx', third_low hy hy']

theorem third_cases (all : List ℚ) (g : Nat) (x : ℚ) :
    third all g x = .low ∨ third all g x = .normal ∨ third all g x = .high := by
  rw [third]
  split_ifs
  · exact .inr (.inr rfl)
  · exact .inr (.inl rfl)
  · exact .inl rfl

/-- Any item may be the last one. -/
theorem exists_last (ha : a ∈ items) :
    ∃ m : List (T × PrioInfo), m.Perm items ∧ m.getLast? = some a := by
  obtain ⟨pre, post, rfl⟩ := List.append_of_mem ha
  refine ⟨pre ++ post ++ [a], ?_, List.getLast?_concat⟩
  exact (List.perm_append_singleton _ _).trans List.perm_middle.symm

/-- **The priorities do not depend on the order of the items exactly when the scales of any two
    items put every item into the same group.** What is given is low to high, goes down with the
    points, and is the same for equal points. -/
theorem balanced_priorities_iff [DecidableEq T] (hkeys : (items.map Prod.fst).Nodup) :
    ((∀ m m', m.Perm items → m'.Perm items →
        ∀ k, priorityAfter getPriority m k = priorityAfter getPriority m' k) ↔
      ∀ a ∈ items, ∀ b ∈ items, ∀ e ∈ items,
        priorityBy getPriority items a.2 e = priorityBy getPriority items b.2 e) ∧
    ∀ m, m.Perm items → ∀ last ∈ m.getLast?,
      (∀ x ∈ calculateBalancedPriorities getPriority m,
        x.2 = .low ∨ x.2 = .normal ∨ x.2 = .high) ∧
      (distinct (pointsBy m last.2) ≤ 1 → calculateBalancedPriorities getPriority m = []) ∧
      (1 < distinct (pointsBy m last.2) → ∀ a ∈ items, ∀ b ∈ items,
        (points (factors last.2) a.2 = points (factors last.2) b.2 →
          priorityAfter getPriority m a.1 = priorityAfter getPriority m b.1) ∧
        (points (factors last.2) a.2 < points (factors last.2) b.2 →
          (priorityAfter getPriority m b.1).toInt ≤ (priorityAfter getPriority m a.1).toInt)) := by
  have hafter : ∀ {m : List (T × PrioInfo)} {last e : T × PrioInfo}, m.Perm items →
      m.getLast? = some last → e ∈ items →
      priorityAfter getPriority m e.1 = priorityBy getPriority m last.2 e := by
    intro m last e hm hlast he
    exact priorityAfter_eq ((hm.map Prod.fst).nodup_iff.mpr hkeys) hlast (hm.mem_iff.mpr he)
  refine ⟨⟨?_, ?_⟩, ?_⟩
  · intro h a ha b hb e he
    obtain ⟨m, hm, hlast⟩ := exists_last ha
    obtain ⟨m', hm', hlast'⟩ := exists_last hb
    have heq := h m m' hm hm' e.1
    rwa [hafter hm hlast he, hafter hm' hlast' he, priorityBy_perm hm, priorityBy_perm hm'] at heq
  · intro h m m' hm hm' k
    by_cases hk : k ∈ items.map Prod.fst
    · obtain ⟨e, he, rfl⟩ := List.mem_map.mp hk
      have hlast : ∀ {m : List (T × PrioInfo)}, m.Perm items → ∃ last ∈ items,
          m.getLast? = some last := by
        intro m hm
        have hne : m ≠ [] := List.ne_nil_of_mem (hm.mem_iff.mpr he)
        exact ⟨m.getLast hne, hm.mem_iff.mp (List.getLast_mem hne),
          List.getLast?_eq_some_getLast hne⟩
      obtain ⟨last, hin, hlast₁⟩ := hlast hm
      obtain ⟨last', hin', hlast₂⟩ := hlast hm'
      rw [hafter hm hlast₁ he, hafter hm' hlast₂ he, priorityBy_perm hm, priorityBy_perm hm']
      exact h last hin last' hin' e he
    · rw [priorityAfter_of_notMem fun hin => hk ((hm.map _).mem_iff.mp hin),
        priorityAfter_of_notMem fun hin => hk ((hm'.map _).mem_iff.mp hin)]
  · intro m hm last hlast
    refine ⟨?_, ?_, ?_⟩
    · rintro ⟨k, p⟩ hx
      obtain ⟨-, -, e, -, -, -, rfl⟩ := mem_calculate hx
      exact third_cases _ _ _
    · intro hdistinct
      rw [calculate_eq hlast, if_pos hdistinct]
    · intro hdistinct a ha b hb
      have hthird : ∀ {e}, e ∈ items → priorityAfter getPriority m e.1 =
          third (pointsBy m last.2) (groupSize (pointsBy m last.2))
            (points (factors last.2) e.2) := by
        intro e he
        rw [hafter hm hlast he, priorityBy]
        exact if_neg (not_le.mpr hdistinct)
      rw [hthird ha, hthird hb]
      exact ⟨fun heq => heq ▸ rfl, fun hlt => third_mono hlt.le⟩

theorem balanced_priorities_two :
    priorityAfter (fun _ => .low) [(0, ⟨10, 1⟩), (1, ⟨20, 2⟩)] 0 =
      priorityAfter (fun _ => .low) [(1, ⟨20, 2⟩), (0, ⟨10, 1⟩)] 0 :=
  (balanced_priorities_iff (by decide)).1.mpr (by decide +kernel) _ _ (List.Perm.refl _)
    (List.Perm.swap _ _ _) 0

/-- A fast item with one source and a slow one with many: whichever comes last gets the lower
    priority or the higher one. -/
theorem balanced_priorities_order : ¬ ∀ (items : List (Nat × PrioInfo)),
    (items.map Prod.fst).Nodup → ∀ m m', m.Perm items → m'.Perm items → ∀ k,
      priorityAfter (fun _ => .low) m k = priorityAfter (fun _ => .low) m' k := by
  intro h
  have heq := h [(0, ⟨100, 1⟩), (1, ⟨1, 100⟩)] (by decide) _ _ (List.Perm.refl _)
    (List.Perm.swap _ _ _) 0
  revert heq
  decide +kernel

end Result

end BalancedPriorities
end Airdcpp
