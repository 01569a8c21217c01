import Airdcpp.Core.Types
import Airdcpp.Lib.BitTable

/-!
# `Core/BloomFilter` — a filter for substrings

What is added to the filter sets a bit for each window of `N` bytes, and what matches has all bits
of its windows set; what is shorter than a window always matches. So the substrings of what was
added match, whatever order things are added and merged in (`Built.hasWindow`): adding and merging
only set bits.
-/

namespace Airdcpp

open Lib

/-- `BloomFilter<N>` -/
structure BloomFilter (N : Nat) where
  table : List Bool
deriving DecidableEq, Repr

namespace BloomFilter

variable {N n : Nat}

def new (N tableSize : Nat) : BloomFilter N := ⟨List.replicate tableSize false⟩

/-- `h ^= *c + 0x9e3779b9 + (h<<6) + (h>>2)`. The character is signed, and the first sum has 32
    bits. -/
def hashByte (h : UInt64) (c : UInt8) : UInt64 :=
  let signed : UInt32 := if c < 128 then c.toUInt32 else c.toUInt32 + 0xffffff00
  h ^^^ ((signed + 0x9e3779b9).toUInt64 + (h <<< 6) + (h >>> 2))

/-- The hash of a window. -/
def hashOf (window : Str) : UInt64 := window.foldl hashByte 0

/-- `getPos`. A modulus of zero is undefined. -/
def getPos (s : Str) (l tableSize i : Nat) : Option Nat :=
  if tableSize = 0 then none else some ((hashOf ((s.drop i).take l)).toNat % tableSize)

def add (b : BloomFilter N) (s : Str) : Option (BloomFilter N) :=
  if N ≤ s.length then (assignAll (getPos s N) (s.length - N + 1) b.table).map BloomFilter.mk
  else some b

/-- `match` -/
def match_ (b : BloomFilter N) (s : Str) : Option Bool :=
  if N ≤ s.length then allSet (getPos s N) b.table (List.range (s.length - N + 1)) else some true

/-- `merge` -/
def merge (b aBloom : BloomFilter N) : Option (BloomFilter N) :=
  ((List.range b.table.length).foldlM
    (fun t i => aBloom.table[i]?.bind fun bit => if bit then assign t i else some t) b.table).map
    BloomFilter.mk

/-! ## Windows -/

variable {b b' b'' : BloomFilter N} {s s' w : Str} {names names' : List Str}

/-- The windows of a string. -/
def windows (N : Nat) (s : Str) : List Str :=
  if N ≤ s.length then (List.range (s.length - N + 1)).map fun i => (s.drop i).take N else []

/-- The bit of the window is set. -/
def HasWindow (b : BloomFilter N) (w : Str) :
    Prop := Has b.table ((hashOf w).toNat % b.table.length)

instance (b : BloomFilter N) (w : Str) : Decidable (b.HasWindow w) :=
  inferInstanceAs (Decidable (Has _ _))

theorem mem_windows : w ∈ windows N s ↔ w.length = N ∧ w <:+: s := by
  rw [windows]
  constructor
  · intro h
    split at h
    · next hle =>
      obtain ⟨i, hi, rfl⟩ := List.mem_map.mp h
      rw [List.mem_range] at hi
      refine ⟨by simp; omega, ?_⟩
      exact (List.take_prefix N _).isInfix.trans (List.drop_suffix i s).isInfix
    · exact absurd h List.not_mem_nil
  · rintro ⟨rfl, a, c, rfl⟩
    rw [if_pos (by simp; omega)]
    refine List.mem_map.mpr ⟨a.length, ?_, ?_⟩
    · rw [List.mem_range]
      simp
      omega
    · simp [List.append_assoc]

/-- **The windows of a substring are windows.** -/
theorem windows_subset (h : s <:+: s') : ∀ w ∈ windows N s, w ∈ windows N s' := by
  intro w hw
  obtain ⟨hlen, hin⟩ := mem_windows.mp hw
  exact mem_windows.mpr ⟨hlen, hin.trans h⟩

/-! ## Adding, merging and matching -/

/-- **What is added sets the bits of its windows**, and no other. -/
theorem add_spec (hsize : 0 < b.table.length) (s : Str) :
    ∃ b', b.add s = some b' ∧ b'.table.length = b.table.length ∧
      ∀ q, Has b'.table q ↔
        Has b.table q ∨ ∃ w ∈ windows N s, q = (hashOf w).toNat % b.table.length := by
  rw [add, windows]
  by_cases hN : N ≤ s.length
  · rw [if_pos hN, if_pos hN]
    obtain ⟨u, hu, hlen, hhas⟩ := @assignAll_spec b.table (s.length - N + 1) (getPos s N)
      (fun i => (hashOf ((s.drop i).take N)).toNat % b.table.length) fun i _ =>
        ⟨by rw [getPos, if_neg (by omega)], Nat.mod_lt _ hsize⟩
    refine ⟨⟨u⟩, by rw [hu, Option.map_some], hlen, fun q => (hhas q).trans (or_congr_right ?_)⟩
    simp only [List.mem_map, List.mem_range, exists_exists_and_eq_and]
  · rw [if_neg hN, if_neg hN]
    exact ⟨b, rfl, rfl, fun q => (or_iff_left fun h => by simp at h).symm⟩

/-- **A merge has the bits of both.** -/
theorem merge_spec (hlen : b'.table.length = b.table.length) :
    ∃ b'', b.merge b' = some b'' ∧ b''.table.length = b.table.length ∧
      ∀ q, Has b''.table q ↔ Has b.table q ∨ Has b'.table q := by
  have hloop : ∃ u, (List.range b.table.length).foldlM
      (fun t i => b'.table[i]?.bind fun bit => if bit then assign t i else some t) b.table =
        some u ∧
      u.length = b.table.length ∧
      ∀ q, Has u q ↔ Has b.table q ∨ Has b'.table q ∧ q < b.table.length := by
    refine foldlM_range (P := fun i u => u.length = b.table.length ∧
      ∀ q, Has u q ↔ Has b.table q ∨ Has b'.table q ∧ q < i) ⟨rfl, by simp⟩ ?_
    intro i hi t ht
    obtain ⟨htlen, hhas⟩ := ht
    have hread : b'.table[i]? = some (b'.table.getD i false) := getElem?_eq_getD (by omega)
    rw [hread, Option.bind_some]
    have hone : Has b'.table i ↔ b'.table.getD i false = true := by
      rw [Has, hread, Option.some.injEq]
    have hsucc : ∀ q, Has b'.table q ∧ q < i + 1 ↔ (Has b'.table q ∧ q < i) ∨ q = i ∧
        Has b'.table i := by
      intro q
      constructor
      · rintro ⟨hq, hlt⟩
        rcases Nat.lt_succ_iff_lt_or_eq.mp hlt with hlt | rfl
        · exact .inl ⟨hq, hlt⟩
        · exact .inr ⟨rfl, hq⟩
      · rintro (⟨hq, hlt⟩ | ⟨rfl, hq⟩)
        · exact ⟨hq, Nat.lt_succ_of_lt hlt⟩
        · exact ⟨hq, q.lt_succ_self⟩
    by_cases hbit : b'.table.getD i false = true
    · rw [if_pos hbit, assign_of_lt (by omega)]
      refine ⟨_, rfl, by rw [List.length_set, htlen], fun q => ?_⟩
      have hlt : i < t.length := by omega
      rw [has_set, hhas, hsucc, or_assoc, and_iff_left hlt, and_iff_left (hone.mpr hbit)]
    · rw [if_neg hbit]
      refine ⟨_, rfl, htlen, fun q => ?_⟩
      rw [hhas, hsucc]
      exact or_congr_right (or_iff_left fun h => hbit (hone.mp h.2)).symm
  obtain ⟨u, hu, hulen, hhas⟩ := hloop
  refine ⟨⟨u⟩, by rw [merge, hu, Option.map_some], hulen, fun q => (hhas q).trans ?_⟩
  refine or_congr_right (and_iff_left_of_imp fun hq => ?_)
  rw [← hlen]
  exact (List.getElem?_eq_some_iff.mp hq).1

/-- **What matches** has all bits of its windows set. -/
theorem match_spec (hsize : 0 < b.table.length) (s : Str) :
    ∃ r, b.match_ s = some r ∧ (r = true ↔ ∀ w ∈ windows N s, b.HasWindow w) := by
  rw [match_, windows]
  by_cases hN : N ≤ s.length
  · rw [if_pos hN, if_pos hN]
    obtain ⟨r, hr, hiff⟩ := @allSet_spec b.table (getPos s N)
      (fun i => (hashOf ((s.drop i).take N)).toNat % b.table.length)
      (List.range (s.length - N + 1)) fun i _ =>
        ⟨by rw [getPos, if_neg (by omega)], Nat.mod_lt _ hsize⟩
    refine ⟨r, hr, hiff.trans ?_⟩
    rw [List.forall_mem_map]
    rfl
  · rw [if_neg hN, if_neg hN]
    exact ⟨true, rfl, iff_of_true rfl fun w hw => absurd hw List.not_mem_nil⟩

/-! ## Filters that were built -/

/-- The filter of the size has been built by adding the names and by merging filters that were. -/
inductive Built (N n : Nat) : BloomFilter N → List Str → Prop
  | new : Built N n (new N n) []
  | add {b b' : BloomFilter N} {names : List Str} {s : Str} (built : Built N n b names)
      (added : b.add s = some b') : Built N n b' (s :: names)
  | merge {b b' b'' : BloomFilter N} {names names' : List Str} (built : Built N n b names)
      (other : Built N n b' names')
        (merged : b.merge b' = some b'') : Built N n b'' (names ++ names')

theorem Built.length (h : Built N n b names) (hn : 0 < n) : b.table.length = n := by
  induction h with
  | new => exact List.length_replicate ..
  | @add b b' names s _ hadd ih =>
    obtain ⟨c, hc, hlen, -⟩ := add_spec (by rwa [ih]) s
    obtain rfl := Option.some.inj (hadd.symm.trans hc)
    rw [hlen, ih]
  | @merge b b' b'' names names' _ _ hmerge ih ih' =>
    obtain ⟨c, hc, hlen, -⟩ := merge_spec (ih'.trans ih.symm)
    obtain rfl := Option.some.inj (hmerge.symm.trans hc)
    rw [hlen, ih]

/-- **The windows of all names are set.** -/
theorem Built.hasWindow (h : Built N n b names) (hn : 0 < n) :
    ∀ s ∈ names, ∀ w ∈ windows N s, b.HasWindow w := by
  induction h with
  | new => exact fun s hs => absurd hs List.not_mem_nil
  | @add b b' names s built hadd ih =>
    obtain ⟨c, hc, hlen, hhas⟩ := add_spec (by rwa [built.length hn]) s
    obtain rfl := Option.some.inj (hadd.symm.trans hc)
    refine List.forall_mem_cons.mpr ⟨fun w hw => ?_, fun s hs w hw => ?_⟩
    · rw [HasWindow, hhas, hlen]
      exact .inr ⟨w, hw, rfl⟩
    · rw [HasWindow, hhas, hlen]
      exact .inl (ih s hs w hw)
  | @merge b b' b'' names names' built other hmerge ih ih' =>
    have hsame := (other.length hn).trans (built.length hn).symm
    obtain ⟨c, hc, hlen, hhas⟩ := merge_spec hsame
    obtain rfl := Option.some.inj (hmerge.symm.trans hc)
    intro s hs w hw
    rw [HasWindow, hhas, hlen]
    rcases List.mem_append.mp hs with hs | hs
    · exact .inl (ih s hs w hw)
    · have hset := ih' s hs w hw
      rw [HasWindow, hsame] at hset
      exact .inr hset

end BloomFilter
end Airdcpp
