import Airdcpp.Lib.Loop
import Airdcpp.Util.PathUtil
import Airdcpp.Util.Positions

/-!
# `Util/DupeUtil` — the last meaningful directory

`getDirectoryName` goes over the components of a path from the last one on, as long as their names
are those of subdirectories. Its positions are unsigned: in front of a path that begins with a
separator the position wraps around to `npos`, and the search goes on from the end of the path.

A path of which nothing but the front is left (`aPath = w ++ rest`, the position is the last one of
`w`) is what every round begins with. A round takes the last component off `w`, so the walk ends,
unless there is nothing but subdirectories behind a separator at the beginning (`AllSubs`). Then it
comes to `npos`, and only a separator at the end of the path makes it stop.
-/

namespace Airdcpp
namespace DupeUtil

open PathUtil (rfind rfind_eq_none rfind_append_cons exists_last)

/-- `string::npos` -/
def npos : Nat := 2 ^ 64 - 1

/-- `std::string::max_size` -/
def max_size : Nat := 2 ^ 63 - 1

/-- `a + b` of two `size_t` -/
def addSizeT (a b : Nat) : Nat := (a + b) % 2 ^ 64

/-- `s.find_last_of(c, pos)` -/
def findLastOf (s : Str) (c : UInt8) (pos : Nat) : Option Nat := rfind c (s.take (pos + 1))

/-- Where the loop of `getDirectoryName` is. -/
structure Walk where
  i : Nat
  isSub : Bool

/-- What `getDirectoryName` returns behind its loop. -/
def result (aPath : Str) (j : Nat) (w : Walk) : Option (Str × Nat) := do
  let name ← substr aPath j (addSizeT (subSizeT w.i j) 1)
  some (name, if w.isSub then addSizeT w.i 2 else npos)

/-- One round of the loop of `getDirectoryName`. `subDirRegPlain` is any predicate. -/
def round (subDirRegPlain : Str → Bool) (aPath : Str) (aSeparator : UInt8) (w : Walk) :
    Option ((Str × Nat) ⊕ Walk) :=
  match findLastOf aPath aSeparator w.i with
  | none => (result aPath 0 w).map Sum.inl
  | some j => do
    let name ← substr aPath (j + 1) (subSizeT w.i j)
    if !subDirRegPlain name then (result aPath (j + 1) w).map Sum.inl
    else some (Sum.inr ⟨subSizeT j 1, true⟩)

/-- `getDirectoryName`, with `n` rounds of its loop at most. The `false` of a short path is a
    position. -/
def getDirectoryName (subDirRegPlain : Str → Bool) (aPath : Str) (aSeparator : UInt8) (n : Nat) :
    Option (Str × Nat) :=
  if aPath.length < 3 then some (aPath, 0)
  else
    Loop.run (round subDirRegPlain aPath aSeparator) n
      ⟨subSizeT aPath.length (if aPath.getLast? = some aSeparator then 2 else 1), false⟩

/-! ## Components -/

/-- A path without the separator at its end. -/
def withoutEnd (aSeparator : UInt8) (aPath : Str) : Str :=
  if aPath.getLast? = some aSeparator then aPath.dropLast else aPath

/-- Where the component behind others begins. -/
def offset (components : List Str) : Nat := (components.map fun name => name.length + 1).sum

/-- The last component that is not a subdirectory, or the first one, and where the next one
    begins. -/
def LastDirectory (subDir : Str → Bool) (start : Nat) (components : List Str) (r : Str × Nat) :
    Prop :=
  ∃ front name subs, components = front ++ name :: subs ∧ (∀ sub ∈ subs, subDir sub = true) ∧
    (subDir name = false ∨ front = []) ∧
    r = (name, if subs = [] then npos else start + offset (front ++ [name]))

/-- The last directory of a path. In front of a separator at the beginning, there is a component
    without a name. -/
def IsDirectoryName (subDir : Str → Bool) (aSeparator : UInt8) (aPath : Str) (r : Str × Nat) :
    Prop :=
  LastDirectory subDir 0 ((withoutEnd aSeparator aPath).splitOn aSeparator) r

/-- The last directory of a path, if a separator at the beginning stands for the root. -/
def IsNameInRoot (subDir : Str → Bool) (aSeparator : UInt8) (aPath : Str) (r : Str × Nat) : Prop :=
  if (withoutEnd aSeparator aPath).head? = some aSeparator then
    LastDirectory subDir 1 ((withoutEnd aSeparator aPath).tail.splitOn aSeparator) r
  else IsDirectoryName subDir aSeparator aPath r

/-- Behind a separator at the beginning, there is nothing but subdirectories. -/
def AllSubs (subDir : Str → Bool) (aSeparator : UInt8) (w : Str) : Prop :=
  ∃ v, w = aSeparator :: v ∧ ∀ name ∈ v.splitOn aSeparator, subDir name = true

variable {subDir : Str → Bool} {sep : UInt8} {w q r rest aPath : Str} {isSub : Bool}

theorem splitOn_last (hr : sep ∉ r) : (q ++ sep :: r).splitOn sep = q.splitOn sep ++ [r] := by
  rw [List.splitOn_append_cons_self, List.splitOn_eq_singleton hr]

theorem offset_append (cs ds : List Str) : offset (cs ++ ds) = offset cs + offset ds := by
  simp [offset]

theorem offset_singleton (name : Str) : offset [name] = name.length + 1 := by
  simp [offset]

theorem offset_splitOn (w : Str) : offset (w.splitOn sep) = w.length + 1 := by
  induction hn : w.length using Nat.strong_induction_on generalizing w with
  | _ n ih =>
    by_cases hmem : sep ∈ w
    · obtain ⟨q, r, rfl, hr⟩ := exists_last hmem
      rw [List.length_append, List.length_cons] at hn
      rw [splitOn_last hr, offset_append, ih q.length (by omega) q rfl, offset_singleton]
      omega
    · rw [List.splitOn_eq_singleton hmem, offset_singleton, hn]

theorem AllSubs.last (h : AllSubs subDir sep (q ++ sep :: r)) (hr : sep ∉ r) :
    subDir r = true ∧ (q ≠ [] → AllSubs subDir sep q) := by
  obtain ⟨v, hv, hall⟩ := h
  cases q with
  | nil =>
    obtain ⟨-, rfl⟩ := List.cons.inj hv
    exact ⟨hall r (by simp [List.splitOn_eq_singleton hr]), fun hne => absurd rfl hne⟩
  | cons c q =>
    obtain ⟨rfl, hv⟩ := List.cons.inj hv
    rw [← hv, List.append_eq, splitOn_last hr] at hall
    exact ⟨hall r (by simp), fun _ => ⟨q, rfl, fun name hname => hall name (by simp [hname])⟩⟩

theorem AllSubs.concat (h : AllSubs subDir sep q) (hr : sep ∉ r) (hsub : subDir r = true) :
    AllSubs subDir sep (q ++ sep :: r) := by
  obtain ⟨v, rfl, hall⟩ := h
  refine ⟨v ++ sep :: r, rfl, fun name hname => ?_⟩
  rw [splitOn_last hr, List.mem_append, List.mem_singleton] at hname
  rcases hname with hname | rfl
  · exact hall name hname
  · exact hsub

theorem AllSubs.mem (h : AllSubs subDir sep w) : sep ∈ w := by
  obtain ⟨v, rfl, -⟩ := h
  exact List.mem_cons_self

/-! ## One round -/

theorem findLastOf_last (hw : w ≠ []) (rest : Str) :
    findLastOf (w ++ rest) sep (w.length - 1) = rfind sep w := by
  have hpos := List.length_pos_iff.mpr hw
  rw [findLastOf, Nat.sub_add_cancel hpos, List.take_left]

/-- The length of what is returned, `i - j + 1`. -/
theorem count_eq {a b n : Nat} (h : a + 1 = b + n) (hn : n < 2 ^ 64) :
    addSizeT (subSizeT a b) 1 = n := by
  rw [addSizeT, subSizeT]
  split
  · omega
  · omega

theorem addSizeT_of_lt {a b : Nat} (h : a + b < 2 ^ 64) : addSizeT a b = a + b := Nat.mod_eq_of_lt h

/-- The first component. -/
theorem round_first (hw : w ≠ []) (hmem : sep ∉ w) (hsize : (w ++ rest).length ≤ max_size) :
    round subDir (w ++ rest) sep ⟨w.length - 1, isSub⟩ =
      some (.inl (w, if isSub then w.length + 1 else npos)) := by
  have hpos := List.length_pos_iff.mpr hw
  rw [List.length_append, max_size] at hsize
  rw [round, findLastOf_last hw, rfind_eq_none hmem]
  simp only [result]
  rw [substr_of_le (Nat.zero_le _), count_eq (n := w.length) (by omega) (by omega),
    addSizeT_of_lt (by omega), List.drop_zero, List.take_left]
  have hnext : w.length - 1 + 2 = w.length + 1 := by omega
  rw [hnext]
  rfl

/-- A component behind others. -/
theorem round_last (hr : sep ∉ r) (hsize : (q ++ sep :: r ++ rest).length ≤ max_size) :
    round subDir (q ++ sep :: r ++ rest) sep ⟨(q ++ sep :: r).length - 1, isSub⟩ =
      some (if subDir r = true then .inr ⟨subSizeT q.length 1, true⟩
        else .inl (r, if isSub then (q ++ sep :: r).length + 1 else npos)) := by
  rw [List.length_append, max_size] at hsize
  have hlength : (q ++ sep :: r).length = q.length + 1 + r.length := by
    rw [List.length_append, List.length_cons]
    omega
  have hdrop : (q ++ sep :: r ++ rest).drop (q.length + 1) = r ++ rest := by
    rw [List.append_assoc, List.drop_append]
    simp
  have hbound : q.length + 1 ≤ (q ++ sep :: r ++ rest).length := by
    rw [List.length_append]
    omega
  have hcount : subSizeT ((q ++ sep :: r).length - 1) q.length = r.length := by
    rw [subSizeT, if_pos (by omega)]
    omega
  rw [round, findLastOf_last (by simp), rfind_append_cons q hr]
  simp only [result, Option.bind_eq_bind]
  rw [substr_of_le hbound, substr_of_le hbound, hdrop, hcount, Option.bind_some,
    count_eq (n := r.length) (by omega) (by omega), addSizeT_of_lt (by omega), List.take_left]
  have hnext : (q ++ sep :: r).length - 1 + 2 = (q ++ sep :: r).length + 1 := by omega
  cases hsub : subDir r with
  | true => rfl
  | false =>
    rw [hnext]
    rfl

/-! ## The walk -/

/-- **The walk finds the last directory**, unless there is nothing but subdirectories behind a
    separator at the beginning. -/
theorem returns_last (hw : w ≠ []) (hsize : (w ++ rest).length ≤ max_size)
    (hsubs : ¬ AllSubs subDir sep w) :
    ∃ front name subs, w.splitOn sep = front ++ name :: subs ∧ (∀ sub ∈ subs, subDir sub = true) ∧
      (subDir name = false ∨ front = []) ∧
      Loop.Returns (round subDir (w ++ rest) sep) ⟨w.length - 1, isSub⟩
        (name, if isSub = false ∧ subs = [] then npos else offset (front ++ [name])) := by
  induction hn : w.length using Nat.strong_induction_on generalizing w rest isSub with
  | _ n ih =>
    subst hn
    by_cases hmem : sep ∈ w
    · obtain ⟨q, r, rfl, hr⟩ := exists_last hmem
      have hround := @round_last subDir sep q r rest isSub hr hsize
      cases hsub : subDir r with
      | false =>
        rw [hsub, if_neg Bool.false_ne_true] at hround
        refine ⟨q.splitOn sep, r, [], splitOn_last hr, by simp, Or.inl hsub, ?_⟩
        have hreturns := Loop.returns_of_return hround
        rw [offset_append, offset_splitOn, offset_singleton]
        cases isSub with
        | false => exact hreturns
        | true =>
          have hlength : (q ++ sep :: r).length + 1 = q.length + 1 + (r.length + 1) := by
            rw [List.length_append, List.length_cons]
            omega
          rw [if_pos rfl, hlength] at hreturns
          exact hreturns
      | true =>
        rw [hsub, if_pos rfl] at hround
        have hq : q ≠ [] := by
          rintro rfl
          refine hsubs ⟨r, rfl, ?_⟩
          simpa [List.splitOn_eq_singleton hr] using hsub
        have hpos : 1 ≤ q.length := List.length_pos_iff.mpr hq
        have hnext : subSizeT q.length 1 = q.length - 1 := by rw [subSizeT, if_pos hpos]
        have hsplit : q ++ sep :: r ++ rest = q ++ (sep :: r ++ rest) := by simp
        rw [hnext] at hround
        rw [hsplit] at hsize hround ⊢
        obtain ⟨front, name, subs, hcomponents, hall, hname, hreturns⟩ :=
          @ih q.length (by simp) q (sep :: r ++ rest) true hq hsize
            (fun h => hsubs (h.concat hr hsub)) rfl
        refine ⟨front, name, subs ++ [r], ?_, ?_, hname, ?_⟩
        · rw [splitOn_last hr, hcomponents]
          simp
        · intro sub hmem
          rcases List.mem_append.mp hmem with h | h
          · exact hall sub h
          · rw [List.mem_singleton.mp h, hsub]
        · rw [Loop.returns_iff_of_next hround]
          simpa using hreturns
    · refine ⟨[], w, [], List.splitOn_eq_singleton hmem, by simp, Or.inr rfl, ?_⟩
      have hreturns := Loop.returns_of_return (@round_first subDir sep w rest isSub hw hmem hsize)
      cases isSub with
      | false => exact hreturns
      | true =>
        rw [List.nil_append, offset_singleton]
        exact hreturns

/-- Among subdirectories behind a separator, a round takes one off. -/
theorem next_of_allSubs (hsize : (w ++ rest).length ≤ max_size) (h : AllSubs subDir sep w) :
    ∃ t, Loop.Next (round subDir (w ++ rest) sep) ⟨w.length - 1, isSub⟩ t ∧
      (t = ⟨npos, true⟩ ∨ ∃ q, q ≠ [] ∧ q <+: w ∧ q.length < w.length ∧ AllSubs subDir sep q ∧
        t = ⟨q.length - 1, true⟩) := by
  obtain ⟨q, r, rfl, hr⟩ := exists_last h.mem
  obtain ⟨hsub, hfront⟩ := h.last hr
  have hround := @round_last subDir sep q r rest isSub hr hsize
  rw [hsub, if_pos rfl] at hround
  refine ⟨_, hround, ?_⟩
  by_cases hq : q = []
  · subst hq
    exact Or.inl rfl
  · have hpos : 1 ≤ q.length := List.length_pos_iff.mpr hq
    refine Or.inr ⟨q, hq, List.prefix_append q _, by simp, hfront hq, ?_⟩
    rw [subSizeT, if_pos hpos]

/-- So it comes to `npos`. -/
theorem steps_npos (hsize : (w ++ rest).length ≤ max_size) (h : AllSubs subDir sep w) :
    Loop.Steps (round subDir (w ++ rest) sep) ⟨w.length - 1, isSub⟩ ⟨npos, true⟩ := by
  induction hn : w.length using Nat.strong_induction_on generalizing w rest isSub with
  | _ n ih =>
    subst hn
    obtain ⟨t, hnext, rfl | ⟨q, -, ⟨r, rfl⟩, hlt, hq, rfl⟩⟩ :=
      @next_of_allSubs subDir sep w rest isSub hsize h
    · exact .single hnext
    · rw [List.append_assoc] at hsize hnext ⊢
      exact .head hnext (ih q.length hlt hsize hq rfl)

/-- At `npos`, a separator at the end of the path is found, and behind it there is no name. -/
theorem returns_npos (hsize : (w ++ [sep]).length ≤ max_size) (hempty : subDir [] = false) :
    Loop.Returns (round subDir (w ++ [sep]) sep) ⟨npos, true⟩ ([], 1) := by
  rw [max_size] at hsize
  have htake : (w ++ [sep]).take (npos + 1) = w ++ [sep] :=
    List.take_of_length_le (by rw [npos]; omega)
  have hlast : findLastOf (w ++ [sep]) sep npos = some w.length := by
    rw [findLastOf, htake, rfind_append_cons w List.not_mem_nil]
  have hbound : w.length + 1 ≤ (w ++ [sep]).length := by simp
  have hdrop : (w ++ [sep]).drop (w.length + 1) = [] := List.drop_of_length_le (by simp)
  have hwrap : addSizeT npos 2 = 1 := by decide
  refine Loop.returns_of_return ?_
  rw [round, hlast]
  simp only [result, Option.bind_eq_bind]
  rw [substr_of_le hbound, substr_of_le hbound, hdrop, List.take_nil, Option.bind_some, hempty,
    Option.bind_some]
  simp [hwrap]

/-- Otherwise the last component is found again. -/
theorem round_npos (hr : sep ∉ r) (hsize : (q ++ sep :: r).length ≤ max_size)
    (hsub : subDir r = true) :
    Loop.Next (round subDir (q ++ sep :: r) sep) ⟨npos, true⟩ ⟨subSizeT q.length 1, true⟩ := by
  rw [max_size] at hsize
  have hlength : (q ++ sep :: r).length = q.length + 1 + r.length := by
    rw [List.length_append, List.length_cons]
    omega
  have htake : (q ++ sep :: r).take (npos + 1) = q ++ sep :: r :=
    List.take_of_length_le (by rw [npos]; omega)
  have hlast : findLastOf (q ++ sep :: r) sep npos = some q.length := by
    rw [findLastOf, htake, rfind_append_cons q hr]
  have hdrop : (q ++ sep :: r).drop (q.length + 1) = r := by
    rw [List.drop_append]
    simp
  have hcount : r.length ≤ subSizeT npos q.length := by
    rw [subSizeT, npos, if_pos (by omega)]
    omega
  rw [Loop.Next, round, hlast]
  simp only [Option.bind_eq_bind]
  rw [substr_of_le (by omega), hdrop, List.take_of_length_le hcount, Option.bind_some, hsub]
  rfl

/-- **The walk that does not end.** -/
theorem not_halts_of_allSubs (hsize : w.length ≤ max_size) (h : AllSubs subDir sep w) :
    ¬ Loop.Halts (round subDir w sep) ⟨w.length - 1, isSub⟩ := by
  refine Loop.not_halts_of_progress (P := fun s => s = ⟨npos, true⟩ ∨
    ∃ q b, q <+: w ∧ AllSubs subDir sep q ∧
      s = ⟨q.length - 1, b⟩) ?_ (Or.inr ⟨w, isSub, List.prefix_refl w, h, rfl⟩)
  rintro s (rfl | ⟨q, b, ⟨rest, rfl⟩, hq, rfl⟩)
  · obtain ⟨q, r, rfl, hr⟩ := exists_last h.mem
    obtain ⟨hsub, hfront⟩ := h.last hr
    refine ⟨_, round_npos hr hsize hsub, ?_⟩
    by_cases hq : q = []
    · subst hq
      exact Or.inl rfl
    · have hpos : 1 ≤ q.length := List.length_pos_iff.mpr hq
      refine Or.inr ⟨q, true, List.prefix_append q _, hfront hq, ?_⟩
      rw [subSizeT, if_pos hpos]
  · obtain ⟨t, hnext, ht⟩ := @next_of_allSubs subDir sep q rest b hsize hq
    refine ⟨t, hnext, ht.imp_right ?_⟩
    rintro ⟨q', -, hpre, -, hq', rfl⟩
    exact ⟨q', true, hpre.trans (List.prefix_append q rest), hq', rfl⟩

/-! ## What is returned -/

/-- `getDirectoryName` returns `r`. -/
def Returns (subDir : Str → Bool) (aSeparator : UInt8) (aPath : Str) (r : Str × Nat) : Prop :=
  ∃ n, getDirectoryName subDir aPath aSeparator n = some r

variable {x y : Str × Nat}

theorem returns_short (h : aPath.length < 3) : Returns subDir sep aPath x ↔ x = (aPath, 0) := by
  simp [Returns, getDirectoryName, h, eq_comm]

theorem withoutEnd_of_last (h : aPath.getLast? = some sep) :
    aPath = withoutEnd sep aPath ++ [sep] := by
  rw [withoutEnd, if_pos h]
  exact (List.dropLast_append_getLast? sep h).symm

theorem withoutEnd_of_ne (h : aPath.getLast? ≠ some sep) : withoutEnd sep aPath = aPath := if_neg h

/-- The walk begins at the end of the last component. -/
theorem returns_long (h : 3 ≤ aPath.length) :
    Returns subDir sep aPath x ↔
      Loop.Returns (round subDir aPath sep) ⟨(withoutEnd sep aPath).length - 1, false⟩ x := by
  have hstart : subSizeT aPath.length (if aPath.getLast? = some sep then 2 else 1) =
      (withoutEnd sep aPath).length - 1 := by
    rw [withoutEnd]
    split
    · rw [subSizeT, if_pos (by omega), List.length_dropLast]
      omega
    · rw [subSizeT, if_pos (by omega)]
  rw [Returns, Loop.Returns]
  simp only [getDirectoryName, if_neg (Nat.not_lt.mpr h), hstart]

theorem withoutEnd_ne_nil (h : 3 ≤ aPath.length) : withoutEnd sep aPath ≠ [] := by
  rw [← List.length_pos_iff, withoutEnd]
  split
  · rw [List.length_dropLast]
    omega
  · omega

theorem exists_rest (sep : UInt8) (aPath : Str) : ∃ rest, aPath = withoutEnd sep aPath ++ rest := by
  by_cases h : aPath.getLast? = some sep
  · exact ⟨[sep], withoutEnd_of_last h⟩
  · exact ⟨[], by rw [List.append_nil, withoutEnd_of_ne h]⟩

/-- A position that is returned is not at the beginning. -/
theorem LastDirectory.pos {start : Nat} {components : List Str}
    (h : LastDirectory subDir start components x) :
    x.2 ≠ 0 := by
  obtain ⟨front, name, subs, -, -, -, rfl⟩ := h
  show (if subs = [] then npos else start + offset (front ++ [name])) ≠ 0
  rw [offset_append, offset_singleton]
  split
  · decide
  · omega

theorem IsNameInRoot.pos (h : IsNameInRoot subDir sep aPath x) : x.2 ≠ 0 := by
  rw [IsNameInRoot] at h
  split at h
  · exact h.pos
  · exact LastDirectory.pos h

/-- Without a component of its own, the root does not matter as long as there is another
    directory. -/
theorem IsDirectoryName.inRoot (hsubs : ¬ AllSubs subDir sep (withoutEnd sep aPath))
    (h : IsDirectoryName subDir sep aPath x) : IsNameInRoot subDir sep aPath x := by
  rw [IsNameInRoot]
  split
  · rename_i hroot
    obtain ⟨v, hv⟩ : ∃ v, withoutEnd sep aPath = sep :: v := List.head?_eq_some_iff.mp hroot
    obtain ⟨front, name, subs, hcomponents, hall, hname, rfl⟩ := h
    have hsplit : (sep :: v).splitOn sep = [] :: v.splitOn sep := List.splitOn_append_cons_self [] v
    rw [hv, hsplit] at hcomponents
    rw [hv, List.tail_cons]
    cases front with
    | nil =>
      obtain ⟨-, rfl⟩ := List.cons.inj hcomponents
      exact absurd ⟨v, hv, hall⟩ hsubs
    | cons c front =>
      obtain ⟨rfl, htail⟩ := List.cons.inj hcomponents
      refine ⟨front, name, subs, htail, hall,
        hname.imp_right fun hnil => absurd hnil (List.cons_ne_nil _ _), ?_⟩
      rw [List.cons_append, ← List.singleton_append, offset_append, offset_singleton,
        List.length_nil, Nat.zero_add]
  · exact h

theorem returns_of_not_allSubs (h : 3 ≤ aPath.length) (hsize : aPath.length ≤ max_size)
    (hsubs : ¬ AllSubs subDir sep (withoutEnd sep aPath)) :
    ∃ x, Returns subDir sep aPath x ∧ IsDirectoryName subDir sep aPath x := by
  obtain ⟨rest, hrest⟩ := exists_rest sep aPath
  have hne := @withoutEnd_ne_nil sep aPath h
  simp only [returns_long h, IsDirectoryName]
  generalize withoutEnd sep aPath = w at *
  subst hrest
  obtain ⟨front, name, subs, hcomponents, hall, hname, hreturns⟩ :=
    @returns_last subDir sep w rest false hne hsize hsubs
  refine ⟨_, hreturns, front, name, subs, hcomponents, hall, hname, ?_⟩
  simp

theorem returns_of_allSubs (h : 3 ≤ aPath.length) (hsize : aPath.length ≤ max_size)
    (hempty : subDir [] = false)
    (hend : aPath.getLast? = some sep) (hsubs : AllSubs subDir sep (withoutEnd sep aPath)) :
    Returns subDir sep aPath ([], 1) := by
  have hrest := withoutEnd_of_last hend
  rw [returns_long h]
  generalize withoutEnd sep aPath = w at *
  subst hrest
  exact (Loop.returns_iff_of_steps (steps_npos hsize hsubs)).mpr (returns_npos hsize hempty)

theorem not_returns_of_allSubs (h : 3 ≤ aPath.length) (hsize : aPath.length ≤ max_size)
    (hend : aPath.getLast? ≠ some sep) (hsubs : AllSubs subDir sep (withoutEnd sep aPath)) :
    ¬ Returns subDir sep aPath x := by
  have hrest := withoutEnd_of_ne hend
  rw [returns_long h]
  rw [hrest] at hsubs ⊢
  exact fun hreturns => not_halts_of_allSubs hsize hsubs ⟨x, hreturns⟩

/-- A component without a name is none of the root's. -/
theorem AllSubs.not_inRoot (hempty : subDir [] = false)
    (hsubs : AllSubs subDir sep (withoutEnd sep aPath)) :
    ¬ IsNameInRoot subDir sep aPath ([], 1) := by
  obtain ⟨v, hv, hall⟩ := hsubs
  rw [IsNameInRoot, hv, List.head?_cons, if_pos rfl, List.tail_cons]
  rintro ⟨front, name, subs, hcomponents, -, -, heq⟩
  obtain ⟨rfl, -⟩ := Prod.mk.inj heq
  have hsub := hall [] (by simp [hcomponents])
  rw [hempty] at hsub
  cases hsub

theorem Returns.unique (hx : Returns subDir sep aPath x) (hy : Returns subDir sep aPath y) :
    x = y := by
  by_cases h : aPath.length < 3
  · rw [returns_short h] at hx hy
    rw [hx, hy]
  · rw [returns_long (Nat.not_lt.mp h)] at hx hy
    exact Loop.Returns.unique hx hy

/-- **When the walk ends, and when it finds the last directory.** It does not end if there is
    nothing but subdirectories behind a separator at the beginning and no separator at the end.
    Otherwise what it returns is the last directory of any path that is not too short. With a
    separator at the end, it is the component in front of the root that is returned for nothing but
    subdirectories. -/
theorem directoryName_decided (hempty : subDir [] = false) (hsize : aPath.length ≤ max_size) :
    ((∃ x, Returns subDir sep aPath x) ↔
      aPath.length < 3 ∨ ¬ (AllSubs subDir sep (withoutEnd sep aPath) ∧ aPath.getLast? ≠ some sep))
        ∧
    ((∃ x, Returns subDir sep aPath x ∧ IsDirectoryName subDir sep aPath x) ↔
      3 ≤ aPath.length ∧ ¬ (AllSubs subDir sep (withoutEnd sep aPath) ∧ aPath.getLast? ≠ some sep))
        ∧
    ((∃ x, Returns subDir sep aPath x ∧ IsNameInRoot subDir sep aPath x) ↔
      3 ≤ aPath.length ∧ ¬ AllSubs subDir sep (withoutEnd sep aPath)) := by
  by_cases h : aPath.length < 3
  · have hlong : ¬ 3 ≤ aPath.length := Nat.not_le.mpr h
    refine ⟨iff_of_true ⟨_, returns_short h |>.mpr rfl⟩ (Or.inl h),
      iff_of_false ?_ fun hh => hlong hh.1,
      iff_of_false ?_ fun hh => hlong hh.1⟩
    · rintro ⟨x, hx, hname⟩
      rw [returns_short h] at hx
      subst hx
      exact LastDirectory.pos hname rfl
    · rintro ⟨x, hx, hname⟩
      rw [returns_short h] at hx
      subst hx
      exact hname.pos rfl
  · have hlong := Nat.not_lt.mp h
    simp only [h, false_or, hlong, true_and]
    by_cases hsubs : AllSubs subDir sep (withoutEnd sep aPath)
    · by_cases hend : aPath.getLast? = some sep
      · have hreturns := returns_of_allSubs hlong hsize hempty hend hsubs
        simp only [hsubs, hend, ne_eq, not_true_eq_false, and_false, not_false_eq_true, iff_true,
          iff_false]
        refine ⟨⟨_, hreturns⟩, ⟨_, hreturns, ?_⟩, ?_⟩
        · obtain ⟨v, hv, hall⟩ := hsubs
          have hsplit : (sep :: v).splitOn sep = [] :: v.splitOn sep :=
            List.splitOn_append_cons_self [] v
          have hne : v.splitOn sep ≠ [] := List.splitOn_ne_nil sep v
          rw [IsDirectoryName, hv, hsplit]
          refine ⟨[], [], v.splitOn sep, rfl, hall, Or.inr rfl, ?_⟩
          rw [if_neg hne]
          rfl
        · rintro ⟨x, hx, hname⟩
          rw [hx.unique hreturns] at hname
          exact hsubs.not_inRoot hempty hname
      · have hnone : ∀ x, ¬ Returns subDir sep aPath x := fun x =>
          not_returns_of_allSubs hlong hsize hend hsubs
        simp [hsubs, hend, hnone]
    · obtain ⟨x, hx, hname⟩ := returns_of_not_allSubs hlong hsize hsubs
      simp only [hsubs, false_and, not_false_eq_true, iff_true]
      exact ⟨⟨x, hx⟩, ⟨x, hx, hname⟩, ⟨x, hx, hname.inRoot hsubs⟩⟩

/-- The directory of `a/Sample`. -/
theorem directoryName_decided_sample :
    ∃ x, Returns (fun name => name = str "Sample") (chr '/') (str "a/Sample") x ∧
      IsDirectoryName (fun name => name = str "Sample") (chr '/') (str "a/Sample") x := by
  refine (directoryName_decided (by decide) (by decide)).2.1.mpr ⟨by decide, ?_⟩
  rintro ⟨⟨v, hv, -⟩, -⟩
  have hhead : (withoutEnd (chr '/') (str "a/Sample")).head? = some (chr '/') := by
    rw [hv, List.head?_cons]
  revert hhead
  decide

/-- In `/Sample`, it is looked for without an end. -/
theorem directoryName_not_returned :
    ¬ ∀ (subDir : Str → Bool) (sep : UInt8) (aPath : Str), subDir [] = false →
      aPath.length ≤ max_size →
      ∃ x, Returns subDir sep aPath x ∧ (IsDirectoryName subDir sep aPath x ∨
        IsNameInRoot subDir sep aPath x) := by
  intro h
  obtain ⟨x, hx, -⟩ := h (fun name => name = str "Sample") (chr '/') (str "/Sample") (by decide)
    (by decide)
  refine not_returns_of_allSubs (by decide) (by decide) (by decide) ?_ hx
  exact ⟨str "Sample", by decide, by decide⟩

end DupeUtil
end Airdcpp
