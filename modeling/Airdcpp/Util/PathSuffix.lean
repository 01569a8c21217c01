import Airdcpp.Util.DefaultSort
import Airdcpp.Util.PathUtil

/-!
# `Util/PathSuffix` — comparing paths from the end

`compareFromEnd` looks for the directories of a path in another one, from the last one on. It
compares bytes that have the same distance from the end of their paths, and does not look at what
stands in front of them in the main path.

A path is a list of parts here, each with a separator behind it (`parts`). What the function is for
is the longest common suffix of these lists (`Common`), and it finds that one when the parts that
the paths have in common are equally long, and the next one of the sub path is not also the end of a
longer one, as `CD1` is of `xCD1` (`comparesFromEnd_iff`).
-/

namespace Airdcpp
namespace PathUtil

/-- The loop of `compareFromEnd`, with its result: `none` if there is no end, `some none` for the
    `out_of_range` of `substr`. -/
def compareFromEndLoop (locale : Locale) (aMainPath aSubPath : Str) (aSubSeparator : UInt8) :
    (fuel i : Nat) → Option (Option Nat)
  | 0, _ => none
  | fuel + 1, i =>
    let j := (rfind aSubSeparator (aSubPath.take (i + 1))).elim 0 (· + 1)
    let d : Int := aMainPath.length - (aSubPath.length - j)
    if Util.wrapInt d < 0 then some (some (i + 2))
    else if d < 0 then some none
    else if Util.sameNoCase locale ((aSubPath.drop j).take (i + 1 - j))
        ((aMainPath.drop d.toNat).take (i + 1 - j)) = false then some (some (i + 2))
    else if j ≤ 1 then some (some 0)
    else compareFromEndLoop locale aMainPath aSubPath aSubSeparator fuel (j - 2)

/-- `compareFromEnd` -/
def compareFromEnd (locale : Locale) (aMainPath aSubPath : Str) (aSubSeparator : UInt8) :
    Option (Option Nat) :=
  if 1 < aSubPath.length then
    compareFromEndLoop locale aMainPath aSubPath aSubSeparator aSubPath.length (aSubPath.length - 2)
  else some (some aSubPath.length)

variable {locale : Locale} {main sub lead : Str} {sep msep : UInt8} {fuel i : Nat}

/-- The positions go down. -/
theorem compareFromEndLoop_ends (h : i < fuel) :
    ∃ r, compareFromEndLoop locale main sub sep fuel i = some r := by
  induction fuel generalizing i with
  | zero => omega
  | succ fuel ih =>
    have hj : (rfind sep (sub.take (i + 1))).elim 0 (· + 1) ≤ i + 1 := by
      cases hfind : rfind sep (sub.take (i + 1)) with
      | none => exact Nat.zero_le _
      | some k =>
        have hlt := rfind_lt hfind
        have hle := List.length_take_le (i + 1) sub
        change k + 1 ≤ i + 1
        omega
    rw [compareFromEndLoop]
    split
    · exact ⟨_, rfl⟩
    split
    · exact ⟨_, rfl⟩
    split
    · exact ⟨_, rfl⟩
    split
    · exact ⟨_, rfl⟩
    · exact ih (by omega)

theorem compareFromEnd_ends (locale : Locale) (main sub : Str) (sep : UInt8) :
    ∃ r, compareFromEnd locale main sub sep = some r := by
  rw [compareFromEnd]
  split
  · exact compareFromEndLoop_ends (by omega)
  · exact ⟨_, rfl⟩

/-! ## Parts -/

/-- The parts of a path that have a separator behind them; `part` is what has been read of one. -/
def partsFrom (sep : UInt8) : (part : Str) → Str → List Str
  | _, [] => []
  | part, c :: s => if c = sep then part :: partsFrom sep [] s else partsFrom sep (part ++ [c]) s

/-- A path without its leading separator. -/
def body (sep : UInt8) : Str → Str
  | [] => []
  | c :: s => if c = sep then s else c :: s

def parts (sep : UInt8) (path : Str) : List Str := partsFrom sep [] (body sep path)

/-- The path with these parts. -/
def join (sep : UInt8) (us : List Str) : Str := us.flatMap (· ++ [sep])

theorem join_nil : join sep [] = [] := rfl

theorem join_append (us vs : List Str) : join sep (us ++ vs) = join sep us ++ join sep vs :=
  List.flatMap_append

theorem join_cons (u : Str) (us : List Str) : join sep (u :: us) = u ++ sep :: join sep us := by
  rw [join, List.flatMap_cons, List.append_assoc, List.singleton_append, join]

theorem partsFrom_of_notMem {part u s : Str} (h : sep ∉ u) :
    partsFrom sep part (u ++ sep :: s) = (part ++ u) :: partsFrom sep [] s := by
  induction u generalizing part with
  | nil => rw [List.nil_append, partsFrom, if_pos rfl, List.append_nil]
  | cons c u ih =>
    rw [List.mem_cons, not_or] at h
    rw [List.cons_append, partsFrom, if_neg (Ne.symm h.1), ih h.2, List.append_assoc,
      List.singleton_append]

theorem partsFrom_join {us : List Str} (h : ∀ u ∈ us, sep ∉ u) :
    partsFrom sep [] (join sep us) = us := by
  induction us with
  | nil => rfl
  | cons u us ih =>
    rw [List.forall_mem_cons] at h
    rw [join_cons, partsFrom_of_notMem h.1, ih h.2, List.nil_append]

theorem notMem_partsFrom {part s : Str} (hpart : sep ∉ part) :
    ∀ u ∈ partsFrom sep part s, sep ∉ u := by
  induction s generalizing part with
  | nil => exact fun u hu => absurd hu List.not_mem_nil
  | cons c s ih =>
    rw [partsFrom]
    by_cases hc : c = sep
    · rw [if_pos hc, List.forall_mem_cons]
      exact ⟨hpart, ih List.not_mem_nil⟩
    · rw [if_neg hc]
      exact ih (by simpa [hpart] using Ne.symm hc)

/-- A path that ends with a separator consists of its parts. -/
theorem join_partsFrom {part s : Str} (h : s.getLast? = some sep) :
    join sep (partsFrom sep part s) = part ++ s := by
  induction s generalizing part with
  | nil => cases h
  | cons c s ih =>
    rw [partsFrom]
    rcases List.eq_nil_or_concat s with rfl | ⟨s', x, rfl⟩
    · obtain rfl : c = sep := Option.some.inj h
      rw [if_pos rfl, join_cons]
      rfl
    · have hlast : (s'.concat x).getLast? = some sep := by
        rw [List.concat_eq_append, ← List.cons_append, List.getLast?_append] at h
        rw [List.concat_eq_append, List.getLast?_append]
        exact h
      by_cases hc : c = sep
      · rw [if_pos hc, join_cons, ih hlast, hc, List.nil_append]
      · rw [if_neg hc, ih hlast, List.append_assoc, List.singleton_append]

/-! ## Common suffixes -/

section

variable {α : Type*} {same : α → α → Bool} {us ws xs : List α}

/-- `xs` is the end of `us`, and the same as an end of `ws`. -/
def Common (same : α → α → Bool) (us ws xs : List α) : Prop :=
  xs <:+ us ∧ ∃ ys, ys <:+ ws ∧ List.Forall₂ (fun x y => same x y = true) xs ys

/-- How many elements are the same from the beginning on. -/
def commonLength (same : α → α → Bool) : List α → List α → Nat
  | u :: us, w :: ws => if same u w then commonLength same us ws + 1 else 0
  | _, _ => 0

theorem commonLength_le (us ws : List α) : commonLength same us ws ≤ us.length := by
  induction us generalizing ws with
  | nil => cases ws <;> exact le_rfl
  | cons u us ih =>
    cases ws with
    | nil => exact Nat.zero_le _
    | cons w ws =>
      rw [commonLength]
      split
      · exact Nat.succ_le_succ (ih ws)
      · exact Nat.zero_le _

theorem prefix_iff_commonLength :
    (xs <+: us ∧ ∃ ys, ys <+: ws ∧ List.Forall₂ (fun x y => same x y = true) xs ys) ↔
      ∃ k ≤ commonLength same us ws, xs = us.take k := by
  induction us generalizing ws xs with
  | nil =>
    constructor
    · rintro ⟨hxs, -⟩
      exact ⟨0, Nat.zero_le _, List.prefix_nil.mp hxs⟩
    · rintro ⟨k, -, rfl⟩
      rw [List.take_nil]
      exact ⟨List.nil_prefix, [], List.nil_prefix, .nil⟩
  | cons u us ih =>
    constructor
    · rintro ⟨hxs, ys, hys, hsame⟩
      cases hsame with
      | nil => exact ⟨0, Nat.zero_le _, rfl⟩
      | @cons x y xs ys hxy hsame =>
        rcases ws with _ | ⟨w, ws⟩
        · exact absurd (List.prefix_nil.mp hys) (List.cons_ne_nil _ _)
        · obtain ⟨rfl, hxs'⟩ := List.cons_prefix_cons.mp hxs
          obtain ⟨rfl, hys'⟩ := List.cons_prefix_cons.mp hys
          obtain ⟨k, hk, rfl⟩ := ih.mp ⟨hxs', ys, hys', hsame⟩
          refine ⟨k + 1, ?_, rfl⟩
          rw [commonLength, if_pos hxy]
          exact Nat.succ_le_succ hk
    · rintro ⟨k, hk, rfl⟩
      rcases k with _ | k
      · exact ⟨List.nil_prefix, [], List.nil_prefix, .nil⟩
      · rcases ws with _ | ⟨w, ws⟩
        · cases hk
        · rw [commonLength] at hk
          by_cases hsame : same u w = true
          · rw [if_pos hsame] at hk
            obtain ⟨hxs, ys, hys, hrest⟩ := ih.mpr ⟨k, Nat.le_of_succ_le_succ hk, rfl⟩
            exact ⟨List.cons_prefix_cons.mpr ⟨rfl, hxs⟩, w :: ys,
              List.cons_prefix_cons.mpr ⟨rfl, hys⟩, .cons hsame hrest⟩
          · rw [if_neg hsame] at hk
            cases hk

/-- The common suffixes are as long as `commonLength`, or shorter. -/
theorem common_iff :
    Common same us ws xs ↔
      ∃ k ≤ commonLength same us.reverse ws.reverse, xs = us.drop (us.length - k) := by
  have hdrop : ∀ k, (xs.reverse = us.reverse.take k ↔ xs = us.drop (us.length - k)) := fun k => by
    rw [List.take_reverse, List.reverse_inj]
  simp only [← hdrop, ← prefix_iff_commonLength]
  rw [Common, List.reverse_prefix]
  refine and_congr_right fun _ => ?_
  constructor
  · rintro ⟨ys, hys, hsame⟩
    exact ⟨ys.reverse, List.reverse_prefix.mpr hys, List.forall₂_reverse_iff.mpr hsame⟩
  · rintro ⟨ys, hys, hsame⟩
    refine ⟨ys.reverse, ?_, ?_⟩
    · rwa [← List.reverse_prefix, List.reverse_reverse]
    · rwa [← List.forall₂_reverse_iff, List.reverse_reverse]

end

/-- What `compareFromEnd` is for: zero says that all the parts of the sub path are at the end of the
    main path, and another position stands in front of the longest suffix that the paths have in
    common. -/
structure ComparesFromEnd (locale : Locale) (main sub : Str) (msep sep : UInt8) (p : Nat) :
    Prop where
  zero_iff : p = 0 ↔
    Common (Util.sameNoCase locale) (parts sep sub) (parts msep main) (parts sep sub)
  boundary : p ≠ 0 → p ≤ sub.length ∧ sub[p - 1]? = some sep
  common : p ≠ 0 → Common (Util.sameNoCase locale) (parts sep sub) (parts msep main)
    (partsFrom sep [] (sub.drop p))
  longest : p ≠ 0 → ∀ xs, Common (Util.sameNoCase locale) (parts sep sub) (parts msep main) xs →
    xs.length ≤ (partsFrom sep [] (sub.drop p)).length

/-! ## Rounds -/

/-- The part is the same as the bytes of the main path at its distance from the end, with `done`
    bytes behind it. `none` is the `out_of_range`. -/
def probe (locale : Locale) (main : Str) (done : Nat) (u : Str) : Option Bool :=
  let d : Int := main.length - (done + u.length + 1)
  if Util.wrapInt d < 0 then some false
  else if d < 0 then none
  else some (Util.sameNoCase locale u ((main.drop d.toNat).take u.length))

/-- How many parts are found, one after the other; the last one comes first. -/
def partsFound (locale : Locale) (main : Str) : (done : Nat) → List Str → Option Nat
  | _, [] => some 0
  | done, u :: us =>
    match probe locale main done u with
    | none => none
    | some false => some 0
    | some true => (partsFound locale main (done + u.length + 1) us).map (· + 1)

theorem partsFound_le {done k : Nat} {us : List Str}
    (h : partsFound locale main done us = some k) : k ≤ us.length := by
  induction us generalizing done k with
  | nil =>
    obtain rfl : 0 = k := Option.some.inj h
    exact le_rfl
  | cons u us ih =>
    rw [partsFound] at h
    rcases hprobe : probe locale main done u with _ | _ | _
    · rw [hprobe] at h
      cases h
    · rw [hprobe] at h
      obtain rfl : 0 = k := Option.some.inj h
      exact Nat.zero_le _
    · rw [hprobe] at h
      obtain ⟨m, hm, rfl⟩ := Option.map_eq_some_iff.mp h
      exact Nat.succ_le_succ (ih hm)

/-- The common parts are found, and the next part of the sub path is not. -/
def FindsCommon (locale : Locale) (main : Str) : (done : Nat) → (us ws : List Str) → Prop
  | _, [], _ => True
  | done, u :: _, [] => probe locale main done u = some false
  | done, u :: us, w :: ws =>
    if Util.sameNoCase locale u w then
      probe locale main done u = some true ∧
        FindsCommon locale main (done + u.length + 1) us ws
    else probe locale main done u = some false

theorem findsCommon_iff {done : Nat} {us ws : List Str} :
    FindsCommon locale main done us ws ↔
      partsFound locale main done us = some (commonLength (Util.sameNoCase locale) us ws) := by
  induction us generalizing done ws with
  | nil => cases ws <;> exact iff_of_true trivial rfl
  | cons u us ih =>
    have hzero : probe locale main done u = some false ↔
        partsFound locale main done (u :: us) = some 0 := by
      rw [partsFound]
      rcases hprobe : probe locale main done u with _ | _ | _
      · simp
      · simp
      · simp
    cases ws with
    | nil => exact hzero
    | cons w ws =>
      rw [FindsCommon, commonLength]
      by_cases hsame : Util.sameNoCase locale u w = true
      · rw [if_pos hsame, if_pos hsame, ih, partsFound]
        rcases hprobe : probe locale main done u with _ | _ | _
        · simp
        · simp
        · simp
      · rw [if_neg hsame, if_neg hsame]
        exact hzero

/-! ## The loop over the parts -/

theorem length_join_cons (u : Str) (us : List Str) :
    (join sep (u :: us)).length = u.length + 1 + (join sep us).length := by
  rw [join_cons, List.length_append, List.length_cons]
  omega

/-- The last separator in front of a part. -/
theorem elim_rfind {q u : Str} (hq : q = [] ∨ q.getLast? = some sep) (hu : sep ∉ u) :
    (rfind sep (q ++ u)).elim 0 (· + 1) = q.length := by
  rcases List.eq_nil_or_concat q with rfl | ⟨q, x, rfl⟩
  · rw [List.nil_append, rfind_eq_none hu]
    rfl
  · obtain rfl : x = sep := by simpa using hq
    rw [List.concat_eq_append, List.append_assoc, List.singleton_append, rfind_append_cons q hu]
    simp

theorem getLast?_join {us : List Str} (hlead : lead = [] ∨ lead = [sep]) :
    lead ++ join sep us = [] ∨ (lead ++ join sep us).getLast? = some sep := by
  rcases List.eq_nil_or_concat us with rfl | ⟨us, u, rfl⟩
  · rcases hlead with rfl | rfl
    · exact .inl rfl
    · exact .inr rfl
  · refine .inr ?_
    rw [List.concat_eq_append, join_append, join_cons, ← List.append_assoc, ← List.append_assoc,
      List.getLast?_append]
    rfl

/-- **The loop goes through the parts.** `us` are the parts that are left, the last one first, with
    `tail` behind them. -/
theorem compareFromEndLoop_eq {us : List Str} {tail : Str} (hlead : lead = [] ∨ lead = [sep])
    (hus : ∀ u ∈ us, sep ∉ u) (hne : us ≠ [])
    (hfirst : ∀ u ∈ us.getLast?, 1 ≤ lead.length + u.length)
    (hsub : sub = lead ++ join sep us.reverse ++ tail)
    (hi : i + 2 = (lead ++ join sep us.reverse).length) (hfuel : i < fuel) :
    compareFromEndLoop locale main sub sep fuel i =
      some ((partsFound locale main tail.length us).map fun k =>
        if k = us.length then 0
        else (lead ++ join sep us.reverse).length - (join sep (us.take k)).length) := by
  induction us generalizing tail i fuel with
  | nil => exact absurd rfl hne
  | cons u us ih =>
    obtain ⟨fuel, rfl⟩ := Nat.exists_eq_succ_of_ne_zero (Nat.ne_zero_of_lt hfuel)
    have hu : sep ∉ u := hus u List.mem_cons_self
    have hpath : lead ++ join sep (u :: us).reverse =
        lead ++ join sep us.reverse ++ u ++ [sep] := by
      rw [List.reverse_cons, join_append, join_cons, join_nil]
      simp only [List.append_assoc]
    rw [hpath] at hsub hi ⊢
    have hfront := @getLast?_join lead sep us.reverse hlead
    have hlast : us ≠ [] → ∀ x ∈ us.getLast?, 1 ≤ lead.length + x.length := fun hus x hx =>
      hfirst x (by rwa [List.getLast?_cons_of_ne_nil hus])
    have hlong : us ≠ [] → 2 ≤ (lead ++ join sep us.reverse).length := by
      intro hus
      rcases List.eq_nil_or_concat us with rfl | ⟨us, x, rfl⟩
      · exact absurd rfl hus
      · have hx := hlast hus x (by simp)
        rw [List.concat_eq_append, List.reverse_append, List.reverse_singleton,
          List.singleton_append, List.length_append, length_join_cons]
        omega
    generalize hq : lead ++ join sep us.reverse = q at hsub hi hfront hlong ih ⊢
    have hbytes : i + 1 = (q ++ u).length := by
      rw [List.length_append, List.length_singleton] at hi
      omega
    have htake : sub.take (i + 1) = q ++ u := by
      rw [hsub, List.append_assoc (q ++ u), hbytes, List.take_left]
    have hj : (rfind sep (sub.take (i + 1))).elim 0 (· + 1) = q.length := by
      rw [htake, elim_rfind hfront hu]
    have hcount : i + 1 - q.length = u.length := by
      rw [hbytes, List.length_append]
      omega
    have hpart : (sub.drop q.length).take u.length = u := by
      rw [hsub, List.append_assoc, List.append_assoc, List.drop_left, List.take_left]
    have hd : (main.length : Int) - (sub.length - q.length) =
        main.length - (tail.length + u.length + 1) := by
      rw [hsub]
      simp only [List.length_append, List.length_singleton]
      omega
    -- the loop ends in front of the part
    have hstop : some (some (i + 2)) = some ((some 0).map fun k =>
        if k = (u :: us).length then 0
        else (q ++ u ++ [sep]).length - (join sep ((u :: us).take k)).length) := by
      rw [Option.map_some, List.length_cons, if_neg (Nat.succ_ne_zero _).symm, List.take_zero,
        join_nil, List.length_nil, Nat.sub_zero, hi]
    rw [compareFromEndLoop, hj, hcount, hpart, hd, partsFound, probe]
    by_cases hcast : Util.wrapInt (main.length - (tail.length + u.length + 1)) < 0
    · rw [if_pos hcast, if_pos hcast]
      exact hstop
    · rw [if_neg hcast, if_neg hcast]
      by_cases hneg : (main.length : Int) - (tail.length + u.length + 1) < 0
      · rw [if_pos hneg, if_pos hneg]
        rfl
      · rw [if_neg hneg, if_neg hneg]
        cases hsame : Util.sameNoCase locale u
          ((main.drop ((main.length : Int) - (tail.length + u.length + 1)).toNat).take u.length)
            with
        | false =>
          rw [if_pos rfl]
          exact hstop
        | true =>
          rw [if_neg Bool.noConfusion]
          dsimp only
          by_cases hend : us = []
          · have hshort : q.length ≤ 1 := by
              rw [← hq, hend, List.reverse_nil, join_nil, List.append_nil]
              rcases hlead with rfl | rfl
              · exact Nat.zero_le _
              · exact le_rfl
            rw [if_pos hshort, hend, partsFound]
            rfl
          · have hge := hlong hend
            have hnext : (u ++ [sep] ++ tail).length = tail.length + u.length + 1 := by
              simp only [List.length_append, List.length_singleton]
              omega
            have htail : sub = q ++ (u ++ [sep] ++ tail) := by
              rw [hsub]
              simp only [List.append_assoc]
            rw [List.length_append] at hbytes
            rw [if_neg (by omega), ih (fun v hv => hus v (List.mem_cons_of_mem _ hv)) hend
              (hlast hend) htail (by omega) (by omega), hnext, Option.map_map]
            congr 2
            funext k
            rw [Function.comp_apply, List.take_succ_cons, length_join_cons, List.length_cons,
              List.length_append, List.length_append, List.length_singleton]
            congr 1
            · simp
            · omega

/-! ## The position -/

theorem length_le_head {part s : Str} :
    ∀ u ∈ (partsFrom sep part s).head?, part.length ≤ u.length := by
  induction s generalizing part with
  | nil => exact fun u hu => absurd hu (Option.not_mem_none u)
  | cons c s ih =>
    intro u hu
    rw [partsFrom] at hu
    by_cases hc : c = sep
    · rw [if_pos hc] at hu
      obtain rfl : part = u := Option.some.inj hu
      exact le_rfl
    · rw [if_neg hc] at hu
      have hle := ih u hu
      rw [List.length_append] at hle
      omega

/-- A path that ends with a separator is its parts, with a separator in front of them or not. -/
theorem exists_lead (h : sub.getLast? = some sep) :
    ∃ lead, (lead = [] ∨ lead = [sep]) ∧ sub = lead ++ join sep (parts sep sub) ∧
      ∀ u ∈ (parts sep sub).head?, 1 ≤ lead.length + u.length := by
  cases sub with
  | nil => cases h
  | cons c s =>
    by_cases hc : c = sep
    · subst hc
      refine ⟨[c], .inr rfl, ?_, fun u _ => Nat.le_add_right _ _⟩
      rw [parts, body, if_pos rfl]
      cases s with
      | nil => rfl
      | cons d s =>
        rw [List.getLast?_cons_cons] at h
        rw [join_partsFrom h]
        rfl
    · refine ⟨[], .inl rfl, ?_, fun u hu => ?_⟩
      · rw [parts, body, if_neg hc, join_partsFrom h]
        rfl
      · rw [parts, body, if_neg hc, partsFrom, if_neg hc] at hu
        exact (length_le_head u hu).trans (Nat.le_add_left _ _)

theorem notMem_parts (sub : Str) : ∀ u ∈ parts sep sub, sep ∉ u :=
  notMem_partsFrom List.not_mem_nil

/-- Where the last `k` parts of a path begin; zero for all of them. -/
def position (sep : UInt8) (sub : Str) (k : Nat) : Nat :=
  if k = (parts sep sub).length then 0
  else sub.length - (join sep ((parts sep sub).reverse.take k)).length

theorem compareFromEnd_eq (h : sub.getLast? = some sep) (hne : parts sep sub ≠ []) :
    compareFromEnd locale main sub sep =
      some ((partsFound locale main 0 (parts sep sub).reverse).map (position sep sub)) := by
  obtain ⟨lead, hlead, hsub, hhead⟩ := exists_lead h
  have hlong : 1 < sub.length := by
    obtain ⟨u, us, hparts⟩ := List.exists_cons_of_ne_nil hne
    have hu := hhead u (by rw [hparts]; rfl)
    rw [hsub, hparts, List.length_append, length_join_cons]
    omega
  have hpath : sub = lead ++ join sep (parts sep sub).reverse.reverse ++ [] := by
    rw [List.reverse_reverse, List.append_nil, ← hsub]
  rw [compareFromEnd, if_pos hlong, compareFromEndLoop_eq hlead
    (fun u hu => notMem_parts sub u (List.mem_reverse.mp hu)) (by simpa using hne)
    (by rwa [List.getLast?_reverse]) hpath (by
      rw [List.reverse_reverse, ← hsub]
      omega) (by omega)]
  congr 2
  funext k
  rw [position, List.length_reverse, List.reverse_reverse, ← hsub]

/-- The bytes of the last parts. -/
theorem length_join_reverse (us : List Str) :
    (join sep us.reverse).length = (join sep us).length := by
  induction us with
  | nil => rfl
  | cons u us ih =>
    rw [List.reverse_cons, join_append, List.length_append, ih, length_join_cons,
      length_join_cons, join_nil]
    simp only [List.length_nil]
    omega

/-- **The position is the one of the last parts.** -/
theorem position_spec {k : Nat} (h : sub.getLast? = some sep) (hk : k < (parts sep sub).length) :
    position sep sub k ≠ 0 ∧ position sep sub k ≤ sub.length ∧
      sub[position sep sub k - 1]? = some sep ∧
      partsFrom sep [] (sub.drop (position sep sub k)) =
        (parts sep sub).drop ((parts sep sub).length - k) := by
  obtain ⟨lead, hlead, hsub, -⟩ := exists_lead h
  obtain ⟨us, vs, hsplit, hvs⟩ : ∃ us vs, parts sep sub = us ++ vs ∧ vs.length = k :=
    ⟨_, _, (List.take_append_drop ((parts sep sub).length - k) _).symm, by
      rw [List.length_drop]
      omega⟩
  have hus : us ≠ [] := by
    rintro rfl
    rw [hsplit, List.nil_append] at hk
    omega
  have hfront : (lead ++ join sep us).getLast? = some sep :=
    (getLast?_join hlead).resolve_left fun hnil => by
      obtain ⟨u, us', rfl⟩ := List.exists_cons_of_ne_nil hus
      rw [List.append_eq_nil_iff, join_cons] at hnil
      simp at hnil
  have hpath : sub = lead ++ join sep us ++ join sep vs := by
    rw [List.append_assoc, ← join_append, ← hsplit]
    exact hsub
  have htake : (parts sep sub).reverse.take k = vs.reverse := by
    rw [hsplit, List.reverse_append, ← hvs, ← List.length_reverse, List.take_left]
  have hpos : position sep sub k = (lead ++ join sep us).length := by
    rw [position, if_neg hk.ne, htake, length_join_reverse]
    have hlength := congrArg List.length hpath
    rw [List.length_append] at hlength
    omega
  have hdrop : (parts sep sub).drop ((parts sep sub).length - k) = vs := by
    rw [hsplit, List.length_append, hvs, Nat.add_sub_cancel, List.drop_left]
  have hlen : (lead ++ join sep us).length ≠ 0 := by
    intro hzero
    rw [List.length_eq_zero_iff.mp hzero] at hfront
    cases hfront
  have hvsnot : ∀ v ∈ vs, sep ∉ v := fun v hv =>
    notMem_parts sub v (hsplit ▸ List.mem_append_right us hv)
  rw [hpos, hdrop]
  refine ⟨hlen, ?_, ?_, ?_⟩
  · have hlength := congrArg List.length hpath
    rw [List.length_append] at hlength
    omega
  · rw [hpath, List.getElem?_append_left (by omega), ← List.getLast?_eq_getElem?, hfront]
  · rw [hpath, List.drop_left, partsFrom_join hvsnot]

/-- **The result is right when as many parts have been found as the paths have in common.** -/
theorem comparesFromEnd_position_iff {k : Nat} (h : sub.getLast? = some sep)
    (hk : k ≤ (parts sep sub).length) :
    ComparesFromEnd locale main sub msep sep (position sep sub k) ↔
      k = commonLength (Util.sameNoCase locale) (parts sep sub).reverse
        (parts msep main).reverse := by
  have hmax := @commonLength_le _ (Util.sameNoCase locale) (parts sep sub).reverse
    (parts msep main).reverse
  rw [List.length_reverse] at hmax
  have hall : Common (Util.sameNoCase locale) (parts sep sub) (parts msep main) (parts sep sub) ↔
      commonLength (Util.sameNoCase locale) (parts sep sub).reverse (parts msep main).reverse =
        (parts sep sub).length := by
    rw [common_iff]
    constructor
    · rintro ⟨m, hm, heq⟩
      have hlength := congrArg List.length heq
      rw [List.length_drop] at hlength
      omega
    · intro heq
      exact ⟨_, heq.ge, by simp⟩
  rcases Nat.eq_or_lt_of_le hk with rfl | hlt
  · rw [position, if_pos rfl, eq_comm, ← hall]
    constructor
    · exact fun hcomp => hcomp.zero_iff.mp rfl
    · exact fun hcommon => ⟨iff_of_true rfl hcommon, fun h => absurd rfl h, fun h => absurd rfl h,
        fun h => absurd rfl h⟩
  · obtain ⟨hne, hle, hsep, hparts⟩ := position_spec h hlt
    constructor
    · intro hcomp
      have hcommon := hcomp.common hne
      have hlongest := hcomp.longest hne _ (common_iff.mpr ⟨_, le_rfl, rfl⟩)
      rw [hparts, common_iff] at hcommon
      obtain ⟨m, hm, heq⟩ := hcommon
      have hlength := congrArg List.length heq
      rw [hparts, List.length_drop, List.length_drop] at hlongest
      rw [List.length_drop, List.length_drop] at hlength
      omega
    · rintro heq
      refine ⟨iff_of_false hne fun hcommon => ?_, fun _ => ⟨hle, hsep⟩, fun _ => ?_,
        fun _ xs hxs => ?_⟩
      · exact hlt.ne (heq.trans (hall.mp hcommon))
      · rw [hparts, common_iff]
        exact ⟨k, heq.le, rfl⟩
      · obtain ⟨m, hm, rfl⟩ := common_iff.mp hxs
        rw [hparts, List.length_drop, List.length_drop]
        omega

/-- `CD1` is not a directory of `/xCD1/`, but its name ends with it. -/
theorem compareFromEnd_inside_part :
    ¬ ∀ (locale : Locale) (main sub : Str) (msep : UInt8), main.getLast? = some msep →
      sub.getLast? = some PATH_SEPARATOR →
      ∃ p, compareFromEnd locale main sub PATH_SEPARATOR = some (some p) ∧
        ComparesFromEnd locale main sub msep PATH_SEPARATOR p := by
  intro h
  obtain ⟨p, hp, hcomp⟩ := h ⟨id, fun s _ => s⟩ (str "/xCD1/") (str "/CD1/") PATH_SEPARATOR
    (by decide) (by decide)
  have hzero : compareFromEnd ⟨id, fun s _ => s⟩ (str "/xCD1/") (str "/CD1/") PATH_SEPARATOR =
      some (some 0) := by decide +kernel
  obtain rfl : p = 0 := by simpa using hp.symm.trans hzero
  obtain ⟨k, hk, heq⟩ := common_iff.mp (hcomp.zero_iff.mp rfl)
  have hnone : commonLength (Util.sameNoCase ⟨id, fun s _ => s⟩)
      (parts PATH_SEPARATOR (str "/CD1/")).reverse
      (parts PATH_SEPARATOR (str "/xCD1/")).reverse = 0 := by decide +kernel
  obtain rfl : k = 0 := by
    rw [hnone] at hk
    exact Nat.le_zero.mp hk
  revert heq
  decide +kernel

/-- **When `compareFromEnd` compares whole parts.** The loop always ends. Its result is right if the
    sub path has parts at all, those that the paths have in common lie at the same distance from the
    end, and the next part of the sub path is not found at its distance. -/
theorem comparesFromEnd_iff (locale : Locale) (main sub : Str) (msep sep : UInt8)
    (h : sub.getLast? = some sep) :
    (∀ path, ∃ r, compareFromEnd locale main path sep = some r) ∧
    ((∃ p, compareFromEnd locale main sub sep = some (some p) ∧
        ComparesFromEnd locale main sub msep sep p) ↔
      parts sep sub ≠ [] ∧
        FindsCommon locale main 0 (parts sep sub).reverse (parts msep main).reverse) := by
  refine ⟨fun path => compareFromEnd_ends locale main path sep, ?_⟩
  by_cases hne : parts sep sub = []
  · refine iff_of_false ?_ fun hparts => hparts.1 hne
    rintro ⟨p, hp, hcomp⟩
    obtain ⟨lead, hlead, hsub, -⟩ := exists_lead h
    rw [hne, join_nil, List.append_nil] at hsub
    have hone : sub = [sep] := by
      rcases hlead with rfl | rfl
      · rw [hsub] at h
        cases h
      · exact hsub
    rw [hone, compareFromEnd, if_neg (by simp)] at hp
    obtain rfl : 1 = p := by simpa using hp
    -- no parts are a suffix of everything
    have hcommon : Common (Util.sameNoCase locale) (parts sep sub) (parts msep main)
        (parts sep sub) := by
      rw [hne]
      exact ⟨List.suffix_rfl, [], List.nil_suffix, .nil⟩
    exact absurd (hcomp.zero_iff.mpr hcommon) Nat.one_ne_zero
  · rw [compareFromEnd_eq h hne, and_iff_right hne, findsCommon_iff]
    cases hfound : partsFound locale main 0 (parts sep sub).reverse with
    | none => simp
    | some k =>
      have hk := partsFound_le hfound
      rw [List.length_reverse] at hk
      rw [Option.some.injEq, ← comparesFromEnd_position_iff h hk]
      simp

theorem comparesFromEnd_lastDirectory :
    ∃ p, compareFromEnd ⟨id, fun s _ => s⟩ (str "/Downloads/1/") (str "/1/") PATH_SEPARATOR =
        some (some p) ∧
      ComparesFromEnd ⟨id, fun s _ => s⟩ (str "/Downloads/1/") (str "/1/") PATH_SEPARATOR
        PATH_SEPARATOR p :=
  (comparesFromEnd_iff _ _ (str "/1/") PATH_SEPARATOR PATH_SEPARATOR (by decide)).2.mpr
    ⟨by decide +kernel, findsCommon_iff.mpr (by decide +kernel)⟩

end PathUtil
end Airdcpp
