import Airdcpp.Lib.StrictWeak
import Airdcpp.Queue.QueueItem
import Airdcpp.Util.PathUtil
import Airdcpp.Util.Strings

/-!
# `Queue/SortOrders` — the orders in which queued files are kept

`AlphaSortOrder` compares the targets as strings, except that of two names that differ in their
extensions only `.rar` comes before `.r00`, `.r01` and so on; in the order of strings it comes after
them. `SizeSortOrder` compares the sizes, except that partial file lists come first and small files
come before file lists.

Both are given to binary searches. An exception of the first one spoils the order when another name
lies between the two (`.ra` lies between `.r00` and `.rar`). The exceptions of the second one put
some items before themselves.
-/

namespace Airdcpp

open Lib

namespace QueueItem

def FLAG_PARTIAL_LIST : MaskType := 0x20

def isdigit (c : UInt8) : Bool := decide (chr '0' ≤ c) && decide (c ≤ chr '9')

/-- The extension at the position is `.rXX`. -/
def isRxx (aPath : Str) (extPos : Nat) : Bool :=
  aPath.length - extPos == 4 && aPath.getD (extPos + 1) 0 == chr 'r' &&
    isdigit (aPath.getD (extPos + 2) 0)

/-- `stricmp` with `.rar` -/
def isRar (locale : Locale) (aPath : Str) (extPos : Nat) : Bool :=
  Util.stricmp locale (aPath.length + 1) (aPath.drop extPos) (str ".rar") == 0

def AlphaSortOrder (locale : Locale) (left right : QueueItem) : Bool :=
  match PathUtil.rfind (chr '.') left.target, PathUtil.rfind (chr '.') right.target with
  | some extLeft, some extRight =>
    if left.target.take extLeft = right.target.take extRight then
      -- only the extensions differs, .rar comes before .rXX
      if isRar locale left.target extLeft && isRxx right.target extRight then true
      else if isRar locale right.target extRight && isRxx left.target extLeft then false
      else decide (left.target < right.target)
    else decide (left.target < right.target)
  | _, _ => decide (left.target < right.target)

def SizeSortOrder (st : Settings) (left right : QueueItem) : Bool :=
  -- partial lists always go first
  if isSet left.flags FLAG_PARTIAL_LIST then true
  else if isSet right.flags FLAG_PARTIAL_LIST then false
  -- small files go before full lists
  else if isSet right.flags FLAG_USER_LIST && decide (left.size < st.prioHighestSize * 1024) then
    true
  else if isSet left.flags FLAG_USER_LIST && decide (right.size < st.prioHighestSize * 1024) then
    false
  else decide (left.size < right.size)

/-! ## Names -/

variable {locale : Locale} {st : Settings} {S : Set QueueItem} {x y z : Str}

/-- The first name is the `.rar` of an archive and the second one is one of its `.rXX`. -/
def RarFirst (locale : Locale) (x y : Str) : Prop :=
  ∃ i ∈ PathUtil.rfind (chr '.') x, ∃ j ∈ PathUtil.rfind (chr '.') y,
    x.take i = y.take j ∧ isRar locale x i = true ∧ isRxx y j = true

/-- No digit is an `a` in lower case. -/
def DigitsApart (locale : Locale) : Prop :=
  ∀ c, isdigit c = true → locale.towlower c.toNat ≠ locale.towlower (chr 'a').toNat

/-- One character of ASCII in the comparison. -/
theorem stricmp_cons {n : Nat} {a b : UInt8} {s t : Str} (ha : a.toNat < 128) (hb : b.toNat < 128)
    (hzero : a ≠ 0) (h : Util.stricmp locale (n + 1) (a :: s) (b :: t) = 0) :
    locale.towlower a.toNat = locale.towlower b.toNat ∧ Util.stricmp locale n s t = 0 := by
  simp only [Util.stricmp, Text.utf8ToWc_ascii ha, Text.utf8ToWc_ascii hb, List.getD_cons_zero,
    hzero, false_or, Int.natAbs_one, List.drop_one, List.tail_cons] at h
  split at h
  · rename_i hne
    exact absurd h hne
  · rename_i heq
    exact ⟨by omega, h⟩

/-- `.rXX` is not `.rar`. -/
theorem not_isRar_of_isRxx {i : Nat} (hlocale : DigitsApart locale)
    (hdot : PathUtil.rfind (chr '.') x = some i) (h : isRxx x i = true) :
    isRar locale x i = false := by
  rw [isRxx, Bool.and_eq_true, Bool.and_eq_true, beq_iff_eq, beq_iff_eq] at h
  obtain ⟨⟨hlength, hr⟩, hdigit⟩ := h
  obtain ⟨a, b, c, d, hext⟩ : ∃ a b c d, x.drop i = [a, b, c, d] := by
    have hdrop : (x.drop i).length = 4 := by rw [List.length_drop, hlength]
    match hx : x.drop i, hdrop with
    | [a, b, c, d], _ => exact ⟨a, b, c, d, rfl⟩
  have hget : ∀ k, x.getD (i + k) 0 = (x.drop i).getD k 0 := by
    intro k
    rw [List.getD_eq_getElem?_getD, List.getD_eq_getElem?_getD, List.getElem?_drop]
  have ha : a = chr '.' := by
    have := PathUtil.rfind_getD hdot
    rw [← Nat.add_zero i, hget, hext] at this
    exact this
  rw [hget, hext] at hr hdigit
  obtain rfl : b = chr 'r' := hr
  have hc : isdigit c = true := hdigit
  subst ha
  rw [isRar, Bool.eq_false_iff, hext]
  intro hrar
  have hlow : c.toNat < 128 ∧ c ≠ 0 := by
    rw [isdigit, Bool.and_eq_true, decide_eq_true_eq, decide_eq_true_eq] at hc
    have hle : c.toNat ≤ 57 := UInt8.le_iff_toNat_le.mp hc.2
    refine ⟨by omega, ?_⟩
    rintro rfl
    exact absurd hc.1 (by decide)
  have hfuel : x.length + 1 = (x.length - 2) + 1 + 1 + 1 := by omega
  rw [beq_iff_eq, hfuel] at hrar
  have h1 :=
    (stricmp_cons (b := chr '.') (t := str "rar") (by decide) (by decide) (by decide) hrar).2
  have h2 := (stricmp_cons (b := chr 'r') (t := str "ar") (by decide) (by decide) (by decide) h1).2
  exact hlocale c hc (stricmp_cons (b := chr 'a') (t := str "r") hlow.1 (by decide) hlow.2 h2).1

/-- What has to come after something is no `.rar`. -/
theorem not_rarFirst_of_rarFirst (hlocale : DigitsApart locale) (h : RarFirst locale x y) :
    ¬ RarFirst locale y z := by
  intro h'
  obtain ⟨i, hi, j, hj, -, -, hxx⟩ := h
  obtain ⟨j', hj', k, hk, -, hrar, -⟩ := h'
  obtain rfl : j = j' := Option.some.inj (hj.symm.trans hj')
  rw [not_isRar_of_isRxx hlocale hj hxx] at hrar
  cases hrar

theorem alphaSortOrder_iff {left right : QueueItem} :
    AlphaSortOrder locale left right = true ↔
      before (RarFirst locale) left.target right.target := by
  unfold AlphaSortOrder
  split
  · rename_i i j hi hj
    have hfirst : ∀ {x y : Str} {i j : Nat}, PathUtil.rfind (chr '.') x = some i →
        PathUtil.rfind (chr '.') y = some j → (RarFirst locale x y ↔
          x.take i = y.take j ∧ (isRar locale x i && isRxx y j) = true) := by
      intro x y i j hx hy
      rw [Bool.and_eq_true, RarFirst, hx, hy]
      simp
    split
    · rename_i hstem
      split
      · rename_i hrar
        exact iff_of_true rfl (.inl ((hfirst hi hj).mpr ⟨hstem, hrar⟩))
      · rename_i hnot
        have hnone : ¬ RarFirst locale left.target right.target :=
          fun h => hnot ((hfirst hi hj).mp h).2
        split
        · rename_i hrar
          have hback := (hfirst hj hi).mpr ⟨hstem.symm, hrar⟩
          exact iff_of_false (by simp) fun h => h.elim hnone fun h => h.1 hback
        · rename_i hnot'
          have hnone' : ¬ RarFirst locale right.target left.target :=
            fun h => hnot' ((hfirst hj hi).mp h).2
          rw [decide_eq_true_eq, before, or_iff_right hnone, and_iff_right hnone']
    · rename_i hstem
      rw [decide_eq_true_eq, before, or_iff_right fun h => hstem ((hfirst hi hj).mp h).1,
        and_iff_right fun h => hstem ((hfirst hj hi).mp h).1.symm]
  · rename_i hdots
    have hnone : ∀ {i j : Nat}, PathUtil.rfind (chr '.') left.target = some i →
        PathUtil.rfind (chr '.') right.target = some j → False := fun hi hj => hdots _ _ hi hj
    rw [decide_eq_true_eq, before, or_iff_right, and_iff_right]
    · intro h
      obtain ⟨i, hi, j, hj, -⟩ := h
      exact hnone hj hi
    · intro h
      obtain ⟨i, hi, j, hj, -⟩ := h
      exact hnone hi hj

/-! ## When they are orders -/

/-- Where a `.rXX` comes behind the `.rar` of its archive, and another name is between the two as
    strings, this name is a `.rXX` or a `.rar` of the archive too. -/
def NothingBetween (locale : Locale) (S : Set QueueItem) : Prop :=
  ∀ a ∈ S, ∀ b ∈ S, ∀ c ∈ S, RarFirst locale a.target b.target → b.target < c.target →
    c.target < a.target → RarFirst locale a.target c.target ∨ RarFirst locale c.target b.target

/-- Neither a partial list nor a small file list. -/
def Sized (st : Settings) (q : QueueItem) : Prop :=
  isSet q.flags FLAG_PARTIAL_LIST = false ∧
    (isSet q.flags FLAG_USER_LIST = true → st.prioHighestSize * 1024 ≤ q.size)

theorem sizeSortOrder_self {q : QueueItem} :
    SizeSortOrder st q q = true ↔ ¬ Sized st q := by
  unfold SizeSortOrder Sized
  cases isSet q.flags FLAG_PARTIAL_LIST with
  | true => simp
  | false =>
    cases isSet q.flags FLAG_USER_LIST with
    | true => simp
    | false => simp

theorem sizeSortOrder_sized {a b : QueueItem} (ha : Sized st a) (hb : Sized st b) :
    SizeSortOrder st a b = true ↔ a.size < b.size := by
  unfold SizeSortOrder
  rw [ha.1, hb.1]
  simp only [Bool.false_eq_true, if_false]
  cases hlist : isSet b.flags FLAG_USER_LIST with
  | true =>
    have hbig := hb.2 hlist
    by_cases hsmall : a.size < st.prioHighestSize * 1024
    · simp only [Bool.true_and, hsmall, decide_true, if_true, true_iff]
      exact lt_of_lt_of_le hsmall hbig
    · simp [hsmall, not_lt.mpr hbig]
  | false =>
    cases hlist' : isSet a.flags FLAG_USER_LIST with
    | true =>
      have hbig := ha.2 hlist'
      by_cases hsmall : b.size < st.prioHighestSize * 1024
      · simp only [Bool.false_and, Bool.false_eq_true, if_false, Bool.true_and, hsmall,
          decide_true, if_true, false_iff, not_lt]
        exact le_trans hsmall.le hbig
      · simp [hsmall]
    | false => simp

/-- **The two comparisons sort a queue exactly when no name lies between a `.rar` and its `.rXX`,
    and there are no partial lists and no small file lists.** -/
theorem sortOrders_strict_iff (hlocale : DigitsApart locale) :
    StrictWeakOn S (fun a b => AlphaSortOrder locale a b = true) ∧
        StrictWeakOn S (fun a b => SizeSortOrder st a b = true) ↔
      NothingBetween locale S ∧ ∀ q ∈ S, Sized st q := by
  refine and_congr ?_ ?_
  · simp only [alphaSortOrder_iff]
    exact strictWeakOn_before_iff fun x y z h => not_rarFirst_of_rarFirst hlocale h
  · constructor
    · intro h q hq
      by_contra hnot
      exact h.irrefl q hq (sizeSortOrder_self.mpr hnot)
    · intro h
      exact strictWeakOn_of_key size fun a ha b hb => sizeSortOrder_sized (h a ha) (h b hb)

theorem sortOrders_strict_single :
    StrictWeakOn {sample 1} (fun a b => AlphaSortOrder ⟨id, fun s _ => s⟩ a b = true) ∧
      StrictWeakOn {sample 1} (fun a b => SizeSortOrder {} a b = true) := by
  refine (sortOrders_strict_iff ?_).mpr ⟨?_, ?_⟩
  · intro c hc hne
    obtain rfl : c = chr 'a' := UInt8.toNat.inj hne
    exact absurd hc (by decide)
  · intro a ha b hb c hc _ hbc hca
    obtain rfl : b = c := hb.trans hc.symm
    exact absurd hbc (lt_irrefl _)
  · intro q hq
    obtain rfl : q = sample 1 := hq
    exact ⟨by decide, fun h => absurd h (by decide)⟩

/-- A partial list comes before itself. -/
theorem sizeSortOrder_not_strict :
    ¬ ∀ (locale : Locale) (st : Settings) (S : Set QueueItem), DigitsApart locale →
      StrictWeakOn S (fun a b => AlphaSortOrder locale a b = true) ∧
        StrictWeakOn S (fun a b => SizeSortOrder st a b = true) := by
  intro h
  have hstrict := (h ⟨id, fun s _ => s⟩ {} Set.univ ?_).2
  · exact hstrict.irrefl { sample 0 with flags := FLAG_PARTIAL_LIST } (Set.mem_univ _) (by decide)
  · intro c hc hne
    obtain rfl : c = chr 'a' := UInt8.toNat.inj hne
    exact absurd hc (by decide)

end QueueItem
end Airdcpp
