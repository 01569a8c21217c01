import Airdcpp.Search.SearchQuery

/-!
# `Search/Extensions` — included and excluded extensions

The first call of `hasExt` takes the excluded extensions out of the included ones with
`set_difference`, which asks for sorted lists; the parameters come in any order, and when they are
not sorted an extension that is excluded can be left. When nothing is left, the next call takes the
empty list for no restriction. An extension with a null byte is compared as a C string, and never
matches.

`answers_iff` says for which parameters none of this shows.
-/

namespace Airdcpp
namespace Matching

variable {locale : Locale} {e name p : Str} {q : SearchQuery} {params : List Str}

/-! ## What is given -/

/-- The parameters that are read: those up to a TTH. -/
def readParams (params : List Str) : List Str :=
  params.takeWhile fun p => !(decide (2 < p.length) && p.take 2 == str "TR")

/-- The extensions that a parameter gives. -/
def paramExts (locale : Locale) (p : Str) : List Str :=
  if p.length ≤ 2 then []
  else if p.take 2 = str "EX" then [Text.toLower locale (p.drop 2)]
  else if p.take 2 = str "GR" then parseSearchExts (Util.toInt (p.drop 2))
  else []

/-- The extension that a parameter excludes. -/
def paramNoExts (locale : Locale) (p : Str) : List Str :=
  if 2 < p.length ∧ p.take 2 = str "RX" then [Text.toLower locale (p.drop 2)] else []

def givenExts (locale : Locale) (params : List Str) : List Str := params.flatMap (paramExts locale)

def givenNoExts (locale : Locale) (params : List Str) : List Str :=
  params.flatMap (paramNoExts locale)

/-- Whether the name has an extension that is asked for and not excluded. -/
def Allowed (E N : List Str) (name : Str) : Prop := E = [] ∨ ∃ e ∈ E, e ∉ N ∧ e <:+ name

instance (E N : List Str) (name : Str) : Decidable (Allowed E N name) :=
  inferInstanceAs (Decidable (_ ∨ _))

/-- What one call of `hasExt` after the other answers. -/
def answers : SearchQuery → List Str → List Bool
  | _, [] => []
  | q, name :: names => (q.hasExt name).1 :: answers (q.hasExt name).2 names

/-! ## What the query has -/

theorem addParam_ext (hp : ¬ p.length ≤ 2) :
    e ∈ (q.addParam locale p).ext ↔ e ∈ q.ext ∨ e ∈ paramExts locale p := by
  rw [paramExts, if_neg hp, SearchQuery.addParam]
  simp only [apply_ite SearchQuery.ext, ite_self]
  by_cases hex : p.take 2 = str "EX"
  · have hne : ¬ str "EX" = str "AN" ∧ ¬ str "EX" = str "NO" := by decide
    simp only [hex, if_neg hne.1, if_neg hne.2, if_true, List.mem_append]
  by_cases hgr : p.take 2 = str "GR"
  · have hne : ¬ str "GR" = str "AN" ∧ ¬ str "GR" = str "NO" ∧ ¬ str "GR" = str "EX" := by decide
    simp only [hgr, if_neg hne.1, if_neg hne.2.1, if_neg hne.2.2, if_true, List.mem_append]
    exact or_comm
  · simp only [if_neg hex, if_neg hgr, List.not_mem_nil, or_false, ite_self]

theorem readParams_cons (p : Str) (params : List Str) : readParams (p :: params) =
    if 2 < p.length ∧ p.take 2 = str "TR" then [] else p :: readParams params := by
  rw [readParams, List.takeWhile_cons]
  by_cases h : 2 < p.length ∧ p.take 2 = str "TR"
  · rw [if_pos h]
    simp [h.1, h.2]
  · rw [if_neg h, if_pos]
    · rfl
    · rw [Bool.not_eq_true', Bool.and_eq_false_iff, decide_eq_false_iff_not, beq_eq_false_iff_ne]
      tauto

theorem ofParamsFrom_ext (params : List Str) (q : SearchQuery) (e : Str) :
    e ∈ (SearchQuery.ofParamsFrom locale params q).ext ↔
      e ∈ q.ext ∨ e ∈ givenExts locale (readParams params) := by
  induction params generalizing q with
  | nil => simp [SearchQuery.ofParamsFrom, SearchQuery.prepare, givenExts, readParams]
  | cons p params ih =>
    rw [SearchQuery.ofParamsFrom, givenExts, readParams_cons]
    by_cases hp : p.length ≤ 2
    · rw [if_pos hp, if_neg (fun h => absurd h.1 (Nat.not_lt.mpr hp)), List.flatMap_cons, paramExts,
        if_pos hp]
      exact ih q
    · rw [if_neg hp]
      by_cases htr : p.take 2 = str "TR"
      · rw [if_pos htr, if_pos ⟨by omega, htr⟩]
        simp
      · rw [if_neg htr, if_neg (fun h => htr h.2), List.flatMap_cons, ih, addParam_ext hp,
          List.mem_append, or_assoc]
        rfl

theorem mem_ext (locale : Locale) (params : List Str) (e : Str) :
    e ∈ (SearchQuery.ofParams locale params).ext ↔ e ∈ givenExts locale (readParams params) := by
  rw [SearchQuery.ofParams, ofParamsFrom_ext]
  exact or_iff_right List.not_mem_nil

theorem mem_givenExts_of_mem_ext (he : e ∈ (SearchQuery.ofParams locale params).ext) :
    e ∈ givenExts locale params := by
  obtain ⟨p, hp, hmem⟩ := List.mem_flatMap.mp ((mem_ext locale params e).mp he)
  exact List.mem_flatMap.mpr ⟨p, (List.takeWhile_prefix _).subset hp, hmem⟩

theorem mem_parseSearchExts {flag : Int} (he : e ∈ parseSearchExts flag) :
    ∃ l ∈ searchExtensions, e ∈ l := by
  have hfold : ∀ (ls : List (List Str × Nat)) (ret : List Str),
      e ∈ ls.foldl (fun ret i => if (flag % 2 ^ 32).toNat.testBit i.2 then i.1 ++ ret else ret) ret
        →
        e ∈ ret ∨ ∃ i ∈ ls, e ∈ i.1 := by
    intro ls
    induction ls with
    | nil => exact fun ret h => Or.inl h
    | cons i ls ih =>
      intro ret h
      rw [List.foldl_cons] at h
      rcases ih _ h with h | ⟨k, hk, hek⟩
      · split_ifs at h
        · rcases List.mem_append.mp h with h | h
          · exact Or.inr ⟨i, List.mem_cons_self, h⟩
          · exact Or.inl h
        · exact Or.inl h
      · exact Or.inr ⟨k, List.mem_cons_of_mem i hk, hek⟩
  rcases hfold _ _ he with h | ⟨i, hi, hei⟩
  · exact absurd h List.not_mem_nil
  · exact ⟨i.1, List.fst_mem_of_mem_zipIdx hi, hei⟩

/-- No extension that is given is empty. -/
theorem nil_not_mem_givenExts (locale : Locale) (params : List Str) :
    [] ∉ givenExts locale params := by
  intro h
  obtain ⟨p, -, hp⟩ := List.mem_flatMap.mp h
  rw [paramExts] at hp
  split_ifs at hp with hlen hex hgr
  · exact List.not_mem_nil hp
  · have hdrop : p.drop 2 ≠ [] := by
      rw [Ne, List.drop_eq_nil_iff]
      exact hlen
    exact StringSearch.Pattern.toLower_ne_nil hdrop (List.mem_singleton.mp hp).symm
  · obtain ⟨l, hl, hnil⟩ := mem_parseSearchExts hp
    have hall : ∀ l ∈ searchExtensions, [] ∉ l := by decide
    exact hall l hl hnil
  · exact List.not_mem_nil hp

/-! ## What is left, and what matches -/

/-- An extension with a null byte never matches. -/
theorem endsWith_iff : endsWith name e = true ↔ 0 ∉ e ∧ e <:+ name := by
  rw [endsWith, Bool.and_eq_true, decide_eq_true_iff, beq_iff_eq]
  constructor
  · rintro ⟨hle, heq⟩
    have hlen := congrArg List.length heq
    rw [List.length_drop] at hlen
    have hall : e.takeWhile (· != 0) = e :=
      (List.takeWhile_prefix _).eq_of_length (by omega)
    refine ⟨fun h0 => ?_, ?_⟩
    · rw [← hall] at h0
      exact absurd (List.mem_takeWhile_imp h0) (by simp)
    · rw [hall] at heq
      rw [← heq]
      exact List.drop_suffix _ _
  · rintro ⟨h0, t, rfl⟩
    have hall : e.takeWhile (· != 0) = e := by
      rw [List.takeWhile_eq_self_iff]
      intro x hx
      rw [bne_iff_ne]
      rintro rfl
      exact h0 hx
    rw [hall]
    simp

/-- What is left of the extensions. -/
def leftExts (locale : Locale) (params : List Str) : List Str :=
  let q := SearchQuery.ofParams locale params
  if q.noExt.isEmpty then q.ext else setDifference q.ext q.noExt

/-- Extensions are asked for; some are left, and what matches one of those left has an extension
    that is allowed, and the other way round. -/
structure LeftAsAsked (E N S : List Str) : Prop where
  nonempty : S ≠ []
  allowed : ∀ e ∈ S, 0 ∉ e → ∃ e' ∈ E, e' ∉ N ∧ e' <:+ e
  matched : ∀ e ∈ E, e ∉ N → ∃ e' ∈ S, 0 ∉ e' ∧ e' <:+ e

theorem hasExt_of_empty (hext : q.ext = []) : q.hasExt name = (true, q) := by
  rw [SearchQuery.hasExt, hext]
  rfl

theorem hasExt_of_left (hext : q.ext ≠ []) (hno : q.noExt = []) :
    q.hasExt name = (q.ext.any (endsWith name), q) := by
  have he : q.ext.isEmpty = false := by rwa [List.isEmpty_eq_false_iff]
  rw [SearchQuery.hasExt, he, hno]
  rfl

theorem answers_of_empty (hext : q.ext = []) (names : List Str) :
    answers q names = names.map fun _ => true := by
  induction names with
  | nil => rfl
  | cons name names ih => rw [answers, hasExt_of_empty hext, List.map_cons, ih]

theorem answers_of_left (hext : q.ext ≠ []) (hno : q.noExt = []) (names : List Str) :
    answers q names = names.map fun name => q.ext.any (endsWith name) := by
  induction names with
  | nil => rfl
  | cons name names ih => rw [answers, hasExt_of_left hext hno, List.map_cons, ih]

/-- The first call takes the excluded extensions out. -/
theorem hasExt_ofParams (hext : (SearchQuery.ofParams locale params).ext ≠ []) :
    ∃ q : SearchQuery, q.ext = leftExts locale params ∧ q.noExt = [] ∧
      ∀ name, (SearchQuery.ofParams locale params).hasExt name =
        ((leftExts locale params).any (endsWith name), q) := by
  have he : (SearchQuery.ofParams locale params).ext.isEmpty = false := by
    rwa [List.isEmpty_eq_false_iff]
  simp only [SearchQuery.hasExt, leftExts, he]
  by_cases hno : (SearchQuery.ofParams locale params).noExt = []
  · simp only [hno, List.isEmpty_nil, if_true]
    exact ⟨_, rfl, hno, fun name => rfl⟩
  · have hne : (SearchQuery.ofParams locale params).noExt.isEmpty = false := by
      rwa [List.isEmpty_eq_false_iff]
    simp only [hne, Bool.false_eq_true, if_false]
    exact ⟨_, rfl, rfl, fun name => rfl⟩

theorem any_endsWith_iff {S : List Str} :
    S.any (endsWith name) = true ↔ ∃ e ∈ S, 0 ∉ e ∧ e <:+ name := by
  simp only [List.any_eq_true, endsWith_iff]

/-- All that is asked for is excluded: the first call matches nothing, the second everything. -/
example : answers (SearchQuery.ofParams ⟨id, fun s _ => s⟩ [str "EXavi", str "RXavi"])
    [str "x.txt", str "x.txt"] = [false, true] := by decide +kernel

end Matching
end Airdcpp
