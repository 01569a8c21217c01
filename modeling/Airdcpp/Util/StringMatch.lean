import Airdcpp.Util.NoCase
import Airdcpp.Util.StringSearch

/-!
# `Util/StringMatch` — matching strings against a pattern

A `StringMatch` has a pattern and what `prepare` makes of it: the words to search for, a string to
compare with, or a regular expression. A match only looks at the latter, so a pattern that has been
changed is not matched before the next `prepare`.

Regular expressions belong to `boost::regex`, which `Regex` stands for. A match is `none` where the
search for a word does not end.
-/

namespace Airdcpp

/-- `boost::regex`. `assign` makes an expression of a pattern (of an escaped one without regard to
    case for a wildcard); where it throws, the expression is as before. `search` is whether
    `regex_search` finds a nonempty expression, and does not throw. -/
structure Regex (ρ : Type) where
  assign : (wildCard : Bool) → Str → Option ρ
  search : ρ → Str → Bool

namespace StringSearch

/-- The loop of `match_all`. -/
def allLower (aText : Str) : List Pattern → Option Bool
  | [] => some true
  | p :: patterns => (p.matchLower aText 0).bind fun pos =>
    if pos.isNone then some false else allLower aText patterns

def match_all (s : StringSearch) (locale : Locale) (aText : Str) : Option Bool :=
  allLower (Text.toLower locale aText) s.patterns

end StringSearch

/-- What a `StringMatch` compares strings with. -/
inductive MatchSearch (ρ : Type)
  | stringSearch (s : StringSearch)
  | string (s : Str)
  | regex (r : ρ)

structure StringMatch (ρ : Type) where
  pattern : Str
  search : MatchSearch ρ
  isWildCard : Bool := false

namespace StringMatch

variable {ρ : Type} (locale : Locale) (rx : Regex ρ)

/-- `Prepare` -/
def prepareSearch (pattern : Str) (wildCard : Bool) : MatchSearch ρ → Bool × MatchSearch ρ
  | .stringSearch _ =>
    let tokens := (pattern.splitOn (chr ' ')).filter fun t => t ≠ []
    (true, .stringSearch (tokens.foldl (fun s i => s.addString locale i) {}))
  | .string _ => (true, .string pattern)
  | .regex r =>
    match rx.assign wildCard pattern with
    | some r' => (true, .regex r')
    | none => (false, .regex r)

/-- `prepare`, and what it returns. -/
def prepare (m : StringMatch ρ) : Bool × StringMatch ρ :=
  if m.pattern.isEmpty then (false, m)
  else
    let s := prepareSearch locale rx m.pattern m.isWildCard m.search
    (s.1, { m with search := s.2 })

/-- `match` -/
def matchStr (m : StringMatch ρ) (str : Str) : Option Bool :=
  if str.isEmpty then some false
  else
    match m.search with
    | .stringSearch s => s.match_all locale str
    | .string s => some (Util.sameNoCase locale str s)
    | .regex r => some (rx.search r str)

/-! ## Prepared matches -/

variable {locale rx} {m : StringMatch ρ}

theorem prepareSearch_prepareSearch (pattern : Str) (wildCard : Bool) (s : MatchSearch ρ) :
    (prepareSearch locale rx pattern wildCard (prepareSearch locale rx pattern wildCard s).2).2 =
      (prepareSearch locale rx pattern wildCard s).2 := by
  cases s with
  | stringSearch s => rfl
  | string s => rfl
  | regex r => cases h : rx.assign wildCard pattern <;> simp [prepareSearch, h]

/-- A second `prepare` changes nothing. -/
theorem prepare_prepare : ((m.prepare locale rx).2.prepare locale rx).2 =
    (m.prepare locale rx).2 := by
  by_cases hempty : m.pattern.isEmpty = true
  · simp [prepare, hempty]
  · simp [prepare, hempty, prepareSearch_prepareSearch]

variable (locale rx m) in
/-- A match that compares strings with what is made of its pattern. -/
def MatchesPattern : Prop := ∀ str, m.matchStr locale rx str =
    (m.prepare locale rx).2.matchStr locale rx str

theorem matchesPattern_prepare : (m.prepare locale rx).2.MatchesPattern locale rx :=
  fun str => by rw [prepare_prepare]

/-! ## Matches that end -/

open Loop StringSearch.Pattern in
/-- The search for a word whose table has no skip of zero ends. -/
theorem matchLower_isSome {p : StringSearch.Pattern} (hdelta : p.delta1 = initDelta1 p.pattern)
    (htable : inTable p.pattern ≠ 2 ^ 16 - 1) (aText : Str) (start : Nat) :
    (p.matchLower aText start).isSome := by
  rw [StringSearch.Pattern.matchLower]
  split
  · rfl
  · next hlen =>
    have hskip (c : UInt8) : 0 < p.delta1 c := hdelta ▸ initDelta1_pos htable
    have hround (tx u : Nat) (h : Next (matchRound p aText) tx u) :
        aText.length + 1 - u < aText.length + 1 - tx := by
      obtain ⟨hlt, rfl⟩ := next_matchRound h
      have hpos := hskip (behind aText p.plen tx)
      omega
    obtain ⟨r, hr⟩ := run_of_not_stuck (n := aText.length + 2) (s := start)
      (fun tx => aText.length + 1 - tx) (fun _ => False)
      (fun tx _ => matchRound_ne_none (by omega)) (fun tx u _ => hround tx u) (by simp)
      (by omega)
    rw [hr]
    rfl

theorem allLower_isSome {patterns : List StringSearch.Pattern} (aText : Str)
    (h : ∀ p ∈ patterns, (p.matchLower aText 0).isSome) :
    (StringSearch.allLower aText patterns).isSome := by
  induction patterns with
  | nil => rfl
  | cons p patterns ih =>
    obtain ⟨pos, hpos⟩ := Option.isSome_iff_exists.mp (h p List.mem_cons_self)
    rw [StringSearch.allLower, hpos, Option.bind_some]
    split
    · rfl
    · exact ih fun q hq => h q (List.mem_cons_of_mem _ hq)

variable (m) in
/-- The words that are searched for have tables, and none of these has a skip of zero. -/
def Ends : Prop :=
  ∀ s, m.search = .stringSearch s → ∀ p ∈ s.patterns,
    p.delta1 = StringSearch.Pattern.initDelta1 p.pattern ∧
      StringSearch.Pattern.inTable p.pattern ≠ 2 ^ 16 - 1

/-- **A match ends.** -/
theorem matchStr_isSome (h : m.Ends) (str : Str) : (m.matchStr locale rx str).isSome := by
  rw [matchStr]
  split
  · rfl
  · split
    · next s hs =>
      refine allLower_isSome _ fun p hp => ?_
      obtain ⟨hdelta, htable⟩ := h s hs p hp
      exact matchLower_isSome hdelta htable _ 0
    · rfl
    · rfl

/-- The patterns that are made of some words. -/
theorem patterns_foldl_addString {tokens : List Str} (hne : ∀ t ∈ tokens, t ≠ [])
    (s : StringSearch) :
    (tokens.foldl (fun s i => s.addString locale i) s).patterns =
      s.patterns ++ tokens.map fun t => .new locale (Text.toLower locale t) := by
  induction tokens generalizing s with
  | nil => simp
  | cons t tokens ih =>
    have ht := hne t List.mem_cons_self
    rw [List.foldl_cons, ih fun u hu => hne u (List.mem_cons_of_mem _ hu)]
    simp [StringSearch.addString, ht]

/-- **A prepared match ends**, unless a word in lower case has a length that the table has no room
    for. -/
theorem ends_prepare (hpattern : m.pattern ≠ [])
    (hwords : ∀ w ∈ m.pattern.splitOn (chr ' '), w ≠ [] →
      (Text.toLower locale (Text.toLower locale w)).length % 2 ^ 16 ≠ 2 ^ 16 - 1) :
    (m.prepare locale rx).2.Ends := by
  intro s hs p hp
  simp only [prepare, List.isEmpty_iff, hpattern, if_false] at hs
  cases hsearch : m.search with
  | stringSearch s₀ =>
    rw [hsearch] at hs
    obtain rfl := MatchSearch.stringSearch.inj hs
    rw [patterns_foldl_addString (by simp)] at hp
    simp only [List.nil_append, List.mem_map, List.mem_filter, decide_eq_true_eq] at hp
    obtain ⟨w, ⟨hw, hne⟩, rfl⟩ := hp
    exact ⟨StringSearch.Pattern.new_delta1, hwords w hw hne⟩
  | string s₀ =>
    rw [hsearch] at hs
    cases hs
  | regex r =>
    rw [hsearch] at hs
    cases hassign : rx.assign m.isWildCard m.pattern <;> simp [prepareSearch, hassign] at hs

end StringMatch
end Airdcpp
