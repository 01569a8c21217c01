import Airdcpp.Lib.Scan
import Airdcpp.Util.CodePoints
import Airdcpp.Util.Positions

/-!
# `Util/StringSearch` — patterns in texts

A `Pattern` is looked for with the Quick Search algorithm. Where a text does not match, the byte
behind the window tells how far to go on, by a table of 16-bit numbers, "because we expect all
patterns to be shorter than 2^16 chars". The window is as long as the pattern was before it was put
into lower case, and the comparison ends at the first null byte of the pattern.

So what `matchLower` returns is where the pattern occurs in the text, for every text, exactly when
the pattern is `Searchable` (`matchLower_iff`): for patterns of fewer than 65535 bytes this is to
have no null byte and the same length as before (`searchable_iff_of_short`).

`none` of a position is `npos`. The outer `Option` of a search is `none` where it reads outside of
the text, or does not end.
-/

namespace Airdcpp

open Loop

namespace StringSearch

/-! ## The pattern -/

structure Pattern where
  pattern : Str
  plen : Nat
  delta1 : UInt8 → Nat

namespace Pattern

/-- `initDelta1`. The counters have 16 bits. -/
def initDelta1 (pattern : Str) : UInt8 → Nat :=
  let x := (pattern.length + 1) % 2 ^ 16
  let last := (x + 2 ^ 16 - 1) % 2 ^ 16
  (List.range last).foldl (fun delta1 i => Function.update delta1 (pattern.getD i 0) (last - i))
    fun _ => x

/-- `Pattern(aPattern)` -/
def new (locale : Locale) (aPattern : Str) : Pattern where
  pattern := Text.toLower locale aPattern
  plen := aPattern.length
  delta1 := initDelta1 (Text.toLower locale aPattern)

/-- `size` -/
def size (p : Pattern) : Nat := p.plen

/-- `for (; px[i] && (px[i] == tx[i]); ++i)`, and whether `px[i]` is zero then. -/
def matchesAt (aText : Str) : (px : Str) → (tx : Nat) → Option Bool
  | [], _ => some true
  | c :: px, tx =>
    if c = 0 then some true
    else (charAt aText tx).bind fun d => if c = d then matchesAt aText px (tx + 1) else some false

/-- One round of the loop of `matchLower`, `tx` bytes into the text. -/
def matchRound (p : Pattern) (aText : Str) (tx : Nat) : Option (Option Nat ⊕ Nat) :=
  if tx < aText.length - p.plen + 1 then
    (matchesAt aText p.pattern tx).bind fun found =>
      if found then some (.inl (some tx))
      else (charAt aText (tx + p.plen)).map fun c => .inr (tx + p.delta1 c)
  else some (.inl none)

/-- `matchLower`. A loop that ends has at most a round for each byte (`matchLower_eq_some_iff`). -/
def matchLower (p : Pattern) (aText : Str) (aStartPos : Nat) : Option (Option Nat) :=
  if aText.length - aStartPos < p.plen then some none
  else run (matchRound p aText) (aText.length + 2) aStartPos

end Pattern
end StringSearch

/-! ## Searching for all patterns -/

/-- `ResultList`: a position or `npos` for each pattern. -/
abbrev ResultList := List (Option Nat)

structure StringSearch where
  patterns : List StringSearch.Pattern := []

namespace StringSearch

def addString (s : StringSearch) (locale : Locale) (aStr : Str) : StringSearch :=
  if aStr.isEmpty then s else ⟨s.patterns ++ [Pattern.new locale (Text.toLower locale aStr)]⟩

def count (s : StringSearch) : Nat := s.patterns.length

/-- The loop of `match_any_lower`. -/
def anyLower (aText : Str) : List Pattern → Option Bool
  | [] => some false
  | p :: patterns => (p.matchLower aText 0).bind fun pos =>
    if pos.isSome then some true else anyLower aText patterns

def match_any_lower (s : StringSearch) (aText : Str) : Option Bool := anyLower aText s.patterns

/-- The loop over the positions of one pattern. `prev` is that of the pattern before, and positions
    from there on are preferred. -/
def place (p : Pattern) (aText : Str) (prev : Option Nat) :
    (fuel : Nat) → (addPos : Option Nat) → Option (Option Nat)
  | 0, _ => none
  | fuel + 1, addPos =>
    (p.matchLower aText (addPos.elim 0 (· + 1))).bind fun curPos =>
      curPos.elim (some addPos) fun curPos =>
        if prev.any fun pos => decide (curPos < pos) then place p aText prev fuel (some curPos)
        else some (some curPos)

/-- The loop over the patterns from `listPos` on, with a result list. -/
def matchFrom (aText : Str) (aResumeOnNoMatch : Bool) :
    List Pattern → (listPos found : Nat) → ResultList → Option (Nat × ResultList)
  | [], _, found, results_ => some (found, results_)
  | p :: patterns, listPos, found, results_ =>
    let prev := if 0 < listPos then results_.getD (listPos - 1) none else none
    (place p aText prev (aText.length + 2) none).bind fun addPos =>
      if addPos.isSome then
        matchFrom aText aResumeOnNoMatch patterns (listPos + 1) (found + 1)
          (results_.set listPos addPos)
      else if aResumeOnNoMatch then
        matchFrom aText aResumeOnNoMatch patterns (listPos + 1) found results_
      else some (0, List.replicate listPos none ++ results_.drop listPos)

/-- How many patterns match, and where. -/
def matchLower (s : StringSearch) (aText : Str) (aResumeOnNoMatch : Bool) (results_ : ResultList) :
    Option (Nat × ResultList) :=
  matchFrom aText aResumeOnNoMatch s.patterns 0 0 results_

/-! ## The table -/

namespace Pattern

variable {locale : Locale} {p : Pattern} {pattern q aText : Str} {c : UInt8}
  {d i m n tx start : Nat}
  {r : Option Nat}

/-- How many bytes of a pattern are in the table. -/
def inTable (pattern : Str) : Nat := pattern.length % 2 ^ 16

/-- The byte stands in the last `d` places of the table. -/
def Covers (pattern : Str) (d : Nat) (c : UInt8) : Prop :=
  ∃ i < inTable pattern, inTable pattern ≤ i + d ∧ pattern.getD i 0 = c

instance (pattern : Str) (d : Nat) (c : UInt8) : Decidable (Covers pattern d c) :=
  inferInstanceAs (Decidable (∃ i < inTable pattern, _))

theorem initDelta1_eq (h : inTable pattern ≠ 2 ^ 16 - 1) :
    initDelta1 pattern = (List.range (inTable pattern)).foldl
      (fun delta1 i => Function.update delta1 (pattern.getD i 0) (inTable pattern - i))
      fun _ => inTable pattern + 1 := by
  rw [inTable] at h ⊢
  have hx : (pattern.length + 1) % 2 ^ 16 = pattern.length % 2 ^ 16 + 1 := by omega
  have hlast : (pattern.length % 2 ^ 16 + 1 + 2 ^ 16 - 1) % 2 ^ 16 = pattern.length % 2 ^ 16 := by
    omega
  rw [initDelta1]
  simp only [hx, hlast]

/-- After the first `n` bytes the table tells the distance of the last one that is `c`. -/
theorem fill_spec (pattern : Str) (c : UInt8) (x n : Nat) (hn : n ≤ x) :
    let delta := (List.range n).foldl
      (fun delta1 i => Function.update delta1 (pattern.getD i 0) (x - i)) (fun _ => x + 1) c
    (∀ i < n, pattern.getD i 0 = c → delta ≤ x - i) ∧
      (delta = x + 1 ∨ ∃ i < n, pattern.getD i 0 = c ∧ delta = x - i) := by
  induction n with
  | zero => exact ⟨fun i hi => absurd hi (Nat.not_lt_zero i), .inl rfl⟩
  | succ n ih =>
    obtain ⟨hle, hcases⟩ := ih (Nat.le_of_succ_le hn)
    rw [List.range_succ, List.foldl_append, List.foldl_cons, List.foldl_nil]
    dsimp only
    by_cases hc : pattern.getD n 0 = c
    · rw [hc, Function.update_self]
      refine ⟨fun i hi _ => by omega, .inr ⟨n, n.lt_succ_self, hc, rfl⟩⟩
    · rw [Function.update_of_ne (Ne.symm hc)]
      refine ⟨fun i hi hic => ?_, ?_⟩
      · rcases Nat.lt_succ_iff_lt_or_eq.mp hi with hi | rfl
        · exact hle i hi hic
        · exact absurd hic hc
      · rcases hcases with hnone | ⟨i, hi, hic, hdelta⟩
        · exact .inl hnone
        · exact .inr ⟨i, Nat.lt_succ_of_lt hi, hic, hdelta⟩

/-- **A shift is at most `d`** when the byte stands in the last `d` places of the table; a byte that
    is not in it shifts by one more than the table has places. -/
theorem initDelta1_le_iff (h : inTable pattern ≠ 2 ^ 16 - 1) :
    initDelta1 pattern c ≤ d ↔ inTable pattern < d ∨ Covers pattern d c := by
  rw [initDelta1_eq h]
  obtain ⟨hle, hcases⟩ := fill_spec pattern c (inTable pattern) (inTable pattern) le_rfl
  constructor
  · intro hdelta
    rcases hcases with hnone | ⟨i, hi, hic, hi'⟩
    · exact .inl (by omega)
    · exact .inr ⟨i, hi, by omega, hic⟩
  · rintro (hlt | ⟨i, hi, hid, hic⟩)
    · rcases hcases with hnone | ⟨i, hi, hic, hi'⟩ <;> omega
    · have := hle i hi hic
      omega

theorem initDelta1_pos (h : inTable pattern ≠ 2 ^ 16 - 1) : 0 < initDelta1 pattern c := by
  rw [initDelta1_eq h]
  obtain ⟨-, hnone | ⟨i, hi, -, hdelta⟩⟩ :=
    fill_spec pattern c (inTable pattern) (inTable pattern) le_rfl
  · omega
  · omega

/-- A byte that is not in the pattern shifts by `x`, which the 16 bits may make zero. -/
theorem initDelta1_of_notMem (h : c ∉ pattern)
    (hin : ∀ i < ((pattern.length + 1) % 2 ^ 16 + 2 ^ 16 - 1) % 2 ^ 16, i < pattern.length) :
    initDelta1 pattern c = (pattern.length + 1) % 2 ^ 16 := by
  rw [initDelta1]
  have hall : ∀ n, (∀ i < n, i < pattern.length) → ∀ (x last : Nat),
      (List.range n).foldl (fun delta1 i => Function.update delta1 (pattern.getD i 0) (last - i))
        (fun _ => x) c = x := by
    intro n hn x last
    induction n with
    | zero => rfl
    | succ n ih =>
      have hne : c ≠ pattern.getD n 0 := by
        rw [List.getD_eq_getElem?_getD, List.getElem?_eq_getElem (hn n n.lt_succ_self),
          Option.getD_some]
        intro hc
        exact h (hc ▸ List.getElem_mem _)
      rw [List.range_succ, List.foldl_append, List.foldl_cons, List.foldl_nil,
        Function.update_of_ne hne]
      exact ih fun i hi => hn i (Nat.lt_succ_of_lt hi)
  exact hall _ hin _ _

/-! ## Comparing -/

/-- A pattern without a null byte is compared inside of the text and its terminator. -/
theorem matchesAt_eq (h0 : 0 ∉ q) (htx : tx ≤ aText.length) :
    matchesAt aText q tx = some (q.isPrefixOf (aText.drop tx)) := by
  induction q generalizing tx with
  | nil => rfl
  | cons c q ih =>
    obtain ⟨hc, hq⟩ := not_or.mp (fun h => h0 (List.mem_cons.mpr h))
    rw [matchesAt, if_neg (Ne.symm hc), charAt_of_le htx, Option.bind_some]
    rcases Nat.lt_or_eq_of_le htx with hlt | rfl
    · rw [List.drop_eq_getElem_cons hlt, List.getD_eq_getElem?_getD, List.getElem?_eq_getElem hlt,
        Option.getD_some, List.isPrefixOf]
      by_cases hcd : c = aText[tx]
      · rw [if_pos hcd, ih hq hlt, hcd]
        simp
      · rw [if_neg hcd]
        simp [hcd]
    · -- the terminator ends it
      have hd : aText.getD aText.length 0 = 0 := by simp [List.getD_eq_getElem?_getD]
      rw [hd, if_neg (Ne.symm hc), List.drop_length]
      rfl

/-- In front of its first null byte a pattern matches itself. -/
theorem matchesAt_of_null {a b : Str} (ha : 0 ∉ a) (rest : Str) :
    matchesAt (rest ++ a ++ b) (a ++ 0 :: q) rest.length = some true := by
  induction a generalizing rest with
  | nil => rw [List.nil_append, matchesAt, if_pos rfl]
  | cons c a ih =>
    obtain ⟨hc, ha⟩ := not_or.mp (fun h => ha (List.mem_cons.mpr h))
    have hread : (rest ++ c :: a ++ b).getD rest.length 0 = c := by
      simp [List.getD_eq_getElem?_getD]
    rw [List.cons_append, matchesAt, if_neg (Ne.symm hc), charAt_of_le (by simp), hread,
      Option.bind_some, if_pos rfl]
    have hnext := ih ha (rest ++ [c])
    rw [List.length_append, List.length_singleton] at hnext
    simpa using hnext

/-! ## One search -/

/-- The byte behind the window. -/
def behind (aText : Str) (plen tx : Nat) : UInt8 := aText.getD (tx + plen) 0

/-- **The loop is a search with skips**, and it stays inside of the text and its terminator. -/
theorem matchRound_eq (h0 : 0 ∉ p.pattern) (hplen : p.plen ≤ aText.length) :
    matchRound p aText = Scan.round (fun tx => p.pattern.isPrefixOf (aText.drop tx))
      (fun tx => p.delta1 (behind aText p.plen tx)) (aText.length - p.plen + 1) := by
  funext tx
  rw [matchRound, Scan.round]
  split
  · rw [matchesAt_eq h0 (by omega), Option.bind_some, charAt_of_le (by omega), Option.map_some]
    rfl
  · rfl

/-- Nothing is read behind the terminator, whatever the pattern is. -/
theorem matchesAt_isSome (htx : tx ≤ aText.length) : ∃ b, matchesAt aText q tx = some b := by
  induction q generalizing tx with
  | nil => exact ⟨true, rfl⟩
  | cons c q ih =>
    rw [matchesAt, charAt_of_le htx]
    split
    · exact ⟨true, rfl⟩
    · next hc =>
      rw [Option.bind_some]
      split
      · next hcd =>
        refine ih (Nat.lt_of_le_of_ne htx ?_)
        rintro rfl
        rw [List.getD_eq_getElem?_getD, List.getElem?_eq_none le_rfl, Option.getD_none] at hcd
        exact hc hcd
      · exact ⟨false, rfl⟩

theorem matchRound_ne_none (hplen : p.plen ≤ aText.length) : matchRound p aText tx ≠ none := by
  rw [matchRound]
  split
  · obtain ⟨found, hfound⟩ := @matchesAt_isSome p.pattern aText tx (by omega)
    rw [hfound, Option.bind_some, charAt_of_le (by omega)]
    split <;> simp
  · simp

/-- A round that goes on goes on behind the end of the window, by the shift of the byte there. -/
theorem next_matchRound {u : Nat} (h : Next (matchRound p aText) tx u) :
    tx < aText.length - p.plen + 1 ∧ u = tx + p.delta1 (behind aText p.plen tx) := by
  rw [Next, matchRound] at h
  split at h
  · next hlt =>
    refine ⟨hlt, ?_⟩
    obtain ⟨found, -, h⟩ := Option.bind_eq_some_iff.mp h
    split at h
    · cases h
    · obtain ⟨c, hc, h⟩ := Option.map_eq_some_iff.mp h
      rw [charAt] at hc
      split at hc
      · obtain rfl := Option.some.inj hc
        exact (Sum.inr.inj h).symm
      · cases hc
  · cases h

/-- What `matchLower` returns. -/
def Finds (p : Pattern) (aText : Str) (aStartPos : Nat) (r : Option Nat) : Prop :=
  if aText.length - aStartPos < p.plen then r = none
  else Returns (matchRound p aText) aStartPos r

/-- **The bound on the number of rounds is as good as any.** -/
theorem matchLower_eq_some_iff : p.matchLower aText start = some r ↔ Finds p aText start r := by
  rw [matchLower, Finds]
  split
  · rw [Option.some.injEq, eq_comm]
  · next hlen =>
    refine run_eq_some_iff (fun tx => aText.length + 1 - tx)
      (fun tx => Next (matchRound p aText) tx tx) ?_ ?_ ?_ (by omega)
    · exact fun tx _ => matchRound_ne_none (by omega)
    · intro tx u hstuck hnext
      obtain ⟨hlt, hu⟩ := next_matchRound hnext
      have hne : tx ≠ u := by
        rintro rfl
        exact hstuck hnext
      omega
    · exact fun tx hstuck => not_halts_of_next_self hstuck

/-- What `find` returns is the first position that matches. -/
theorem isFirst_find (hplen : p.plen ≤ p.pattern.length) (hlen : p.plen ≤ aText.length) :
    Scan.IsFirst (fun tx => p.pattern.isPrefixOf (aText.drop tx)) (aText.length - p.plen + 1) start
      (find aText p.pattern start) := by
  cases hfind : find aText p.pattern start with
  | none =>
    intro v hv hlt
    rw [find, List.find?_eq_none] at hfind
    rw [← Bool.not_eq_true]
    exact hfind v (by rw [List.mem_range'_1]; omega)
  | some u =>
    have hend := find_add_le hfind
    obtain ⟨hfound, -, hfirst⟩ := List.find?_range'_eq_some.mp hfind
    refine ⟨(find_eq_some hfind).1, by omega, hfound, fun v hv hlt => ?_⟩
    simpa using hfirst v hv hlt

/-! ## Patterns that are found -/

/-- A pattern, in lower case, that is looked for in a window of `plen` bytes: it has no null byte,
    the window is not longer than it, the 16 bits of the table have room for its length, the window
    is not shorter than the table, and what stands `d` places before the end of the window stands in
    the last `d` places of the table. -/
structure Searchable (q : Str) (plen : Nat) : Prop where
  no_null : 0 ∉ q
  plen_le : plen ≤ q.length
  table : inTable q ≠ 2 ^ 16 - 1
  table_le : inTable q ≤ plen
  covered : ∀ d, 0 < d → d ≤ inTable q → Covers q d (q.getD (plen - d) 0)

/-- Under 65535 bytes the table has the whole pattern, and the window must be as long. -/
theorem searchable_iff_of_short (h : q.length < 2 ^ 16 - 1) :
    Searchable q n ↔ 0 ∉ q ∧ n = q.length := by
  have htable : inTable q = q.length := Nat.mod_eq_of_lt (by omega)
  constructor
  · intro hs
    have hle := hs.table_le
    exact ⟨hs.no_null, le_antisymm hs.plen_le (htable ▸ hle)⟩
  · rintro ⟨h0, rfl⟩
    refine ⟨h0, le_rfl, by omega, by omega, fun d hd hle => ⟨q.length - d, ?_, ?_, rfl⟩⟩ <;> omega

/-- **The skips for a searchable pattern are safe.** -/
theorem safeSkip_of_searchable (hs : Searchable q n) :
    Scan.SafeSkip (fun tx => q.isPrefixOf (aText.drop tx))
      (fun tx => initDelta1 q (behind aText n tx)) (aText.length - n + 1) := by
  intro t _ _
  refine ⟨initDelta1_pos hs.table, fun u htu hu _ => ?_⟩
  rw [← Bool.not_eq_true, List.isPrefixOf_iff_prefix]
  intro hmatch
  obtain ⟨d, rfl⟩ := Nat.exists_eq_add_of_lt htu
  have hshift : ¬ initDelta1 q (behind aText n t) ≤ d + 1 := by
    have hlt : t + d + 1 < t + initDelta1 q (behind aText n t) := hu
    omega
  refine hshift ((initDelta1_le_iff hs.table).mpr ?_)
  rcases Nat.lt_or_ge (inTable q) (d + 1) with hlt | hge
  · exact .inl hlt
  · have hplen := hs.plen_le
    have hle := hs.table_le
    -- the byte behind the window is one of the occurrence
    have hbyte : behind aText n t = q.getD (n - (d + 1)) 0 := by
      obtain ⟨rest, hrest⟩ := hmatch
      have hread : (q ++ rest)[n - (d + 1)]? = aText[t + n]? := by
        rw [hrest, List.getElem?_drop]
        congr 1
        omega
      rw [List.getElem?_append_left (by omega)] at hread
      rw [behind, List.getD_eq_getElem?_getD, List.getD_eq_getElem?_getD, hread]
    rw [hbyte]
    exact .inr (hs.covered (d + 1) d.succ_pos hge)

/-- **A searchable pattern is found where it occurs first.** -/
theorem matchLower_of_searchable (hpattern : p.delta1 = initDelta1 p.pattern)
    (hs : Searchable p.pattern p.plen) (hne : 0 < p.plen) (aText : Str) (start : Nat) :
    p.matchLower aText start = some (find aText p.pattern start) := by
  rcases Nat.lt_or_ge (aText.length - start) p.plen with hshort | hlen
  · have hnone : find aText p.pattern start = none := by
      cases hfind : find aText p.pattern start with
      | none => rfl
      | some u =>
        have hend := find_add_le hfind
        have hstart := (find_eq_some hfind).1
        have hplen := hs.plen_le
        omega
    rw [matchLower, if_pos hshort, hnone]
  · have hle : p.plen ≤ aText.length := by omega
    have hsafe := @safeSkip_of_searchable _ aText _ hs
    rw [← hpattern] at hsafe
    obtain ⟨r, hr, hfirst⟩ := Scan.run_round (n := aText.length + 2) (t := start) hsafe (by omega)
    rw [matchLower, if_neg (Nat.not_lt.mpr hlen), matchRound_eq hs.no_null hle, hr,
      hfirst.unique (isFirst_find hs.plen_le hle)]

/-! ## What is found, whatever the pattern is -/

/-- What a C string has of the pattern. -/
def cstr (pattern : Str) : Str := pattern.takeWhile (· != 0)

theorem prefix_of_matchesAt (h : matchesAt aText q tx = some true) : cstr q <+: aText.drop tx := by
  induction q generalizing tx with
  | nil => exact List.nil_prefix
  | cons c q ih =>
    rw [matchesAt] at h
    by_cases hc : c = 0
    · rw [cstr, List.takeWhile_cons, if_neg (by simp [hc])]
      exact List.nil_prefix
    · rw [if_neg hc, Option.bind_eq_some_iff] at h
      obtain ⟨d, hd, h⟩ := h
      split at h
      · next hcd =>
        obtain ⟨htx, hread⟩ : tx < aText.length ∧ aText.getD tx 0 = d := by
          rw [charAt] at hd
          split at hd
          · next hle =>
            have hread := Option.some.inj hd
            refine ⟨Nat.lt_of_le_of_ne hle ?_, hread⟩
            rintro rfl
            rw [List.getD_eq_getElem?_getD, List.getElem?_eq_none le_rfl, Option.getD_none] at hread
            exact hc (hcd.trans hread.symm)
          · cases hd
        rw [List.getD_eq_getElem?_getD, List.getElem?_eq_getElem htx, Option.getD_some] at hread
        rw [cstr, List.takeWhile_cons, if_pos (by simpa using hc), List.drop_eq_getElem_cons htx,
          hread, ← hcd, List.cons_prefix_cons]
        exact ⟨rfl, ih h⟩
      · cases h

/-- The comparison ends well at a position whose window is in the text. -/
structure FoundAt (p : Pattern) (aText : Str) (pos : Nat) : Prop where
  window : pos + p.plen ≤ aText.length
  compared : matchesAt aText p.pattern pos = some true

/-- **Where a search stops**, the comparison has ended well. -/
theorem found_of_matchLower {pos : Nat} (h : p.matchLower aText start = some (some pos)) :
    p.FoundAt aText pos := by
  have hfinds := matchLower_eq_some_iff.mp h
  rw [Finds] at hfinds
  split at hfinds
  · cases hfinds
  · next hlen =>
    have hfound := Loop.Returns.induct (P := fun _ => True)
      (Q := fun r => ∀ u ∈ r, u < aText.length - p.plen + 1 ∧
        matchesAt aText p.pattern u = some true)
      (fun _ _ _ _ => trivial) (fun tx r _ hround => ?_) hfinds trivial
    · obtain ⟨hlt, hat⟩ := hfound pos rfl
      exact ⟨by omega, hat⟩
    · intro u hu
      obtain rfl := Option.mem_def.mp hu
      rw [matchRound] at hround
      split at hround
      · next hlt =>
        obtain ⟨found, hat, hround⟩ := Option.bind_eq_some_iff.mp hround
        cases found with
        | true =>
          have hu := Sum.inl.inj (Option.some.inj hround)
          obtain rfl := Option.some.inj hu
          exact ⟨hlt, hat⟩
        | false =>
          rw [if_neg Bool.false_ne_true, Option.map_eq_some_iff] at hround
          obtain ⟨c, -, hround⟩ := hround
          cases hround
      · cases Sum.inl.inj (Option.some.inj hround)

/-! ## Patterns that are missed -/

/-- A search of any text from its beginning returns, and tells whether the pattern is in it. -/
def Detects (p : Pattern) : Prop :=
  ∀ aText, ∃ r, Finds p aText 0 r ∧ (r.isSome = true ↔ p.pattern <:+: aText)

theorem find_isSome_iff : (find aText q 0).isSome = true ↔ q <:+: aText := by
  constructor
  · intro hsome
    obtain ⟨pos, hpos⟩ := Option.isSome_iff_exists.mp hsome
    obtain ⟨-, rest, hrest⟩ := find_eq_some hpos
    exact ⟨aText.take pos, rest, hrest.symm⟩
  · intro hin
    by_contra hnone
    exact find_eq_none (Option.not_isSome_iff_eq_none.mp hnone) hin

theorem detects_of_finds (h : ∀ aText, Finds p aText 0 (find aText p.pattern 0)) : p.Detects :=
  fun aText => ⟨_, h aText, find_isSome_iff⟩

/-- The comparison ends at a null byte of the pattern, and something else is found. -/
theorem no_null_of_detects (h : p.Detects) : 0 ∉ p.pattern := by
  intro hmem
  obtain ⟨a, b, hab, ha⟩ := List.eq_append_cons_of_mem hmem
  obtain ⟨r, hfinds, hdetects⟩ := h (a ++ List.replicate p.plen 1)
  have hlen : ¬ (a ++ List.replicate p.plen (1 : UInt8)).length - 0 < p.plen := by simp
  rw [Finds, if_neg hlen] at hfinds
  have hround : matchRound p (a ++ List.replicate p.plen 1) 0 = some (.inl (some 0)) := by
    have hmatch := @matchesAt_of_null b a (List.replicate p.plen 1) ha []
    rw [List.nil_append, List.length_nil] at hmatch
    rw [matchRound, if_pos (Nat.succ_pos _), hab, hmatch, Option.bind_some, if_pos rfl]
  obtain rfl := hfinds.unique (returns_of_return hround)
  have hnull : (0 : UInt8) ∈ a ++ List.replicate p.plen 1 := (hdetects.mp rfl).subset hmem
  rcases List.mem_append.mp hnull with hnull | hnull
  · exact ha hnull
  · exact absurd (List.eq_of_mem_replicate hnull) (by decide)

/-- A text that is shorter than the window is not searched. -/
theorem plen_le_of_detects (h : p.Detects) : p.plen ≤ p.pattern.length := by
  by_contra hlt
  obtain ⟨r, hfinds, hdetects⟩ := h p.pattern
  rw [Finds, if_pos (by omega)] at hfinds
  rw [hfinds] at hdetects
  exact absurd (hdetects.mpr List.infix_rfl) (by decide)

/-- Null bytes in front of the pattern are no match. -/
theorem matchRound_nulls {aText : Str} (h0 : 0 ∉ p.pattern) (hne : p.pattern ≠ [])
    (hplen : p.plen ≤ aText.length) (hhead : aText.getD 0 0 = 0) :
    Next (matchRound p aText) 0 (p.delta1 (behind aText p.plen 0)) := by
  have hfound : p.pattern.isPrefixOf (aText.drop 0) = false := by
    rw [← Bool.not_eq_true, List.isPrefixOf_iff_prefix, List.drop_zero]
    rintro ⟨rest, rfl⟩
    obtain ⟨c, q, hq⟩ := List.exists_cons_of_ne_nil hne
    rw [hq] at hhead h0
    exact h0 (List.mem_cons.mpr (.inl hhead.symm))
  rw [Next, matchRound_eq h0 hplen, Scan.round, if_pos (Nat.succ_pos _), hfound,
    if_neg Bool.false_ne_true, Nat.zero_add]

/-- With a shift of zero the loop does not end. -/
theorem table_of_detects (hpattern : p.delta1 = initDelta1 p.pattern) (hne : p.pattern ≠ [])
    (h0 : 0 ∉ p.pattern) (h : p.Detects) : inTable p.pattern ≠ 2 ^ 16 - 1 := by
  intro htable
  rw [inTable] at htable
  have hshift : p.delta1 0 = 0 := by
    rw [hpattern, initDelta1_of_notMem h0]
    · omega
    · intro i hi
      omega
  have hbehind : behind (List.replicate p.plen 0) p.plen 0 = 0 := by
    simp [behind, List.getD_eq_getElem?_getD]
  have hnext := @matchRound_nulls p (List.replicate p.plen 0) h0 hne (by simp)
    (by rw [List.getD_eq_getElem?_getD, List.getElem?_replicate]; split <;> rfl)
  rw [hbehind, hshift] at hnext
  obtain ⟨r, hfinds, -⟩ := h (List.replicate p.plen 0)
  rw [Finds, if_neg (by simp)] at hfinds
  exact not_halts_of_next_self hnext ⟨_, hfinds⟩

/-- The pattern behind `d` null bytes: the first shift does not go over it. -/
theorem shift_le_of_detects (hne : p.pattern ≠ []) (h0 : 0 ∉ p.pattern)
    (hplen : p.plen ≤ p.pattern.length) (h : p.Detects) (hd : 0 < d) :
    p.delta1 ((List.replicate d 0 ++ p.pattern).getD p.plen 0) ≤ d := by
  have hlen : (List.replicate d 0 ++ p.pattern).length = d + p.pattern.length := by simp
  obtain ⟨r, hfinds, hdetects⟩ := h (List.replicate d 0 ++ p.pattern)
  obtain ⟨u, rfl⟩ := Option.isSome_iff_exists.mp (hdetects.mpr (List.suffix_append _ _).isInfix)
  rw [Finds, if_neg (by omega)] at hfinds
  have hhead : (List.replicate d (0 : UInt8) ++ p.pattern).getD 0 0 = 0 := by
    obtain ⟨e, rfl⟩ := Nat.exists_eq_add_of_le' hd
    rfl
  have hnext := matchRound_nulls h0 hne (by omega) hhead
  rw [behind, Nat.zero_add] at hnext
  have hreturns := (returns_iff_of_next hnext).mp hfinds
  rw [matchRound_eq h0 (by omega)] at hreturns
  obtain ⟨hle, -, hfound⟩ := Scan.Returns.found_of hreturns u rfl
  -- the pattern has no room behind `d`
  have hroom := (List.isPrefixOf_iff_prefix.mp hfound).length_le
  rw [List.length_drop, hlen] at hroom
  have hpos : 0 < p.pattern.length := List.length_pos_iff.mpr hne
  omega

/-- **A pattern whose occurrences are all detected is searchable.** -/
theorem searchable_of_detects (hpattern : p.delta1 = initDelta1 p.pattern) (hne : p.pattern ≠ [])
    (h : p.Detects) : Searchable p.pattern p.plen := by
  have h0 := no_null_of_detects h
  have hplen := plen_le_of_detects h
  have htable := table_of_detects hpattern hne h0 h
  have hshift : ∀ d, 0 < d → inTable p.pattern < d ∨
      Covers p.pattern d ((List.replicate d 0 ++ p.pattern).getD p.plen 0) := by
    intro d hd
    have hle := shift_le_of_detects hne h0 hplen h hd
    rwa [hpattern, initDelta1_le_iff htable] at hle
  have hle : inTable p.pattern ≤ p.plen := by
    by_contra hlt
    rcases hshift (p.plen + 1) (Nat.succ_pos _) with hlt' | ⟨i, hi, -, hic⟩
    · omega
    · -- the byte behind the window is null, and no byte of the pattern is
      have hi' : i < p.pattern.length := Nat.lt_of_lt_of_le hi (Nat.mod_le _ _)
      have hnull : (List.replicate (p.plen + 1) 0 ++ p.pattern).getD p.plen 0 = 0 := by
        rw [List.getD_eq_getElem?_getD, List.getElem?_append_left (by simp),
          List.getElem?_replicate]
        split <;> rfl
      rw [hnull, List.getD_eq_getElem?_getD, List.getElem?_eq_getElem hi', Option.getD_some] at hic
      exact h0 (hic ▸ List.getElem_mem hi')
  refine ⟨h0, hplen, htable, hle, fun d hd hdle => ?_⟩
  have hbyte : (List.replicate d 0 ++ p.pattern).getD p.plen 0 =
      p.pattern.getD (p.plen - d) 0 := by
    rw [List.getD_eq_getElem?_getD, List.getElem?_append_right (by simp; omega),
      List.length_replicate, ← List.getD_eq_getElem?_getD]
  rw [← hbyte]
  exact (hshift d hd).resolve_left (by omega)

theorem toLower_ne_nil {s : Str} (h : s ≠ []) : Text.toLower locale s ≠ [] := by
  obtain ⟨b, s, rfl⟩ := List.exists_cons_of_ne_nil h
  rw [Text.toLower, Text.toLowerFrom]
  dsimp only
  split
  · simp
  · rw [← Text.wcToUtf8_scalarOf]
    obtain ⟨c, t, hw, -⟩ := Text.wcToUtf8_cons (Text.isScalar_scalarOf
      (locale.towlower (Text.utf8ToWc (b :: s)).2))
    rw [hw]
    simp

theorem new_delta1 {aPattern : Str} :
    (new locale aPattern).delta1 = initDelta1 (new locale aPattern).pattern := by
  simp only [new]

/-- **`matchLower` is substring search for all texts and positions exactly when the pattern in lower
    case is searchable** in a window of the length it had before. -/
theorem matchLower_iff (locale : Locale) {aPattern : Str} (hne : aPattern ≠ []) :
    (∀ aText aStartPos, aStartPos ≤ aText.length →
      Finds (new locale aPattern) aText aStartPos
        (find aText (Text.toLower locale aPattern) aStartPos)) ↔
      Searchable (Text.toLower locale aPattern) aPattern.length := by
  constructor
  · exact fun h => searchable_of_detects new_delta1 (toLower_ne_nil hne)
      (detects_of_finds fun aText => h aText 0 (Nat.zero_le _))
  · intro hs aText aStartPos _
    exact matchLower_eq_some_iff.mp (matchLower_of_searchable new_delta1 hs
      (List.length_pos_iff.mpr hne) aText aStartPos)

/-- The Kelvin sign, of three bytes, is a letter of one byte in lower case. -/
def kelvinLocale : Locale where
  towlower c := if c = 0x212a then 0x6b else c
  convert s _ := s

theorem matchLower_letter :
    (∀ aText aStartPos, aStartPos ≤ aText.length →
      Finds (new kelvinLocale (str "k")) aText aStartPos
        (find aText (Text.toLower kelvinLocale (str "k")) aStartPos)) ↔
      Searchable (Text.toLower kelvinLocale (str "k")) (str "k").length :=
  matchLower_iff kelvinLocale (by decide)

/-- The sign is not found in the text `k`. -/
theorem matchLower_kelvin :
    ¬ ∀ (locale : Locale) (aPattern : Str), aPattern ≠ [] → 0 ∉ aPattern →
      ∀ aText aStartPos, aStartPos ≤ aText.length →
        Finds (new locale aPattern) aText aStartPos
          (find aText (Text.toLower locale aPattern) aStartPos) := by
  intro h
  have hfinds := h kelvinLocale [0xe2, 0x84, 0xaa] (by decide) (by decide) (str "k") 0 (by decide)
  rw [Finds, if_pos (by decide)] at hfinds
  revert hfinds
  decide +kernel

end Pattern
end StringSearch
end Airdcpp
