import Airdcpp.Util.Positions

/-!
# `Util/Splitting` — positions of characters, as parts of the string

A parser that looks for a character takes the string apart there. `find_char_iff` says what is found
by the parts on both sides, whatever stands before the position the search begins at, and the tokens
between a character are the parts `List.splitOn` gives.
-/

namespace Airdcpp

variable {s a b : Str} {c : UInt8} {pos i : Nat}

/-- **Where a character is found**, counted from the part in front of it. -/
theorem find_char_of_split (ha : c ∉ a) (h : s.drop pos = a ++ c :: b) :
    find s [c] pos = some (pos + a.length) := by
  have hlength := congrArg List.length h
  rw [List.length_drop, List.length_append, List.length_cons] at hlength
  have hget (j : Nat) : s[pos + j]? = (a ++ c :: b)[j]? := by rw [← h, List.getElem?_drop]
  refine List.find?_range'_eq_some.mpr ⟨?_, List.mem_range'_1.mpr ⟨by omega, by omega⟩, ?_⟩
  · rw [char_isPrefixOf_iff, hget, List.getElem?_append_right (le_refl _), Nat.sub_self]
    rfl
  · intro j hpos hj
    obtain ⟨k, rfl⟩ := Nat.exists_eq_add_of_le hpos
    have hk : k < a.length := by omega
    rw [Bool.not_eq_true', Bool.eq_false_iff, ne_eq, char_isPrefixOf_iff, hget,
      List.getElem?_append_left hk]
    intro heq
    exact ha (List.mem_of_getElem? heq)

theorem find_char_none (h : c ∉ s.drop pos) : find s [c] pos = none := by
  refine List.find?_eq_none.mpr fun i hi => ?_
  rw [List.mem_range'_1] at hi
  rw [char_isPrefixOf_iff]
  obtain ⟨k, rfl⟩ := Nat.exists_eq_add_of_le hi.1
  rw [← List.getElem?_drop]
  intro heq
  exact h (List.mem_of_getElem? heq)

/-- What is found takes the rest apart. -/
theorem split_of_find_char (h : find s [c] pos = some i) :
    ∃ a, s.drop pos = a ++ c :: s.drop (i + 1) ∧ c ∉ a ∧ i = pos + a.length := by
  obtain ⟨hpos, hend⟩ := find_le h
  have hword := takeWhile_of_find h
  refine ⟨(s.drop pos).take (i - pos), ?_, ?_, ?_⟩
  · conv_lhs => rw [← List.take_append_drop (i - pos) (s.drop pos), List.drop_drop]
    rw [Nat.add_sub_cancel' hpos, drop_of_find h]
  · rw [← hword]
    intro hmem
    simpa using List.mem_takeWhile_imp hmem
  · rw [List.length_take, List.length_drop]
    simp only [List.length_singleton] at hend
    omega

theorem notMem_of_find_char_none (h : find s [c] pos = none) : c ∉ s.drop pos := by
  intro hmem
  obtain ⟨a, b, heq, ha⟩ := List.eq_append_cons_of_mem hmem
  rw [find_char_of_split ha heq] at h
  exact Option.some_ne_none _ h

theorem find_prefix (h : find s a 0 = some 0) : ∃ rest, s = a ++ rest := by
  obtain ⟨-, rest, hrest⟩ := find_eq_some h
  exact ⟨rest, by rw [hrest]; simp⟩

theorem find_append_front (a b : Str) : find (a ++ b) a 0 = some 0 := by
  have hpre : a.isPrefixOf ((a ++ b).drop 0) = true := by
    rw [List.isPrefixOf_iff_prefix, List.drop_zero]
    exact List.prefix_append a b
  refine List.find?_range'_eq_some.mpr ⟨hpre, List.mem_range'_1.mpr ⟨le_refl _, by omega⟩, ?_⟩
  intro j _ hj
  exact absurd hj (Nat.not_lt_zero j)

/-! ## The part in front -/

theorem drop_of_split (h : s.drop pos = a ++ c :: b) : s.drop (pos + a.length + 1) = b := by
  rw [Nat.add_assoc, ← List.drop_drop, h, ← List.drop_drop, List.drop_left]
  rfl

theorem drop_at_split (h : s.drop pos = a ++ b) : s.drop (pos + a.length) = b := by
  rw [← List.drop_drop, h, List.drop_left]

theorem le_of_split (h : s.drop pos = a ++ c :: b) : pos ≤ s.length := by
  have hlength := congrArg List.length h
  rw [List.length_drop, List.length_append, List.length_cons] at hlength
  omega

/-- What is read from a position up to the character that is found. -/
theorem substr_of_split (h : s.drop pos = a ++ c :: b) :
    substr s pos (subSizeT (pos + a.length) pos) = some a := by
  rw [substr_of_le (le_of_split h), h, subSizeT, if_pos (Nat.le_add_right _ _),
    Nat.add_sub_cancel_left, List.take_left]

/-! ## Searches from the back -/

/-- The last place of a text in the range that is searched. -/
theorem rfindAt_of_split {needle : Str} {end_ : Nat} (h : s.drop pos = a ++ needle ++ b)
    (hend : pos + a.length ≤ end_) (hlength : end_ ≤ s.length)
    (hlast : ∀ j, pos + a.length < j → j ≤ end_ → ¬ needle <+: s.drop j) :
    rfindAt s needle end_ = some (pos + a.length) := by
  have hsplit : s.drop (pos + a.length) = needle ++ b := by
    rw [List.append_assoc] at h
    exact drop_at_split h
  have hrange : (List.range (end_ + 1)).reverse =
      (List.range' (pos + a.length + 1) (end_ - (pos + a.length))).reverse ++
        (pos + a.length) :: (List.range (pos + a.length)).reverse := by
    have hparts : List.range (end_ + 1) = List.range (pos + a.length) ++ (pos + a.length) ::
        List.range' (pos + a.length + 1) (end_ - (pos + a.length)) := by
      rw [List.range_eq_range', List.range_eq_range', ← List.range'_succ]
      have happend := @List.range'_append_1 0 (pos + a.length) (end_ - (pos + a.length) + 1)
      rw [Nat.zero_add] at happend
      rw [happend]
      congr 1
      omega
    rw [hparts, List.reverse_append, List.reverse_cons, List.append_assoc, List.singleton_append]
  rw [rfindAt, Nat.min_eq_left hlength, hrange, List.find?_append, List.find?_eq_none.mpr,
    Option.none_or, List.find?_cons_of_pos]
  · rw [List.isPrefixOf_iff_prefix, hsplit]
    exact List.prefix_append _ _
  · intro j hj
    rw [List.mem_reverse, List.mem_range'_1] at hj
    rw [List.isPrefixOf_iff_prefix]
    exact hlast j (by omega) (by omega)

theorem not_prefix_of_notMem {needle t : Str} {j : Nat} (hsplit : s.drop pos = t) (hc : c ∉ t)
    (hj : pos ≤ j) :
    ¬ c :: needle <+: s.drop j := by
  rintro ⟨rest, hrest⟩
  obtain ⟨k, rfl⟩ := Nat.exists_eq_add_of_le hj
  rw [← List.drop_drop, hsplit] at hrest
  have hmem : c ∈ t.drop k := by simp [← hrest]
  exact hc (List.mem_of_mem_drop hmem)

/-- **The last place of a text** is where its first character is met last. -/
theorem rfindLast_of_split (needle : Str) (h : s.drop pos = a ++ c :: (needle ++ b))
    (hc : c ∉ needle ++ b) :
    rfindLast s (c :: needle) = some (pos + a.length) := by
  have hlength := congrArg List.length h
  rw [List.length_drop, List.length_append, List.length_cons] at hlength
  refine rfindAt_of_split (b := b) (by rw [h, List.append_assoc, List.cons_append])
    (by omega) (le_refl _) ?_
  intro j hj _
  exact not_prefix_of_notMem (drop_of_split h) hc hj

/-- The last place of a character before a part that does not contain it. -/
theorem rfindAt_char_of_split {m t : Str} (h : s.drop pos = a ++ c :: (m ++ t)) (hc : c ∉ m) :
    rfindAt s [c] (pos + a.length + m.length) = some (pos + a.length) := by
  have hlength := congrArg List.length h
  rw [List.length_drop, List.length_append, List.length_cons, List.length_append] at hlength
  refine rfindAt_of_split (b := m ++ t) (by rw [h, List.append_assoc, List.singleton_append])
    (by omega) (by omega) ?_
  intro j hj hend
  obtain ⟨k, rfl⟩ := Nat.exists_eq_add_of_le hj
  have hk : k < m.length := by omega
  rw [← List.drop_drop, drop_of_split h, List.drop_append_of_le_length hk.le,
    List.drop_eq_getElem_cons hk, List.cons_append, List.cons_prefix_cons]
  rintro ⟨rfl, -⟩
  exact hc (List.getElem_mem hk)

/-! ## Tokens -/

theorem tokenLoop_char (s : Str) (c : UInt8) {fuel j : Nat} (hj : j ≤ s.length)
    (hfuel : s.length - j < fuel) :
    tokenLoop s [c] true fuel j = (s.drop j).splitOn c := by
  induction fuel generalizing j with
  | zero => omega
  | succ fuel ih =>
    rw [tokenLoop]
    cases hfind : find s [c] j with
    | none =>
      have hnot := notMem_of_find_char_none hfind
      have hend : j < s.length ∨ true = true ∧ j = s.length := by
        rcases Nat.lt_or_eq_of_le hj with h | h
        · exact Or.inl h
        · exact Or.inr ⟨rfl, h⟩
      rw [List.splitOn_eq_singleton hnot]
      exact if_pos hend
    | some i =>
      obtain ⟨a, hsplit, ha, rfl⟩ := split_of_find_char hfind
      have hend := (find_le hfind).2
      simp only [List.length_singleton] at hend ⊢
      rw [ih (by omega) (by omega)]
      have htake : (s.drop j).take (j + a.length - j) = a := by
        rw [Nat.add_sub_cancel_left, hsplit, List.take_left]
      rw [hsplit, List.splitOn_append_cons_self_of_not_mem ha, ← hsplit, htake]
      rfl

/-- **The tokens between a character**, the empty ones included. -/
theorem tokens_char (s : Str) (c : UInt8) : tokens s [c] true = s.splitOn c :=
  tokenLoop_char s c (Nat.zero_le _) (by omega)

theorem splitOn_pair (ha : c ∉ a) (hb : c ∉ b) : (a ++ c :: b).splitOn c = [a, b] := by
  rw [List.splitOn_append_cons_self_of_not_mem ha, List.splitOn_eq_singleton hb]

theorem eq_of_splitOn_pair (h : s.splitOn c = [a, b]) : s = a ++ c :: b ∧ c ∉ a ∧ c ∉ b := by
  by_cases hmem : c ∈ s
  · obtain ⟨p, q, rfl, hp⟩ := List.eq_append_cons_of_mem hmem
    rw [List.splitOn_append_cons_self_of_not_mem hp, List.cons.injEq] at h
    obtain ⟨rfl, h⟩ := h
    by_cases hq : c ∈ q
    · obtain ⟨p', q', rfl, hp'⟩ := List.eq_append_cons_of_mem hq
      rw [List.splitOn_append_cons_self_of_not_mem hp', List.cons.injEq] at h
      exact absurd h.2 (List.splitOn_ne_nil _ _)
    · rw [List.splitOn_eq_singleton hq, List.cons.injEq] at h
      exact ⟨by rw [h.1], hp, h.1 ▸ hq⟩
  · rw [List.splitOn_eq_singleton hmem] at h
    simp at h

end Airdcpp
