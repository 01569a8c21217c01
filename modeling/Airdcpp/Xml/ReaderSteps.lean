import Airdcpp.Xml.SimpleXMLReader

/-!
# `Xml/ReaderSteps` — what a round of the reader can do to the buffer

Every function of the reader takes bytes off the front of the buffer, and one that takes none
leaves the reader as it was (`Moves`). There is one exception, which needs an element without a
name: its end tag is read by looking at no byte at all.
-/

namespace Airdcpp
namespace SimpleXMLReader

variable {opts : Options} {r r' r'' : SimpleXMLReader}

/-- From `r` to `r'` bytes are taken off the buffer, or nothing happens. -/
structure Moves (r r' : SimpleXMLReader) : Prop where
  bytes : ∃ n, n ≤ r.bufSize ∧ r'.buf = r.buf.drop n ∧ r'.pos = r.pos + n
  still : r'.pos = r.pos → r' = r ∨ (r.state = .elementEnd ∧ r'.state = .elementEndEnd)

theorem Moves.refl (r : SimpleXMLReader) : Moves r r :=
  ⟨⟨0, Nat.zero_le _, rfl, rfl⟩, fun _ => Or.inl rfl⟩

theorem Moves.pos_le (h : Moves r r') : r.pos ≤ r'.pos := by
  obtain ⟨n, -, -, hpos⟩ := h.bytes
  omega

theorem Moves.bufSize_add_pos (h : Moves r r') : r'.bufSize + r'.pos = r.bufSize + r.pos := by
  obtain ⟨n, hn, hbuf, hpos⟩ := h.bytes
  rw [bufSize, hbuf, List.length_drop, hpos]
  unfold bufSize at hn ⊢
  omega

theorem Moves.trans (h : Moves r r') (h' : Moves r' r'') : Moves r r'' := by
  constructor
  · obtain ⟨m, hm, hbuf, hpos⟩ := h.bytes
    obtain ⟨n, hn, hbuf', hpos'⟩ := h'.bytes
    refine ⟨m + n, ?_, ?_, ?_⟩
    · rw [bufSize, hbuf, List.length_drop] at hn
      unfold bufSize at hm ⊢
      omega
    · rw [hbuf', hbuf, List.drop_drop]
    · rw [hpos', hpos, Nat.add_assoc]
  · intro hpos
    have hle := h.pos_le
    have hle' := h'.pos_le
    rcases h.still (by omega) with rfl | ⟨hs, hs'⟩
    · exact h'.still hpos
    · rcases h'.still (by omega) with rfl | ⟨hs'', -⟩
      · exact Or.inr ⟨hs, hs'⟩
      · rw [hs'] at hs''
        cases hs''

/-- At least one byte is taken. -/
theorem Moves.take {n : Nat} (hn : 0 < n) (hle : n ≤ r.bufSize) (hbuf : r'.buf = r.buf.drop n)
    (hpos : r'.pos = r.pos + n) : Moves r r' := by
  refine ⟨⟨n, hle, hbuf, hpos⟩, ?_⟩
  intro heq
  omega

/-- A function of the reader only moves. -/
def Sound (a : Action) : Prop := ∀ {r r' : SimpleXMLReader} {b : Bool}, a r = .ok (b, r') →
    Moves r r'

/-! ## The functions, one by one -/

theorem sound_literal {lit : Str} (hlit : lit ≠ []) (withSpace : Bool) (newState : ParseState) :
    Sound (literal lit withSpace newState) := by
  intro r r' b h
  have hpos : 0 < lit.length := List.length_pos_iff.mpr hlit
  unfold literal at h
  split at h
  · cases h
    exact Moves.refl _
  split at h
  · next hle =>
    split at h
    · split at h
      · cases h
        exact Moves.refl _
      split at h
      · cases h
        exact Moves.refl _
      · next hne hsp =>
        cases h
        have hlt : lit.length + 1 ≤ r.bufSize := by omega
        exact Moves.take (Nat.succ_pos _) hlt rfl rfl
    · cases h
      exact Moves.take hpos hle rfl rfl
  · cases h
    exact Moves.refl _

theorem needChars_iff {n : Nat} : r.needChars n = true ↔ n ≤ r.bufSize := by
  simp [needChars]

theorem not_needChars_iff {n : Nat} : (!r.needChars n) = true ↔ r.bufSize < n := by
  simp [needChars]

theorem sound_character (c : UInt8) (newState : ParseState) : Sound (character c newState) := by
  intro r r' b h
  unfold character at h
  split at h
  · cases h
    exact Moves.refl _
  next hneed =>
  rw [not_needChars_iff] at hneed
  split at h
  · cases h
    exact Moves.take Nat.one_pos (by omega) rfl rfl
  · cases h
    exact Moves.refl _

theorem skipSpaceLoop_bytes {store : Bool} : ∀ {r r' : SimpleXMLReader},
    skipSpaceLoop store r.buf r = .ok r' →
    (∃ n, n ≤ r.bufSize ∧ r'.buf = r.buf.drop n ∧ r'.pos = r.pos + n) ∧
      (r'.pos = r.pos → r' = r) := by
  intro r r' h
  generalize hb : r.buf = buf at h
  induction buf generalizing r with
  | nil =>
    cases h
    exact ⟨⟨0, Nat.zero_le _, by rw [hb]; rfl, rfl⟩, fun _ => rfl⟩
  | cons c buf ih =>
    rw [skipSpaceLoop] at h
    have hone : 1 ≤ r.bufSize := by rw [bufSize, hb]; exact Nat.succ_pos _
    have hnext : ∀ {q : SimpleXMLReader}, q.buf = buf → q.pos = r.pos + 1 →
        skipSpaceLoop store buf q = .ok r' →
        (∃ n, n ≤ r.bufSize ∧ r'.buf = (c :: buf).drop n ∧ r'.pos = r.pos + n) ∧
          (r'.pos = r.pos → r' = r) := by
      intro q hq hpos hrun
      obtain ⟨⟨n, hn, hbuf, hpos'⟩, -⟩ := ih hq hrun
      refine ⟨⟨n + 1, ?_, hbuf, by omega⟩, by omega⟩
      rw [bufSize, hq] at hn
      rw [bufSize, hb, List.length_cons]
      omega
    have hdrop : r.buf.drop 1 = buf := by rw [hb]; rfl
    split at h
    · split at h
      · cases happ : r.append r.value MAX_VALUE_SIZE c with
        | error e => rw [happ] at h; cases h
        | ok value =>
          rw [happ] at h
          exact hnext hdrop rfl h
      · exact hnext hdrop rfl h
    · cases h
      exact ⟨⟨0, Nat.zero_le _, hb, rfl⟩, fun _ => rfl⟩

theorem sound_skipSpace (store : Bool) : Sound (skipSpace store) := by
  intro r r' b h
  unfold skipSpace at h
  split at h
  · cases h
    exact Moves.refl _
  cases hl : skipSpaceLoop store r.buf r with
  | error e => rw [hl] at h; cases h
  | ok q =>
    rw [hl] at h
    cases h
    obtain ⟨hbytes, hstill⟩ := skipSpaceLoop_bytes hl
    exact ⟨hbytes, fun hpos => Or.inl (hstill hpos)⟩

theorem sound_spaceOrError (message : String) : Sound (spaceOrError message) := by
  intro r r' b h
  unfold spaceOrError at h
  split at h
  · cases h
  · exact sound_skipSpace false h

theorem sound_fail (message : String) : Sound (fail message) := by
  intro r r' b h
  cases h

/-! ## References -/

theorem getD_ne_zero {buf : Str} {n : Nat} {c : UInt8} (hc : c ≠ 0) (h : buf.getD n 0 = c) :
    n < buf.length := by
  by_contra hlt
  rw [List.getD_eq_default _ _ (Nat.le_of_not_lt hlt)] at h
  exact hc h.symm

theorem isDecimalRef_length {buf : Str} {n : Nat} (h : isDecimalRef buf n = true) :
    n + 3 ≤ buf.length := by
  simp only [isDecimalRef, Bool.and_eq_true, beq_iff_eq] at h
  have hlt := getD_ne_zero (by decide) h.2
  omega

theorem isHexRef_length {buf : Str} {n : Nat} (h : isHexRef buf n = true) :
    n + 4 ≤ buf.length := by
  simp only [isHexRef, Bool.and_eq_true, beq_iff_eq] at h
  have hlt := getD_ne_zero (by decide) h.2
  omega

theorem some_of_ite {α : Type} {p : Prop} [Decidable p] {a b : α} {x : Option α}
    (h : (if p then some a else x) = some b) : (p ∧ a = b) ∨ x = some b := by
  split at h
  · next hp => exact Or.inl ⟨hp, Option.some.inj h⟩
  · exact Or.inr h

/-- A reference has at least four bytes, and they are all there. -/
theorem reference_length {buf s : Str} {n : Nat} (hlen : 6 < buf.length)
    (h : reference buf = some (s, n)) : 4 ≤ n ∧ n ≤ buf.length := by
  have hnamed : ∀ {t : Str} {m : Nat}, 4 ≤ m ∧ m ≤ 6 → (t, m) = (s, n) →
      4 ≤ n ∧ n ≤ buf.length := by
    intro t m hm heq
    cases heq
    omega
  have hdec : ∀ {k : Nat}, 0 < k → isDecimalRef buf k = true → (([] : Str), k + 3) = (s, n) →
      4 ≤ n ∧ n ≤ buf.length := by
    intro k hk href heq
    cases heq
    exact ⟨by omega, isDecimalRef_length href⟩
  have hhex : ∀ {k : Nat}, isHexRef buf k = true → (([] : Str), k + 4) = (s, n) →
      4 ≤ n ∧ n ≤ buf.length := by
    intro k href heq
    cases heq
    exact ⟨by omega, isHexRef_length href⟩
  unfold reference at h
  obtain ⟨-, h⟩ | h := some_of_ite h
  · exact hnamed (by omega) h
  obtain ⟨-, h⟩ | h := some_of_ite h
  · exact hnamed (by omega) h
  obtain ⟨-, h⟩ | h := some_of_ite h
  · exact hnamed (by omega) h
  obtain ⟨-, h⟩ | h := some_of_ite h
  · exact hnamed (by omega) h
  obtain ⟨-, h⟩ | h := some_of_ite h
  · exact hnamed (by omega) h
  obtain ⟨hr, h⟩ | h := some_of_ite h
  · exact hdec Nat.one_pos hr h
  obtain ⟨hr, h⟩ | h := some_of_ite h
  · exact hdec (Nat.succ_pos 1) hr h
  obtain ⟨hr, h⟩ | h := some_of_ite h
  · exact hdec (Nat.succ_pos 2) hr h
  obtain ⟨hr, h⟩ | h := some_of_ite h
  · exact hdec (Nat.succ_pos 3) hr h
  obtain ⟨hr, h⟩ | h := some_of_ite h
  · exact hdec (Nat.succ_pos 4) hr h
  obtain ⟨hr, h⟩ | h := some_of_ite h
  · exact hhex hr h
  obtain ⟨hr, h⟩ | h := some_of_ite h
  · exact hhex hr h
  obtain ⟨hr, h⟩ | h := some_of_ite h
  · exact hhex hr h
  obtain ⟨hr, h⟩ | h := some_of_ite h
  · exact hhex hr h
  cases h

/-- `entref` waits, says no, or goes behind a reference. -/
theorem entref_cases {d d' : Str} {b : Bool} (h : r.entref d = .ok (b, d', r')) :
    (r' = r ∧ d' = d ∧ (b = true → r.bufSize ≤ 6) ∧ (b = false → 6 < r.bufSize)) ∨
      (b = true ∧ ∃ s n, reference r.buf = some (s, n) ∧ 6 < r.bufSize ∧ d' = d ++ s ∧
        r' = r.advancePos n) := by
  unfold entref at h
  split at h
  · cases h
  split at h
  · next hlen =>
    cases href : reference r.buf with
    | none =>
      rw [href] at h
      cases h
      exact Or.inl ⟨rfl, rfl, fun h => absurd h Bool.false_ne_true, fun _ => hlen⟩
    | some sn =>
      obtain ⟨s, n⟩ := sn
      rw [href] at h
      cases h
      exact Or.inr ⟨rfl, s, n, rfl, hlen, rfl, rfl⟩
  · next hlen =>
    cases h
    refine Or.inl ⟨rfl, rfl, fun _ => Nat.le_of_not_lt hlen, fun h => ?_⟩
    cases h

/-! ## The functions that look for a name or a value -/

theorem length_takeWhile_le (p : UInt8 → Bool) (l : Str) : (l.takeWhile p).length ≤ l.length :=
  (List.takeWhile_sublist p).length_le

theorem appendRange_ok {d s piece : Str} {maxLen : Nat}
    (h : r.appendRange s maxLen piece = .ok d) : d = s ++ piece := by
  unfold appendRange at h
  split at h
  · cases h
  · cases h
    rfl

theorem appendElement_spec {piece : Str} (h : r.appendElement piece = .ok r') :
    r'.buf = r.buf ∧ r'.pos = r.pos ∧ r'.state = r.state ∧ (piece = [] → r' = r) := by
  unfold appendElement at h
  split at h
  · cases h
    exact ⟨rfl, rfl, rfl, fun _ => rfl⟩
  · next name elements helems =>
    split at h
    · cases h
    · next d hd =>
      cases h
      refine ⟨rfl, rfl, rfl, fun hp => ?_⟩
      rw [appendRange_ok hd, hp, List.append_nil, ← helems]

theorem appendAttrName_spec {piece : Str} (h : r.appendAttrName piece = .ok r') :
    r'.buf = r.buf ∧ r'.pos = r.pos ∧ r'.state = r.state ∧ (piece = [] → r' = r) := by
  unfold appendAttrName at h
  split at h
  · cases h
    exact ⟨rfl, rfl, rfl, fun _ => rfl⟩
  · next name value attribs hattr =>
    split at h
    · cases h
    · next d hd =>
      cases h
      refine ⟨rfl, rfl, rfl, fun hp => ?_⟩
      rw [appendRange_ok hd, hp, List.append_nil, ← hattr]

/-- Setting the value of the attribute touches nothing else. -/
theorem setAttrValue_spec (r : SimpleXMLReader) (value : Str) :
    (r.setAttrValue value).buf = r.buf ∧ (r.setAttrValue value).pos = r.pos ∧
      (r.setAttrValue value).state = r.state := by
  unfold setAttrValue
  split
  · exact ⟨rfl, rfl, rfl⟩
  · exact ⟨rfl, rfl, rfl⟩

theorem setAttrValue_attrValue : r.setAttrValue r.attrValue = r := by
  unfold setAttrValue attrValue
  split
  · rfl
  · next name value attribs hattr => simp only; rw [← hattr]

theorem appendAttrValue_spec {piece : Str} (h : r.appendAttrValue piece = .ok r') :
    r'.buf = r.buf.drop piece.length ∧ r'.pos = r.pos + piece.length ∧ r'.state = r.state ∧
      (piece = [] → r' = r) := by
  unfold appendAttrValue at h
  split at h
  · cases h
    exact ⟨rfl, rfl, rfl, fun hp => by rw [hp]; rfl⟩
  · next name value attribs hattr =>
    split at h
    · cases h
    · next d hd =>
      cases h
      refine ⟨rfl, rfl, rfl, fun hp => ?_⟩
      rw [appendRange_ok hd, hp, List.append_nil, ← hattr]
      rfl

theorem drop_cons_lt {l rest : Str} {n : Nat} {c : UInt8} (h : l.drop n = c :: rest) :
    n < l.length := by
  by_contra hlt
  rw [List.drop_eq_nil_of_le (Nat.le_of_not_lt hlt)] at h
  cases h

/-- Behind a name only the parts of the reader that are not the input change. -/
def KeepsInput (f : SimpleXMLReader → SimpleXMLReader) : Prop :=
  ∀ (r : SimpleXMLReader) (buf : Str) (pos : Nat),
    f { r with buf, pos } = { f r with buf, pos } ∧ (f r).buf = r.buf ∧ (f r).pos = r.pos

theorem keepsInput_elementNameStop {c : UInt8} {f : SimpleXMLReader → SimpleXMLReader}
    (h : elementNameStop c = some f) : KeepsInput f := by
  unfold elementNameStop at h
  split at h
  · cases h
    exact fun _ _ _ => ⟨rfl, rfl, rfl⟩
  split at h
  · cases h
    exact fun _ _ _ => ⟨rfl, rfl, rfl⟩
  split at h
  · cases h
    exact fun _ _ _ => ⟨rfl, rfl, rfl⟩
  · cases h

theorem keepsInput_elementAttrNameStop {c : UInt8} {f : SimpleXMLReader → SimpleXMLReader}
    (h : elementAttrNameStop c = some f) : KeepsInput f := by
  unfold elementAttrNameStop at h
  split at h
  · cases h
    exact fun _ _ _ => ⟨rfl, rfl, rfl⟩
  split at h
  · cases h
    exact fun _ _ _ => ⟨rfl, rfl, rfl⟩
  · cases h

theorem sound_readName {appendName : SimpleXMLReader → Str → Result SimpleXMLReader}
    {stop : UInt8 → Option (SimpleXMLReader → SimpleXMLReader)}
    (happ : ∀ {r q : SimpleXMLReader} {piece : Str}, appendName r piece = .ok q →
      q.buf = r.buf ∧ q.pos = r.pos ∧ q.state = r.state ∧ (piece = [] → q = r))
    (hstop : ∀ {c f}, stop c = some f → KeepsInput f) : Sound (readName appendName stop) := by
  intro r r' b h
  unfold readName at h
  dsimp only at h
  have hle := length_takeWhile_le isNameChar r.buf
  generalize r.buf.takeWhile isNameChar = name at h hle
  cases hd : r.buf.drop name.length with
  | nil =>
    rw [hd] at h
    cases hname : appendName r name with
    | error e => simp only [hname] at h; cases h
    | ok q =>
      simp only [hname] at h
      cases h
      obtain ⟨hbuf, hpos, -, hnil⟩ := happ hname
      constructor
      · exact ⟨name.length, hle, by rw [advancePos, hbuf], by rw [advancePos, hpos]⟩
      · intro heq
        rw [advancePos, hpos] at heq
        have hzero : name = [] := List.eq_nil_of_length_eq_zero (by simpa using heq)
        rw [hnil hzero, hzero]
        exact Or.inl rfl
  | cons c rest =>
    have hlt := drop_cons_lt hd
    rw [hd] at h
    cases hf : stop c with
    | none =>
      simp only [hf] at h
      cases h
      exact Moves.refl _
    | some f =>
      cases hname : appendName r name with
      | error e => simp only [hf, hname] at h; cases h
      | ok q =>
        simp only [hf, hname] at h
        cases h
        obtain ⟨hbuf, hpos, -⟩ := happ hname
        obtain ⟨-, hfbuf, hfpos⟩ := hstop hf q q.buf q.pos
        apply Moves.take (Nat.succ_pos _) hlt
        · rw [advancePos, hfbuf, hbuf]
        · rw [advancePos, hfpos, hpos]

theorem sound_elementName : Sound elementName :=
  sound_readName appendElement_spec keepsInput_elementNameStop

theorem sound_elementAttrName : Sound elementAttrName :=
  sound_readName appendAttrName_spec keepsInput_elementAttrNameStop

/-- `entref` only takes the reference it finds. -/
theorem entref_moves {d d' : Str} {b : Bool} (h : r.entref d = .ok (b, d', r')) :
    (r' = r ∧ d' = d) ∨ ∃ n, 0 < n ∧ n ≤ r.bufSize ∧ r' = r.advancePos n := by
  rcases entref_cases h with ⟨rfl, rfl, -⟩ | ⟨-, s, n, href, hlen, -, rfl⟩
  · exact Or.inl ⟨rfl, rfl⟩
  · obtain ⟨hn, hle⟩ := reference_length hlen href
    exact Or.inr ⟨n, by omega, hle, rfl⟩

theorem sound_elementAttrValue : Sound (elementAttrValue opts) := by
  intro r r' b h
  unfold elementAttrValue at h
  dsimp only at h
  have hle := length_takeWhile_le (fun c => !(closing r.state c || c == AMP)) r.buf
  generalize r.buf.takeWhile (fun c => !(closing r.state c || c == AMP)) = piece at h hle
  cases happ : r.appendAttrValue piece with
  | error e => rw [happ] at h; cases h
  | ok q =>
    obtain ⟨hbuf, hpos, -, hnil⟩ := appendAttrValue_spec happ
    have hmove : Moves r q := by
      refine ⟨⟨piece.length, hle, hbuf, hpos⟩, fun heq => ?_⟩
      exact Or.inl (hnil (List.eq_nil_of_length_eq_zero (by omega)))
    rw [happ] at h
    dsimp only at h
    cases hb : q.buf with
    | nil =>
      rw [hb] at h
      cases h
      exact hmove
    | cons c rest =>
      rw [hb] at h
      dsimp only at h
      split at h
      · cases hdec : r.decodeString opts q.attrValue with
        | error e => rw [hdec] at h; cases h
        | ok value =>
          rw [hdec] at h
          cases h
          obtain ⟨hsb, hsp, -⟩ := setAttrValue_spec q value
          have hone : 1 ≤ q.bufSize := by rw [bufSize, hb]; exact Nat.succ_pos _
          refine hmove.trans (Moves.take Nat.one_pos hone ?_ ?_)
          · rw [advancePos, hsb]
          · rw [advancePos, hsp]
      · cases hent : q.entref q.attrValue with
        | error e => rw [hent] at h; cases h
        | ok x =>
          obtain ⟨b', value, q'⟩ := x
          rw [hent] at h
          cases h
          obtain ⟨hsb, hsp, -⟩ := setAttrValue_spec q' value
          rcases entref_moves hent with ⟨rfl, rfl⟩ | ⟨n, hn, hle, rfl⟩
          · rw [setAttrValue_attrValue]
            exact hmove
          · refine hmove.trans (Moves.take hn hle ?_ ?_)
            · rw [hsb]
              rfl
            · rw [hsp]
              rfl

theorem sound_element : Sound element := by
  intro r r' b h
  unfold element at h
  split at h
  · cases h
    exact Moves.refl _
  next hneed =>
  rw [not_needChars_iff, not_lt] at hneed
  dsimp only at h
  split at h
  · split at h
    · cases h
    · cases happ : r.append [] MAX_NAME_SIZE (r.charAt 1) with
      | error e => rw [happ] at h; cases h
      | ok name =>
        rw [happ] at h
        cases h
        exact Moves.take (Nat.succ_pos 1) hneed rfl rfl
  · cases h
    exact Moves.refl _

theorem sound_elementAttr : Sound elementAttr := by
  intro r r' b h
  unfold elementAttr at h
  split at h
  · cases h
    exact Moves.refl _
  next hneed =>
  rw [not_needChars_iff, not_lt] at hneed
  dsimp only at h
  split at h
  · cases happ : r.append [] MAX_NAME_SIZE (r.charAt 0) with
    | error e => rw [happ] at h; cases h
    | ok name =>
      rw [happ] at h
      cases h
      exact Moves.take Nat.one_pos hneed rfl rfl
  · cases h
    exact Moves.refl _

theorem sound_elementEndSimple : Sound elementEndSimple := by
  intro r r' b h
  unfold elementEndSimple at h
  split at h
  · cases h
    exact Moves.refl _
  next hneed =>
  rw [not_needChars_iff, not_lt] at hneed
  split at h
  · cases h
    exact Moves.take Nat.one_pos hneed rfl rfl
  · cases h
    exact Moves.refl _

theorem sound_elementEndComplex : Sound elementEndComplex := by
  intro r r' b h
  unfold elementEndComplex at h
  split at h
  · cases h
    exact Moves.refl _
  next hneed =>
  rw [not_needChars_iff, not_lt] at hneed
  split at h
  · cases h
    exact Moves.take Nat.one_pos hneed rfl rfl
  · cases h
    exact Moves.refl _

theorem sound_elementEndEnd : Sound elementEndEnd := by
  intro r r' b h
  unfold elementEndEnd at h
  split at h
  · cases h
    exact Moves.refl _
  next hneed =>
  rw [not_needChars_iff, not_lt] at hneed
  split at h
  · cases h
    exact Moves.take Nat.one_pos hneed rfl rfl
  · cases h
    exact Moves.refl _

/-- The function of `elementEnd`: the one that can go on without taking a byte. -/
theorem elementEnd_moves (hstate : r.state = .elementEnd) {b : Bool}
    (h : elementEnd r = .ok (b, r')) : Moves r r' := by
  unfold elementEnd at h
  split at h
  · cases h
    exact Moves.refl _
  · next top rest helems =>
    split at h
    · cases h
      exact Moves.refl _
    next hneed =>
    rw [not_needChars_iff, not_lt] at hneed
    split at h
    · cases h
      exact ⟨⟨top.length, hneed, rfl, rfl⟩, fun _ => Or.inr ⟨hstate, rfl⟩⟩
    · cases h
      exact Moves.refl _

theorem declVersionLoop_le {sep : UInt8} {buf : Str} {m n : Nat}
    (h : declVersionLoop sep buf m = some (some n)) : m < n ∧ n ≤ m + buf.length := by
  induction buf generalizing m with
  | nil => cases h
  | cons c buf ih =>
    rw [declVersionLoop] at h
    split at h
    · cases h
      exact ⟨Nat.lt_succ_self m, by rw [List.length_cons]; omega⟩
    split at h
    · cases h
    · have hrest := ih h
      rw [List.length_cons]
      omega

theorem sound_declVersionNum : Sound declVersionNum := by
  intro r r' b h
  unfold declVersionNum at h
  split at h
  · cases h
    exact Moves.refl _
  next hneed =>
  rw [not_needChars_iff, not_lt] at hneed
  dsimp only at h
  split at h
  · split at h
    · cases h
      exact Moves.refl _
    cases hl : declVersionLoop (r.charAt 0) (r.buf.drop 4) 4 with
    | none =>
      rw [hl] at h
      cases h
      exact Moves.refl _
    | some x =>
      rw [hl] at h
      cases x with
      | none =>
        cases h
        exact Moves.refl _
      | some n =>
        cases h
        obtain ⟨hlt, hle⟩ := declVersionLoop_le hl
        rw [List.length_drop] at hle
        refine Moves.take (by omega) ?_ rfl rfl
        unfold bufSize at hneed ⊢
        omega
  · cases h
    exact Moves.refl _

theorem commentLoop_moves : Moves r (commentLoop r.buf r) := by
  generalize hb : r.buf = buf
  induction buf generalizing r with
  | nil => exact Moves.refl r
  | cons c buf ih =>
    have hone : 1 ≤ r.bufSize := by rw [bufSize, hb]; exact Nat.succ_pos _
    have hnext : Moves r (commentLoop buf (r.advancePos 1)) := by
      have hdrop : (r.advancePos 1).buf = buf := by rw [advancePos, hb]; rfl
      exact (Moves.take Nat.one_pos hone rfl rfl).trans (ih hdrop)
    rw [commentLoop]
    split
    · split
      · exact Moves.refl r
      next hneed =>
      rw [not_needChars_iff, not_lt] at hneed
      split
      · exact Moves.take (Nat.succ_pos 2) hneed rfl rfl
      · exact hnext
    · exact hnext

theorem sound_comment : Sound comment := by
  intro r r' b h
  cases h
  exact commentLoop_moves

theorem cdataLoop_moves (h : cdataLoop r.buf r = .ok r') : Moves r r' := by
  generalize hb : r.buf = buf at h
  induction buf generalizing r with
  | nil =>
    cases h
    exact Moves.refl _
  | cons c buf ih =>
    have hone : 1 ≤ r.bufSize := by rw [bufSize, hb]; exact Nat.succ_pos _
    rw [cdataLoop] at h
    split at h
    · cases h
      exact Moves.refl _
    next hwait =>
    split at h
    · next hend =>
      cases h
      simp only [Bool.and_eq_true, beq_iff_eq] at hwait hend
      refine Moves.take (Nat.succ_pos 2) ?_ rfl rfl
      rw [← not_lt, ← not_needChars_iff]
      exact fun hlt => hwait ⟨hend.1.1, hlt⟩
    · cases happ : r.append r.value MAX_VALUE_SIZE c with
      | error e => rw [happ] at h; cases h
      | ok value =>
        rw [happ] at h
        have hstep : Moves r { r.advancePos 1 with value } := Moves.take Nat.one_pos hone rfl rfl
        refine hstep.trans (ih ?_ h)
        show r.buf.drop 1 = buf
        rw [hb]
        rfl

theorem sound_cdata : Sound cdata := by
  intro r r' b h
  unfold cdata at h
  cases hl : cdataLoop r.buf r with
  | error e => rw [hl] at h; cases h
  | ok q =>
    rw [hl] at h
    cases h
    exact cdataLoop_moves hl

theorem sound_content : Sound content := by
  intro r r' b h
  unfold content at h
  split at h
  · cases h
    exact Moves.refl _
  next hneed =>
  rw [not_needChars_iff, not_lt] at hneed
  dsimp only at h
  split at h
  · cases hent : r.entref r.value with
    | error e => rw [hent] at h; cases h
    | ok x =>
      obtain ⟨b', value, q⟩ := x
      rw [hent] at h
      cases h
      rcases entref_moves hent with ⟨rfl, rfl⟩ | ⟨n, hn, hle, rfl⟩
      · exact Moves.refl _
      · exact Moves.take hn hle rfl rfl
  · cases happ : r.append r.value MAX_VALUE_SIZE (r.charAt 0) with
    | error e => rw [happ] at h; cases h
    | ok value =>
      rw [happ] at h
      cases h
      exact Moves.take Nat.one_pos hneed rfl rfl

/-! ## A round -/

theorem firstOf_moves {as : List Action} (has : ∀ a ∈ as, Sound a) (h : firstOf as r = .ok r') :
    Moves r r' := by
  induction as generalizing r with
  | nil =>
    cases h
    exact Moves.refl _
  | cons a as ih =>
    rw [firstOf] at h
    cases ha : a r with
    | error e => rw [ha] at h; cases h
    | ok x =>
      obtain ⟨b, q⟩ := x
      rw [ha] at h
      have hmove : Moves r q := has a (List.mem_cons_self ..) ha
      cases b with
      | true =>
        cases h
        exact hmove
      | false => exact hmove.trans (ih (fun b hb => has b (List.mem_cons_of_mem a hb)) h)

theorem sound_actions {state : ParseState} (hend : state ≠ .elementEnd) :
    ∀ a ∈ actions opts state, Sound a := by
  cases state <;>
    simp (disch := decide) [actions, sound_literal, sound_character, sound_skipSpace,
      sound_spaceOrError, sound_fail, sound_element, sound_elementName, sound_elementAttr,
      sound_elementAttrName, sound_elementAttrValue, sound_elementEndSimple,
      sound_elementEndComplex, sound_elementEndEnd, sound_declVersionNum, sound_comment,
      sound_cdata, sound_content] at hend ⊢

/-- The functions of a state only move the reader. -/
theorem firstOf_actions_moves (h : firstOf (actions opts r.state) r = .ok r') : Moves r r' := by
  by_cases hend : r.state = .elementEnd
  · rw [hend, actions, firstOf] at h
    cases ha : elementEnd r with
    | error e => rw [ha] at h; cases h
    | ok x =>
      obtain ⟨b, q⟩ := x
      rw [ha] at h
      have hmove := elementEnd_moves hend ha
      cases b with
      | true =>
        cases h
        exact hmove
      | false =>
        refine hmove.trans (firstOf_moves ?_ h)
        intro a ha
        rw [List.mem_singleton.mp ha]
        exact sound_spaceOrError _
  · exact firstOf_moves (sound_actions hend) h

/-! ## The loop of the encoding value -/

/-- `entref` waits for more of a reference, in a loop that does not. -/
def CutReference (r : SimpleXMLReader) : Prop :=
  r.buf.head? = some AMP ∧ closing r.state AMP = false ∧ r.bufSize ≤ 6 ∧
    r.encoding.length ≤ MAX_VALUE_SIZE

instance cutReferenceDecidable (r : SimpleXMLReader) : Decidable (CutReference r) :=
  inferInstanceAs (Decidable (_ ∧ _ ∧ _ ∧ _))

theorem closing_amp (state : ParseState) : closing state AMP = false := by
  cases state <;> rfl

theorem cutReference_next (h : CutReference r) : Loop.Next (declEncodingBody opts) r r := by
  obtain ⟨hhead, hclosing, hsize, hlen⟩ := h
  obtain ⟨rest, hbuf⟩ := List.head?_eq_some_iff.mp hhead
  have hent : r.entref r.encoding = .ok (true, r.encoding, r) := by
    unfold entref
    rw [if_neg (Nat.not_lt.mpr hlen), if_neg (Nat.not_lt.mpr hsize)]
  unfold Loop.Next declEncodingBody
  rw [hbuf]
  dsimp only
  rw [hclosing, if_neg Bool.false_ne_true, if_pos (by rfl), hent]

/-- A round that is not stuck takes at least a byte. -/
theorem declEncodingBody_next (h : ¬ CutReference r)
    (hnext : Loop.Next (declEncodingBody opts) r r') :
    ∃ n, 0 < n ∧ n ≤ r.bufSize ∧ r'.buf = r.buf.drop n ∧ r'.pos = r.pos + n ∧
      r'.state = r.state := by
  unfold Loop.Next declEncodingBody at hnext
  cases hb : r.buf with
  | nil => rw [hb] at hnext; cases hnext
  | cons c rest =>
    have hone : 1 ≤ r.bufSize := by rw [bufSize, hb]; exact Nat.succ_pos _
    rw [hb] at hnext
    dsimp only at hnext
    split at hnext
    · cases hnext
    split at hnext
    · next hclosing hamp =>
      rw [beq_iff_eq] at hamp
      cases hent : r.entref r.encoding with
      | error e => rw [hent] at hnext; cases hnext
      | ok x =>
        obtain ⟨b, encoding, q⟩ := x
        rw [hent] at hnext
        rcases entref_cases hent with ⟨rfl, rfl, htrue, -⟩ | ⟨rfl, s, n, href, hlen, rfl, rfl⟩
        · cases b with
          | false => cases hnext
          | true =>
            refine absurd ⟨?_, closing_amp _, htrue rfl, ?_⟩ h
            · rw [hb, hamp]
              rfl
            · unfold entref at hent
              split at hent
              · cases hent
              · next hle => exact Nat.le_of_not_lt hle
        · obtain ⟨hn, hle⟩ := reference_length hlen href
          cases hnext
          exact ⟨n, by omega, hle, by rw [advancePos, hb], rfl, rfl⟩
    · cases happ : r.append r.encoding MAX_VALUE_SIZE c with
      | error e => rw [happ] at hnext; cases hnext
      | ok encoding =>
        rw [happ] at hnext
        cases hnext
        exact ⟨1, Nat.one_pos, hone, by rw [advancePos, hb], rfl, rfl⟩

theorem declEncodingBody_ne_none : declEncodingBody opts r ≠ none := by
  unfold declEncodingBody
  intro h
  repeat' split at h
  all_goals cases h

theorem declEncodingBody_decreases (h : ¬ CutReference r)
    (hnext : Loop.Next (declEncodingBody opts) r r') : r'.bufSize < r.bufSize := by
  obtain ⟨n, hn, hle, hbuf, -⟩ := declEncodingBody_next h hnext
  rw [bufSize, hbuf, List.length_drop]
  unfold bufSize at hle ⊢
  omega

/-- The bound in `declEncodingValue` is only there to compute: it returns what the loop returns,
    after however many rounds. -/
theorem declEncodingValue_eq_some_iff {x : Result (Bool × SimpleXMLReader)} :
    declEncodingValue opts r = some x ↔ Loop.Returns (declEncodingBody opts) r x :=
  Loop.run_eq_some_iff bufSize CutReference (fun _ _ => declEncodingBody_ne_none)
    (fun _ _ h hnext => declEncodingBody_decreases h hnext)
    (fun _ h => Loop.not_halts_of_next_self (cutReference_next h)) (Nat.lt_succ_self _)

/-- The loop ends unless it comes to the beginning of a reference in the last six bytes. -/
theorem declEncodingValue_eq_none_iff :
    declEncodingValue opts r = none ↔
      ∃ q, Loop.Steps (declEncodingBody opts) r q ∧ CutReference q := by
  have hhalts : Loop.Halts (declEncodingBody opts) r ↔ _ :=
    Loop.halts_iff bufSize CutReference (fun _ _ => declEncodingBody_ne_none)
      (fun _ _ h hnext => declEncodingBody_decreases h hnext)
      (fun _ h => Loop.not_halts_of_next_self (cutReference_next h))
  rw [← not_iff_not, ← hhalts, ← ne_eq, Option.ne_none_iff_exists']
  exact exists_congr fun x => declEncodingValue_eq_some_iff

theorem declEncodingValue_moves {b : Bool}
    (h : declEncodingValue opts r = some (.ok (b, r'))) : Moves r r' := by
  obtain ⟨n, hn⟩ := declEncodingValue_eq_some_iff.mp h
  clear h
  induction n generalizing r with
  | zero => cases hn
  | succ n ih =>
    cases hbody : declEncodingBody opts r with
    | none => rw [Loop.run_succ_of_none hbody] at hn; cases hn
    | some x =>
      cases x with
      | inr q =>
        rw [Loop.run_succ_of_next hbody] at hn
        by_cases hcut : CutReference r
        · have hnext : Loop.Next (declEncodingBody opts) r r := cutReference_next hcut
          have hself := hnext.symm.trans hbody
          cases hself
          exact ih hn
        · obtain ⟨m, hm, hle, hbuf, hpos, -⟩ := declEncodingBody_next hcut hbody
          exact (Moves.take hm hle hbuf hpos).trans (ih hn)
      | inl x =>
        rw [Loop.run_succ_of_return hbody, Option.some.injEq] at hn
        subst hn
        unfold declEncodingBody at hbody
        cases hb : r.buf with
        | nil =>
          rw [hb] at hbody
          cases hbody
          exact Moves.refl _
        | cons c rest =>
          have hone : 1 ≤ r.bufSize := by rw [bufSize, hb]; exact Nat.succ_pos _
          rw [hb] at hbody
          dsimp only at hbody
          split at hbody
          · cases hbody
            exact Moves.take Nat.one_pos hone rfl rfl
          split at hbody
          · cases hent : r.entref r.encoding with
            | error e => rw [hent] at hbody; cases hbody
            | ok x =>
              obtain ⟨b', encoding, q⟩ := x
              rw [hent] at hbody
              cases b' with
              | true => cases hbody
              | false =>
                rcases entref_cases hent with ⟨rfl, rfl, -⟩ | ⟨hfalse, -⟩
                · cases hbody
                  exact Moves.refl _
                · cases hfalse
          · cases happ : r.append r.encoding MAX_VALUE_SIZE c with
            | error e => rw [happ] at hbody; cases hbody
            | ok encoding => rw [happ] at hbody; cases hbody

theorem transition_moves (h : transition opts r = some (.ok r')) : Moves r r' := by
  unfold transition at h
  split at h
  · next hstate =>
    obtain ⟨x, hx, hfirst⟩ := Option.map_eq_some_iff.mp h
    rw [firstOf] at hfirst
    cases x with
    | error e => cases hfirst
    | ok y =>
      obtain ⟨b, q⟩ := y
      have hmove := declEncodingValue_moves hx
      cases b with
      | true =>
        cases hfirst
        exact hmove
      | false =>
        refine hmove.trans (firstOf_moves (sound_actions ?_) hfirst)
        intro hend
        rw [hend] at hstate
        cases hstate
  · exact firstOf_actions_moves (Option.some.inj h)

theorem flush_spec {oldState : ParseState} (h : flush opts oldState r = .ok r') :
    r'.buf = r.buf ∧ r'.pos = r.pos ∧ r'.state = r.state ∧
      (r.state = oldState → r' = r) := by
  unfold flush at h
  split at h
  · next hne =>
    split at h
    · cases h
    · cases h
      exact ⟨rfl, rfl, rfl, fun heq => absurd heq hne.2.1⟩
  · cases h
    exact ⟨rfl, rfl, rfl, fun _ => rfl⟩

/-! ## The loop of `process` -/

/-- The loop of `declEncodingValue` never ends in this state. -/
def Spins (opts : Options) (r : SimpleXMLReader) : Prop :=
  inEncodingValue r.state = true ∧ ∃ q, Loop.Steps (declEncodingBody opts) r q ∧ CutReference q

/-- What is left to do: twice the bytes, since an end tag may take a second round. -/
def work (r : SimpleXMLReader) : Nat :=
  2 * r.bufSize + if r.state = .elementEnd then 1 else 0

theorem transition_eq_none_iff : transition opts r = none ↔ Spins opts r := by
  unfold transition Spins
  split
  · next hstate => simp [hstate, declEncodingValue_eq_none_iff]
  · next hstate => simp [hstate]

theorem inEncodingValue_ne_end (h : inEncodingValue r.state = true) : r.state ≠ .end := by
  intro hend
  rw [hend] at h
  cases h

theorem processBody_eq_none_iff : processBody opts r = none ↔ Spins opts r := by
  unfold processBody
  constructor
  · intro h
    split at h
    · cases h
    · rw [← transition_eq_none_iff]
      cases ht : transition opts r with
      | none => rfl
      | some x =>
        rw [ht] at h
        cases x with
        | error e => cases h
        | ok q =>
          dsimp only at h
          split at h
          · cases h
          · cases hf : flush opts r.state q with
            | error e => rw [hf] at h; cases h
            | ok p => rw [hf] at h; cases h
  · intro h
    rw [if_neg (inEncodingValue_ne_end h.1), transition_eq_none_iff.mpr h]

/-- A round that goes on: the functions of the state, then the data callback. -/
theorem processBody_next (h : Loop.Next (processBody opts) r r') :
    ∃ q, transition opts r = some (.ok q) ∧ ¬ (q.state = r.state ∧ q.pos = r.pos) ∧
      flush opts r.state q = .ok r' := by
  unfold Loop.Next processBody at h
  split at h
  · cases h
  cases ht : transition opts r with
  | none => rw [ht] at h; cases h
  | some x =>
    rw [ht] at h
    cases x with
    | error e => cases h
    | ok q =>
      dsimp only at h
      split at h
      · cases h
      · next hprogress =>
        cases hf : flush opts r.state q with
        | error e => rw [hf] at h; cases h
        | ok p =>
          rw [hf] at h
          cases h
          exact ⟨q, rfl, hprogress, hf⟩

/-- **A round of `process` that goes on leaves less to do.** -/
theorem processBody_decreases (h : Loop.Next (processBody opts) r r') : r'.work < r.work := by
  obtain ⟨q, ht, hprogress, hf⟩ := processBody_next h
  obtain ⟨hbuf, -, hstate, -⟩ := flush_spec hf
  have hmove := transition_moves ht
  have hsize := hmove.bufSize_add_pos
  have hle := hmove.pos_le
  have hwork : r'.work = q.work := by
    unfold work bufSize
    rw [hbuf, hstate]
  rw [hwork]
  unfold work
  by_cases hpos : q.pos = r.pos
  · rcases hmove.still hpos with rfl | ⟨hr, hq⟩
    · exact absurd ⟨rfl, rfl⟩ hprogress
    · rw [if_pos hr, hq, if_neg (by decide)]
      omega
  · split <;> split <;> omega

theorem spins_not_halts (h : Spins opts r) : ¬ Loop.Halts (processBody opts) r :=
  Loop.not_halts_of_none (processBody_eq_none_iff.mpr h)

/-- The bound in `process` is only there to compute, too. -/
theorem process_eq_some_iff {x : Result (Bool × SimpleXMLReader)} :
    process opts r = some x ↔ Loop.Returns (processBody opts) r x := by
  refine Loop.run_eq_some_iff work (Spins opts) (fun _ h hn => h (processBody_eq_none_iff.mp hn))
    (fun _ _ _ hnext => processBody_decreases hnext) (fun _ h => spins_not_halts h) ?_
  unfold work
  split <;> omega

/-- A declaration with an ampersand in the value of the encoding. -/
def cutDeclaration : Str := str "<?xml version=\"1.0\" encoding=\"&\"?>"

/-- Options for a C library that knows ASCII only. -/
def asciiOptions : Options :=
  { locale :=
      { towlower := fun c => if 65 ≤ c ∧ c ≤ 90 then c + 32 else c
        convert := fun s _ => s } }

/-- The reader does not come back from `cutDeclaration`, its first and only piece of data. -/
theorem not_halts_cutDeclaration :
    ¬ Loop.Halts (processBody asciiOptions) (push {} cutDeclaration) := by
  intro h
  obtain ⟨x, hx⟩ := h
  have hsome := process_eq_some_iff.mpr hx
  have hnone : process asciiOptions (push {} cutDeclaration) = none := by rfl
  rw [hnone] at hsome
  cases hsome

/-- **`process` ends unless a step reads the value of the encoding and comes to an ampersand with
    at most six bytes buffered.** `entref` waits for more of the reference there, and the loop
    that called it does not. -/
theorem process_halts_iff (opts : Options) (r : SimpleXMLReader) :
    Loop.Halts (processBody opts) r ↔
      ∀ q, Loop.Steps (processBody opts) r q → ¬ Spins opts q := by
  have h := Loop.halts_iff (s := r) work (Spins opts)
    (fun _ h hn => h (processBody_eq_none_iff.mp hn))
    (fun _ _ _ hnext => processBody_decreases hnext) (fun _ h => spins_not_halts h)
  rw [h]
  constructor
  · intro hno q hq hspin
    exact hno ⟨q, hq, hspin⟩
  · intro hall hex
    obtain ⟨q, hq, hspin⟩ := hex
    exact hall q hq hspin

end SimpleXMLReader
end Airdcpp
