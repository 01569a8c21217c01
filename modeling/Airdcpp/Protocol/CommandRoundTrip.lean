import Airdcpp.Protocol.AdcCommand

/-!
# `Protocol/CommandRoundTrip` — what a written command reads back as

The line of a command is its header bytes and then its tokens, each behind a space. A token is
written as bytes that the loop of `parse` turns into the token again without leaving the token
(`Encodes`): the SIDs and the features as they are, a parameter through `escape`. So the loop
adds the tokens one by one, and only the last can be lost, when it is empty.
-/

namespace Airdcpp
namespace AdcCommand

/-! ## `escape`, byte by byte -/

/-- What becomes of a byte in `escape`. -/
def escaped (old : Bool) (c : UInt8) : Str :=
  if c == SPACE || c == NEWLINE || c == BACKSLASH then escapeChar old c else [c]

theorem findSpecial_append (pre s : Str) :
    findSpecial (pre ++ s) pre.length =
      (s.findIdx? fun c => c == SPACE || c == NEWLINE || c == BACKSLASH).map (pre.length + ·) := by
  rw [findSpecial, List.drop_left]

theorem escapeFrom_none {old : Bool} {tmp : Str} {i : Nat} (h : findSpecial tmp i = none) :
    escapeFrom old tmp i = tmp := by
  rw [escapeFrom]
  split
  · rfl
  · next hsome => rw [h] at hsome; cases hsome

theorem escapeFrom_some {old : Bool} {tmp : Str} {i j : Nat} (h : findSpecial tmp i = some j) :
    escapeFrom old tmp i =
      escapeFrom old (tmp.take j ++ escapeChar old (tmp.getD j 0) ++ tmp.drop (j + 1)) (j + 2) := by
  rw [escapeFrom]
  split
  · next hnone => rw [h] at hnone; cases hnone
  · next k hsome =>
    rw [h, Option.some.injEq] at hsome
    subst hsome
    rfl

/-- A byte that is not searched for is passed over. -/
theorem escapeFrom_pass {old : Bool} {c : UInt8} (pre s : Str)
    (hc : (c == SPACE || c == NEWLINE || c == BACKSLASH) = false) :
    escapeFrom old (pre ++ c :: s) pre.length =
      escapeFrom old (pre ++ c :: s) (pre.length + 1) := by
  have hfind : findSpecial (pre ++ c :: s) pre.length =
      findSpecial (pre ++ c :: s) (pre.length + 1) := by
    have hright := findSpecial_append (pre ++ [c]) s
    rw [List.append_assoc, List.length_append] at hright
    simp only [List.singleton_append, List.length_singleton] at hright
    rw [findSpecial_append, List.findIdx?_cons, hc, if_neg Bool.false_ne_true, Option.map_map,
      hright]
    congr 1
    funext k
    simp only [Function.comp_apply]
    omega
  cases hr : findSpecial (pre ++ c :: s) (pre.length + 1) with
  | none => rw [escapeFrom_none hr, escapeFrom_none (hfind.trans hr)]
  | some j => rw [escapeFrom_some hr, escapeFrom_some (hfind.trans hr)]

/-- A byte that is searched for is replaced, and the search goes on behind the two new bytes. -/
theorem escapeFrom_replace {old : Bool} {c : UInt8} (pre s : Str)
    (hc : (c == SPACE || c == NEWLINE || c == BACKSLASH) = true) :
    escapeFrom old (pre ++ c :: s) pre.length =
      escapeFrom old (pre ++ escapeChar old c ++ s) (pre ++ escapeChar old c).length := by
  have hfind : findSpecial (pre ++ c :: s) pre.length = some pre.length := by
    rw [findSpecial_append, List.findIdx?_cons, hc]
    rfl
  rw [escapeFrom_some hfind, List.take_left, List.length_append, length_escapeChar]
  simp

theorem escapeFrom_eq_flatMap (old : Bool) (pre s : Str) :
    escapeFrom old (pre ++ s) pre.length = pre ++ s.flatMap (escaped old) := by
  induction s generalizing pre with
  | nil =>
    rw [escapeFrom_none]
    · rfl
    · rw [findSpecial_append]
      rfl
  | cons c s ih =>
    cases hc : (c == SPACE || c == NEWLINE || c == BACKSLASH) with
    | true =>
      rw [escapeFrom_replace pre s hc, ih, List.flatMap_cons, escaped, if_pos hc,
        List.append_assoc]
    | false =>
      have hpass := ih (pre ++ [c])
      rw [List.append_assoc, List.length_append] at hpass
      rw [escapeFrom_pass pre s hc, List.flatMap_cons, escaped, hc]
      exact hpass.trans (List.append_assoc _ _ _)

/-- The loop of `escape` edits in place what a map over the bytes gives. -/
theorem escape_eq_flatMap (s : Str) (old : Bool) : escape s old = s.flatMap (escaped old) :=
  escapeFrom_eq_flatMap old [] s

/-! ## Tokens on the wire -/

/-- The loop of `parse` reads `wire` as the bytes `t` of one token. -/
def Encodes (wire t : Str) : Prop :=
  ∀ rest cur p, parseLoop false (wire ++ rest) cur p = parseLoop false rest (cur ++ t) p

/-- Free of the bytes that mean something to `parse`. -/
def Plain (t : Str) : Prop := ∀ c ∈ t, c ≠ SPACE ∧ c ≠ BACKSLASH

instance plainDecidable (t : Str) : Decidable (Plain t) :=
  inferInstanceAs (Decidable (∀ c ∈ t, c ≠ SPACE ∧ c ≠ BACKSLASH))

theorem parseLoop_byte {nmdc : Bool} {c : UInt8} {buf cur : Str} {p : Parser} (hs : c ≠ SPACE)
    (hb : c ≠ BACKSLASH) :
    parseLoop nmdc (c :: buf) cur p = parseLoop nmdc buf (cur ++ [c]) p := by
  rw [parseLoop.eq_def]
  simp [hs, hb]

theorem parseLoop_space {nmdc : Bool} {buf cur : Str} {p q : Parser}
    (h : p.addToken cur = .ok q) :
    parseLoop nmdc (SPACE :: buf) cur p = parseLoop nmdc buf [] q := by
  have hb : SPACE ≠ BACKSLASH := by decide
  rw [parseLoop.eq_def]
  simp [hb, h]

theorem parseLoop_space_error {nmdc : Bool} {buf cur : Str} {p : Parser} {e : Exception}
    (h : p.addToken cur = .error e) : parseLoop nmdc (SPACE :: buf) cur p = .error e := by
  have hb : SPACE ≠ BACKSLASH := by decide
  rw [parseLoop.eq_def]
  simp [hb, h]

theorem Encodes.nil : Encodes [] [] := fun _ cur _ => by rw [List.append_nil]; rfl

theorem Encodes.append {w w' t t' : Str} (h : Encodes w t) (h' : Encodes w' t') :
    Encodes (w ++ w') (t ++ t') := by
  intro rest cur p
  rw [List.append_assoc, h, h', List.append_assoc]

theorem Encodes.byte {c : UInt8} (hs : c ≠ SPACE) (hb : c ≠ BACKSLASH) : Encodes [c] [c] := by
  intro rest cur p
  exact parseLoop_byte hs hb

theorem Encodes.escape {e x : UInt8} (h : unescape false e = some x) :
    Encodes [BACKSLASH, e] [x] := by
  intro rest cur p
  simp only [List.cons_append, List.nil_append]
  rw [parseLoop.eq_def]
  simp [h]

theorem Encodes.plain {t : Str} (h : Plain t) : Encodes t t := by
  induction t with
  | nil => exact Encodes.nil
  | cons c t ih =>
    obtain ⟨hs, hb⟩ := h c (List.mem_cons_self ..)
    exact (Encodes.byte hs hb).append (ih fun d hd => h d (List.mem_cons_of_mem c hd))

theorem encodes_escaped (c : UInt8) : Encodes (escaped false c) [c] := by
  unfold escaped escapeChar
  by_cases hs : c = SPACE
  · subst hs
    exact Encodes.escape rfl
  by_cases hn : c = NEWLINE
  · subst hn
    exact Encodes.escape rfl
  by_cases hb : c = BACKSLASH
  · subst hb
    exact Encodes.escape rfl
  rw [if_neg (by simp [hs, hn, hb])]
  exact Encodes.byte hs hb

/-- Whatever bytes a parameter has, its escaped form is read back as one token. -/
theorem encodes_escape (s : Str) : Encodes (AdcCommand.escape s false) s := by
  rw [escape_eq_flatMap]
  induction s with
  | nil => exact Encodes.nil
  | cons c s ih => exact (encodes_escaped c).append ih

/-! ## The tokens of a line -/

/-- What the loop does with the tokens of a line: it adds one after the other, and an empty one
    at the end of the line is not added. -/
def addTokens : List Str → Parser → Except Exception Parser
  | [], p => .ok p
  | [t], p => if t.isEmpty then .ok p else p.addToken t
  | t :: u :: ts, p =>
    match p.addToken t with
    | .ok p => addTokens (u :: ts) p
    | .error e => .error e

theorem addTokens_cons {t : Str} {ts : List Str} {p q : Parser} (hne : ts ≠ [] ∨ t ≠ [])
    (h : p.addToken t = .ok q) : addTokens (t :: ts) p = addTokens ts q := by
  cases ts with
  | nil =>
    have ht : t ≠ [] := by simpa using hne
    simpa [addTokens, ht] using h
  | cons u ts => simp only [addTokens, h]

/-- Spaces separate the tokens of `wire`, and nothing in a token does. -/
theorem parseLoop_wire {wire : List (Str × Str)} (h : ∀ w ∈ wire, Encodes w.1 w.2) (cur : Str)
    (p : Parser) :
    parseLoop false (wire.flatMap fun w => SPACE :: w.1) cur p =
      addTokens (cur :: wire.map Prod.snd) p := by
  induction wire generalizing cur p with
  | nil => rfl
  | cons w wire ih =>
    rw [List.flatMap_cons, List.map_cons, List.cons_append]
    cases hadd : p.addToken cur with
    | error e =>
      rw [parseLoop_space_error hadd]
      simp only [addTokens, hadd]
    | ok q =>
      have hw := h w (List.mem_cons_self ..)
      rw [parseLoop_space hadd, hw, List.nil_append,
        ih (fun v hv => h v (List.mem_cons_of_mem w hv))]
      simp only [addTokens, hadd]

/-- A line whose first token begins at its second byte. -/
theorem parseLoop_line {wire : List (Str × Str)} (h : ∀ w ∈ wire, Encodes w.1 w.2) (p : Parser) :
    parseLoop false ((wire.flatMap fun w => SPACE :: w.1).drop 1) [] p =
      addTokens (wire.map Prod.snd) p := by
  cases wire with
  | nil => rfl
  | cons w wire =>
    have hw := h w (List.mem_cons_self ..)
    rw [List.flatMap_cons, List.map_cons, List.cons_append, List.drop_one, List.tail_cons, hw]
    exact parseLoop_wire (fun v hv => h v (List.mem_cons_of_mem w hv)) _ p

/-! ## The slots of the header -/

namespace Parser

/-- Every slot of the header that the type asks for is filled. -/
structure Filled (p : Parser) : Prop where
  «from» : hasFrom p.command.type = true → p.fromSet = true
  «to» : hasTo p.command.type = true → p.toSet = true
  feature : p.command.type = TYPE_FEATURE → p.featureSet = true

/-- `p` with more parameters. -/
def withParams (p : Parser) (params : List Str) : Parser :=
  { p with command := { p.command with parameters := p.command.parameters ++ params } }

@[simp] theorem withParams_nil (p : Parser) : p.withParams [] = p := by
  rw [withParams, List.append_nil]

@[simp] theorem withParams_withParams (p : Parser) (ps qs : List Str) :
    (p.withParams ps).withParams qs = p.withParams (ps ++ qs) := by
  simp [withParams]

theorem Filled.withParams {p : Parser} (h : p.Filled) (ps : List Str) :
    (p.withParams ps).Filled := ⟨h.from, h.to, h.feature⟩

theorem Filled.addToken {p : Parser} (h : p.Filled) (t : Str) :
    p.addToken t = .ok (p.withParams [t]) := by
  obtain ⟨hfrom, hto, hfeature⟩ := h
  unfold Parser.addToken
  rw [if_neg, if_neg, if_neg]
  · rfl
  · simpa using hfeature
  · simpa using hto
  · simpa using hfrom

theorem Filled.finish {p : Parser} (h : p.Filled) : p.finish = .ok p.command := by
  obtain ⟨hfrom, hto, hfeature⟩ := h
  unfold Parser.finish
  rw [if_neg, if_neg, if_neg]
  · simpa using hto
  · simpa using hfeature
  · simpa using hfrom

end Parser

/-- The parameters without the last one, if that is empty. -/
def dropEmptyEnd (params : List Str) : List Str :=
  if params.getLast? = some [] then params.dropLast else params

theorem dropEmptyEnd_cons_cons (t u : Str) (ts : List Str) :
    dropEmptyEnd (t :: u :: ts) = t :: dropEmptyEnd (u :: ts) := by
  unfold dropEmptyEnd
  rw [List.getLast?_cons_cons]
  split
  · rfl
  · rfl

/-- Behind the header every token is a parameter. -/
theorem addTokens_parameters {p : Parser} (h : p.Filled) (ts : List Str) :
    addTokens ts p = .ok (p.withParams (dropEmptyEnd ts)) := by
  induction ts generalizing p with
  | nil => simp [addTokens, dropEmptyEnd]
  | cons t ts ih =>
    cases ts with
    | nil =>
      cases t with
      | nil => simp [addTokens, dropEmptyEnd]
      | cons c t => simp [addTokens, dropEmptyEnd, h.addToken]
    | cons u ts =>
      rw [addTokens_cons (Or.inl (List.cons_ne_nil u ts)) (h.addToken t), ih (h.withParams [t]),
        Parser.withParams_withParams, dropEmptyEnd_cons_cons]
      rfl

@[simp] theorem toSID_fromSID (sid : SID) : toSID (fromSID sid) = sid := by
  apply UInt32.toNat_inj.mp
  have hlt := sid.toNat_lt
  simp only [toSID, fromSID, List.getD_cons_zero, List.getD_cons_succ, UInt32.toNat_ofNat',
    UInt32.toNat_toUInt8, UInt32.toNat_shiftRight, Nat.shiftRight_eq_div_pow, UInt32.toNat_ofNat,
    Nat.reducePow, Nat.reduceMod]
  omega

@[simp] theorem length_fromSID (sid : SID) : (fromSID sid).length = 4 := rfl

theorem fromSID_ne_nil (sid : SID) : fromSID sid ≠ [] := List.cons_ne_nil _ _

section Slots

variable {c : AdcCommand} {sid : SID}

/-- The command that `parse` has when the header of the line of `c` is read. -/
def readHeader (c : AdcCommand) (sid : SID) : AdcCommand :=
  let h := header c.type c.cmd0 c.cmd1 c.cmd2
  { h with
    «from» := if hasFrom c.type then sid else h.from
    «to» := if hasTo c.type then c.to else h.to }

/-- The state of `parse` behind the header. -/
def Parser.behindHeader (c : AdcCommand) (sid : SID) : Parser :=
  { command := readHeader c sid, fromSet := hasFrom c.type, toSet := hasTo c.type,
    featureSet := c.type == TYPE_FEATURE }

theorem Parser.behindHeader_filled : (behindHeader c sid).Filled :=
  ⟨id, id, fun h => beq_iff_eq.mpr h⟩

/-- The tokens of the header, as the writer writes them: none of them is escaped. -/
def headerTokens (c : AdcCommand) (sid : SID) : List Str :=
  (if hasFrom c.type then [fromSID sid] else []) ++ (if hasTo c.type then [fromSID c.to] else []) ++
    (if c.type == TYPE_FEATURE then [c.features] else [])

/-- A token of the header that is there only if the type has the slot `b`. -/
theorem addTokens_slot {b : Bool} {t : Str} {p q : Parser} (ts : List Str)
    (hne : b = true → t ≠ []) (hadd : b = true → p.addToken t = .ok q) (hskip : b = false → q = p) :
    addTokens ((if b then [t] else []) ++ ts) p = addTokens ts q := by
  cases b with
  | true => exact addTokens_cons (Or.inr (hne rfl)) (hadd rfl)
  | false => rw [hskip rfl]; rfl

/-- The header's tokens fill its slots, in their order. -/
theorem addTokens_header (hlen : c.type = TYPE_FEATURE → c.features.length % 5 = 0)
    (hne : c.type = TYPE_FEATURE → c.features ≠ []) (ts : List Str) :
    addTokens (headerTokens c sid ++ ts)
        { command := header c.type c.cmd0 c.cmd1 c.cmd2, fromSet := false } =
      addTokens ts (Parser.behindHeader c sid) := by
  let h := header c.type c.cmd0 c.cmd1 c.cmd2
  let p1 : Parser :=
    { command := { h with «from» := if hasFrom c.type then sid else h.from }
      fromSet := hasFrom c.type }
  let p2 : Parser := { p1 with command := readHeader c sid, toSet := hasTo c.type }
  have hfrom : ∀ rest, addTokens ((if hasFrom c.type then [fromSID sid] else []) ++ rest)
      { command := h, fromSet := false } = addTokens rest p1 := by
    intro rest
    apply addTokens_slot
    · exact fun _ => fromSID_ne_nil sid
    · intro hb
      simp [Parser.addToken, p1, h, header, hb]
    · intro hb
      simp [p1, hb]
  have hto : ∀ rest, addTokens ((if hasTo c.type then [fromSID c.to] else []) ++ rest) p1 =
      addTokens rest p2 := by
    intro rest
    apply addTokens_slot
    · exact fun _ => fromSID_ne_nil c.to
    · intro hb
      simp [Parser.addToken, p1, p2, h, header, readHeader, hb]
    · intro hb
      simp [p1, p2, h, header, readHeader, hb]
  have hfeature : ∀ rest,
      addTokens ((if c.type == TYPE_FEATURE then [c.features] else []) ++ rest) p2 =
        addTokens rest (Parser.behindHeader c sid) := by
    intro rest
    apply addTokens_slot
    · exact fun hb => hne (beq_iff_eq.mp hb)
    · intro hb
      have hb' := beq_iff_eq.mp hb
      simp [Parser.addToken, p1, p2, readHeader, header, Parser.behindHeader, hb', hlen hb']
    · intro hb
      simp [p1, p2, Parser.behindHeader, hb]
  rw [headerTokens, List.append_assoc, List.append_assoc, hfrom, hto, hfeature]

end Slots

/-! ## The line -/

/-- The tokens of the line of `c`, each with the bytes it is written as. -/
def wireTokens (c : AdcCommand) (sid : SID) : List (Str × Str) :=
  (headerTokens c sid).map (fun t => (t, t)) ++
    c.parameters.map fun t => (AdcCommand.escape t false, t)

theorem wireTokens_snd (c : AdcCommand) (sid : SID) :
    (wireTokens c sid).map Prod.snd = headerTokens c sid ++ c.parameters := by
  simp [wireTokens, Function.comp_def]

/-- The line without its newline: the type, the name, and a space in front of every token. -/
theorem toString_eq_wire (c : AdcCommand) (sid : SID) :
    c.toString sid false =
      c.type :: c.cmdChar ++ ((wireTokens c sid).flatMap fun w => SPACE :: w.1) ++ [NEWLINE] := by
  unfold toString getHeaderString getParamString wireTokens headerTokens
  cases hasFrom c.type <;> cases hasTo c.type <;> cases c.type == TYPE_FEATURE <;>
    simp [List.flatMap_map]

theorem cmdChar_of_ne_zero {c : AdcCommand} (h0 : c.cmd0 ≠ 0) (h1 : c.cmd1 ≠ 0) (h2 : c.cmd2 ≠ 0) :
    c.cmdChar = [c.cmd0, c.cmd1, c.cmd2] := by
  simp [cmdChar, h0, h1, h2]

/-- One `+XXXX` or `-XXXX` of a feature string. -/
def FeatureItem (i : Str) : Prop :=
  ∃ sign name, i = sign :: name ∧ (sign = chr '+' ∨ sign = chr '-') ∧ name.length = 4 ∧ Plain name

/-- A feature string: at least one item. -/
def FeatureString (s : Str) : Prop :=
  ∃ items : List Str, items ≠ [] ∧ (∀ i ∈ items, FeatureItem i) ∧ s = items.flatten

theorem FeatureItem.length {i : Str} (h : FeatureItem i) : i.length = 5 := by
  obtain ⟨sign, name, rfl, -, hlen, -⟩ := h
  rw [List.length_cons, hlen]

theorem FeatureItem.plain {i : Str} (h : FeatureItem i) : Plain i := by
  obtain ⟨sign, name, rfl, hsign, -, hplain⟩ := h
  intro d hd
  cases List.mem_cons.mp hd with
  | inl heq =>
    subst heq
    cases hsign with
    | inl h => subst h; decide
    | inr h => subst h; decide
  | inr hmem => exact hplain d hmem

theorem FeatureString.ne_nil {s : Str} (h : FeatureString s) : s ≠ [] := by
  obtain ⟨items, hne, hitems, rfl⟩ := h
  obtain ⟨i, hi⟩ := List.exists_mem_of_ne_nil items hne
  intro hnil
  have hlen := (hitems i hi).length
  rw [List.flatten_eq_nil_iff.mp hnil i hi] at hlen
  cases hlen

theorem FeatureString.length_mod {s : Str} (h : FeatureString s) : s.length % 5 = 0 := by
  obtain ⟨items, -, hitems, rfl⟩ := h
  induction items with
  | nil => rfl
  | cons i items ih =>
    have hi := (hitems i (List.mem_cons_self ..)).length
    have htail := ih fun j hj => hitems j (List.mem_cons_of_mem i hj)
    rw [List.flatten_cons, List.length_append, hi]
    omega

theorem FeatureString.plain {s : Str} (h : FeatureString s) : Plain s := by
  obtain ⟨items, -, hitems, rfl⟩ := h
  intro d hd
  obtain ⟨i, hi, hdi⟩ := List.mem_flatten.mp hd
  exact (hitems i hi).plain d hdi

/-- What the header of `c` must be for the line to be readable: SIDs and features without the
    bytes that are special to `parse`. -/
structure Writable (c : AdcCommand) (sid : SID) : Prop where
  valid : isValidType c.type = true
  «from» : hasFrom c.type = true → Plain (fromSID sid)
  «to» : hasTo c.type = true → Plain (fromSID c.to)
  features : c.type = TYPE_FEATURE → FeatureString c.features

/-- The line reads back as the type, the name, the sender and the target (for the types whose
    header has them) and the parameters of `c`, less one empty parameter at the end. -/
def RoundTrips (c : AdcCommand) (sid : SID) : Prop :=
  parse (c.toString sid false).dropLast false =
    .ok { type := c.type, cmd0 := c.cmd0, cmd1 := c.cmd1, cmd2 := c.cmd2
          «from» := if hasFrom c.type then sid else if c.type == TYPE_INFO then HUB_SID else 0
          «to» := if hasTo c.type then c.to else 0
          parameters := dropEmptyEnd c.parameters }

theorem Writable.headerTokens_plain {c : AdcCommand} {sid : SID} (h : Writable c sid) :
    ∀ t ∈ headerTokens c sid, Plain t := by
  intro t ht
  rw [headerTokens, List.mem_append, List.mem_append] at ht
  rcases ht with (ht | ht) | ht
  · split at ht
    · next hb => exact List.mem_singleton.mp ht ▸ h.from hb
    · cases ht
  · split at ht
    · next hb => exact List.mem_singleton.mp ht ▸ h.to hb
    · cases ht
  · split at ht
    · next hb => exact List.mem_singleton.mp ht ▸ (h.features (beq_iff_eq.mp hb)).plain
    · cases ht

theorem Writable.encodes {c : AdcCommand} {sid : SID} (h : Writable c sid) :
    ∀ w ∈ wireTokens c sid, Encodes w.1 w.2 := by
  intro w hw
  cases List.mem_append.mp hw with
  | inl hw =>
    obtain ⟨t, ht, rfl⟩ := List.mem_map.mp hw
    exact Encodes.plain (h.headerTokens_plain t ht)
  | inr hw =>
    obtain ⟨t, -, rfl⟩ := List.mem_map.mp hw
    exact encodes_escape t

/-- **A command is read back from its line**, for every list of parameters whatever bytes they
    have, if its name is three bytes that a C string can hold. -/
theorem roundTrips_of_name {c : AdcCommand} {sid : SID} (h : Writable c sid) (h0 : c.cmd0 ≠ 0)
    (h1 : c.cmd1 ≠ 0) (h2 : c.cmd2 ≠ 0) : RoundTrips c sid := by
  have hline : (c.toString sid false).dropLast =
      c.type :: c.cmd0 :: c.cmd1 :: c.cmd2 ::
        (wireTokens c sid).flatMap fun w => SPACE :: w.1 := by
    rw [toString_eq_wire, List.dropLast_concat, cmdChar_of_ne_zero h0 h1 h2]
    rfl
  have hparse := parseLoop_line h.encodes
    { command := header c.type c.cmd0 c.cmd1 c.cmd2, fromSet := false }
  have hfilled : (Parser.behindHeader c sid).Filled := Parser.behindHeader_filled
  rw [wireTokens_snd, addTokens_header (fun hf => (h.features hf).length_mod)
    (fun hf => (h.features hf).ne_nil), addTokens_parameters hfilled] at hparse
  unfold RoundTrips parse
  rw [hline, if_neg (by simp)]
  simp only [Bool.false_eq_true, if_false, List.getD_cons_zero, List.getD_cons_succ, h.valid,
    Bool.not_true, List.drop_succ_cons]
  rw [hparse]
  simp only [(hfilled.withParams _).finish]
  simp [Parser.withParams, Parser.behindHeader, readHeader, header]

/-- A search to the clients with two features, whose last parameters are nothing but bytes that
    have to be escaped, and nothing at all. -/
def searchCommand : AdcCommand :=
  { type := TYPE_FEATURE, cmd0 := chr 'S', cmd1 := chr 'C', cmd2 := chr 'H'
    features := str "+TCP4-NAT0", parameters := [str "ANa b", str " \n\\", [], []] }

/-- The search is `Writable` for the SID `ABCD`, so its line reads back, with one of the two
    empty parameters. -/
theorem roundTrips_searchCommand :
    Writable searchCommand (toSID (str "ABCD")) ∧
      RoundTrips searchCommand (toSID (str "ABCD")) ∧
      dropEmptyEnd searchCommand.parameters = [str "ANa b", str " \n\\", []] := by
  have hw : Writable searchCommand (toSID (str "ABCD")) :=
    ⟨by decide +kernel, fun _ => by decide +kernel, fun h => absurd h (by decide +kernel), fun _ =>
      ⟨[str "+TCP4", str "-NAT0"], by decide +kernel, fun i hi => by
        rcases List.mem_cons.mp hi with rfl | hi
        · exact ⟨chr '+', str "TCP4", rfl, Or.inl rfl, rfl, by decide +kernel⟩
        · rw [List.mem_singleton.mp hi]
          exact ⟨chr '-', str "NAT0", rfl, Or.inr rfl, rfl, by decide +kernel⟩, by decide +kernel⟩⟩
  exact ⟨hw, roundTrips_of_name hw (by decide +kernel) (by decide +kernel) (by decide +kernel),
    by decide +kernel⟩

/-- A name with a null byte, as `parse` itself takes it from a line. -/
def nullName : AdcCommand :=
  { type := TYPE_HUB, cmd0 := chr 'A', cmd1 := 0, cmd2 := chr 'B', parameters := [str "xyz"] }

/-- A feature whose name has a space in it. -/
def spacedFeature : AdcCommand :=
  { type := TYPE_FEATURE, cmd0 := chr 'S', cmd1 := chr 'C', cmd2 := chr 'H'
    features := str "+A BC" }

/-- The line of `nullName` is `HA xyz`: it reads back as the command `A x` with the parameter
    `z`. And the space of the feature ends its token. -/
theorem not_roundTrips_nullName :
    parse (str "HA\x00B xyz") false = .ok nullName ∧ Writable nullName 0 ∧
      ¬ RoundTrips nullName 0 ∧ ¬ RoundTrips spacedFeature (toSID (str "ABCD")) := by
  have hname : (nullName.toString 0 false).dropLast = str "HA xyz" := by
    rw [toString, getParamString]
    simp only [escape_eq_flatMap]
    decide +kernel
  have hfeature : (spacedFeature.toString (toSID (str "ABCD")) false).dropLast =
      str "FSCH ABCD +A BC" := by
    rw [toString, getParamString]
    simp only [escape_eq_flatMap]
    decide +kernel
  refine ⟨by decide +kernel, ⟨by decide +kernel, fun h => absurd h (by decide +kernel),
    fun h => absurd h (by decide +kernel),
    fun h => absurd h (by decide +kernel)⟩, ?_, ?_⟩
  · rw [RoundTrips, hname]
    decide +kernel
  · rw [RoundTrips, hfeature]
    decide +kernel

end AdcCommand
end Airdcpp
