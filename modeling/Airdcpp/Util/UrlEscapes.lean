import Airdcpp.Util.LinkUtil
import Airdcpp.Util.Splitting

/-!
# `Util/UrlEscapes` — escaping and unescaping of URLs

`encodeURI` edits the string in place: a byte is replaced by its escape, and the position goes on
behind three characters. The number of an escape is not padded, so the escape of a byte below 16 is
two characters long, and the character behind it is passed over. Both directions and the third
function, which the web server uses, are followed here as functions on the rest of the string
(`escape`, `unescape`, `unescapeWeb`).

All of them fit together for the strings without such bytes (`reversible_iff`), and the parts of a
query can then be found in it (`queryReversible_iff`).
-/

namespace Airdcpp

/-- `%X` of a byte -/
def hexDigit (n : Nat) : UInt8 := (if n < 10 then 48 + n else 55 + n).toUInt8

/-- `isxdigit` -/
def isXDigit (c : UInt8) : Bool := (Util.digit? 16 c).isSome

namespace Util

def toHexEscape (val : UInt8) : Str :=
  if val.toNat < 16 then [chr '%', hexDigit val.toNat]
  else [chr '%', hexDigit (val.toNat / 16), hexDigit (val.toNat % 16)]

def fromHexEscape (aString : Str) : UInt8 := (strtoul16 aString).toUInt8

end Util

namespace LinkUtil

open Util (toHexEscape fromHexEscape)

/-- The reserved characters, the delimiters and the unwise ones. -/
def disallowed : Str := str ";/?:@&=+$,<>#%\" \x7b\x7d|\\^[]\x60"

/-- What has to be escaped. A byte above 127 is a negative character or one above 126. -/
def isEscaped (c : UInt8) : Bool := c ≤ 0x1F || 0x7F ≤ c || disallowed.contains c

/-- The loop of `encodeURI`. -/
def encodeLoop : (fuel : Nat) → (tmp : Str) → (idx : Nat) → Str
  | 0, tmp, _ => tmp
  | fuel + 1, tmp, idx =>
    if idx < tmp.length then
      if tmp.getD idx 0 = chr ' ' then encodeLoop fuel (tmp.set idx (chr '+')) (idx + 1)
      else if isEscaped (tmp.getD idx 0) then
        encodeLoop fuel (tmp.take idx ++ toHexEscape (tmp.getD idx 0) ++ tmp.drop (idx + 1))
          (idx + 2 + 1)
      else encodeLoop fuel tmp (idx + 1)
    else tmp

/-- The loop of `encodeURI` in the other direction. -/
def decodeLoop : (fuel : Nat) → (tmp : Str) → (idx : Nat) → Str
  | 0, tmp, _ => tmp
  | fuel + 1, tmp, idx =>
    if idx < tmp.length then
      if idx + 2 < tmp.length ∧ tmp.getD idx 0 = chr '%' ∧ isXDigit (tmp.getD (idx + 1) 0) ∧
          isXDigit (tmp.getD (idx + 2) 0) then
        decodeLoop fuel
          (tmp.take idx ++ fromHexEscape ((tmp.drop (idx + 1)).take 2) :: tmp.drop (idx + 3))
            (idx + 1)
      else if tmp.getD idx 0 = chr '+' then decodeLoop fuel (tmp.set idx (chr ' ')) (idx + 1)
      else decodeLoop fuel tmp (idx + 1)
    else tmp

def encodeURI (aString : Str) (aReverse : Bool) : Str :=
  if aReverse then decodeLoop (aString.length + 1) aString 0 else encodeLoop
    (aString.length + 1) aString 0

/-- The loop of `decodeQuery`. Later values of a name replace earlier ones. -/
def decodeQueryLoop (query : Str) : (fuel : Nat) → (start : Nat) → (Str → Option Str) → Str →
    Option Str
  | 0, _, ret => ret
  | fuel + 1, start, ret =>
    if start < query.length then
      match find query [chr '='] start with
      | none => ret
      | some eq =>
        let param := eq + 1
        let end_ := (find query [chr '&'] param).getD query.length
        let ret :=
          if start < eq ∧ param < end_ then
            Function.update ret ((query.drop start).take (eq - start))
              (some ((query.drop param).take (end_ - param)))
          else ret
        decodeQueryLoop query fuel (end_ + 1) ret
    else ret

def decodeQuery (query : Str) : Str → Option Str :=
  decodeQueryLoop query (query.length + 1) 0 fun _ => none

end LinkUtil

namespace HttpUtil

/-- `is >> std::hex >> value` -/
def readHex (s : Str) : Option Int :=
  let rest := (Util.sign s).2
  match Util.skipHexPrefix rest with
  | c :: digits =>
    if isXDigit c then
      let v : Int := Util.digits 16 0 (c :: digits)
      some (if (Util.sign s).1 then -v else v)
    else none
  | [] => none

/-- The loop of `unescapeUrl`. -/
def unescapeLoop (in_ : Str) : (fuel i : Nat) → (out : Str) → Option Str
  | 0, _, out => some out
  | fuel + 1, i, out =>
    if i < in_.length then
      if in_.getD i 0 = chr '%' then
        if i + 3 ≤ in_.length then
          match readHex ((in_.drop (i + 1)).take 2) with
          | some value => unescapeLoop in_ fuel (i + 2 + 1) (out ++ [(value % 256).toNat.toUInt8])
          | none => none
        else none
      else if in_.getD i 0 = chr '+' then unescapeLoop in_ fuel (i + 1) (out ++ [chr ' '])
      else unescapeLoop in_ fuel (i + 1) (out ++ [in_.getD i 0])
    else some out

/-- `unescapeUrl`: the text if it succeeds. -/
def unescapeUrl (in_ : Str) : Option Str := unescapeLoop in_ (in_.length + 1) 0 []

end HttpUtil
namespace LinkUtil

open Util (toHexEscape fromHexEscape)
open HttpUtil (readHex unescapeLoop unescapeUrl)

/-! ## On the rest of the string -/

/-- `encodeURI`. Behind an escape of one digit, a character is passed over. -/
def escape : Str → Str
  | [] => []
  | c :: s =>
    if c = chr ' ' then chr '+' :: escape s
    else if isEscaped c then
      if c.toNat < 16 then
        toHexEscape c ++
          match s with
          | [] => []
          | y :: s => y :: escape s
      else toHexEscape c ++ escape s
    else c :: escape s

/-- `encodeURI` in the other direction. -/
def unescape : Str → Str
  | c :: x :: y :: s =>
    if c = chr '%' ∧ isXDigit x ∧ isXDigit y then fromHexEscape [x, y] :: unescape s
    else (if c = chr '+' then chr ' ' else c) :: unescape (x :: y :: s)
  | c :: s => (if c = chr '+' then chr ' ' else c) :: unescape s
  | [] => []

/-- `unescapeUrl` -/
def unescapeWeb : Str → Option Str
  | [] => some []
  | c :: s =>
    if c = chr '%' then
      match s with
      | x :: y :: s =>
        match readHex [x, y] with
        | some value => (unescapeWeb s).map ((value % 256).toNat.toUInt8 :: ·)
        | none => none
      | _ => none
    else (unescapeWeb s).map ((if c = chr '+' then chr ' ' else c) :: ·)

theorem encodeLoop_end {fuel idx : Nat} {tmp : Str} (h : tmp.length ≤ idx) :
    encodeLoop fuel tmp idx = tmp := by
  cases fuel with
  | zero => rfl
  | succ fuel => rw [encodeLoop, if_neg (by omega)]

theorem getD_append_length (pre : Str) (c : UInt8) (s : Str) :
    (pre ++ c :: s).getD pre.length 0 = c := by
  simp

theorem drop_append_length (pre : Str) (c : UInt8) (s : Str) :
    (pre ++ c :: s).drop (pre.length + 1) = s := by
  rw [← List.singleton_append, ← List.append_assoc]
  exact List.drop_left' (by simp)

/-- The escape of a byte. -/
theorem escape_cons (c : UInt8) (s : Str) :
    escape (c :: s) =
      if c = chr ' ' then chr '+' :: escape s
      else if isEscaped c then
        if c.toNat < 16 then
          toHexEscape c ++
            match s with
            | [] => []
            | y :: s => y :: escape s
        else toHexEscape c ++ escape s
      else c :: escape s :=
  escape.eq_def (c :: s)

theorem encodeLoop_eq {fuel : Nat} (pre : Str) {rest : Str} (hfuel : rest.length < fuel) :
    encodeLoop fuel (pre ++ rest) pre.length = pre ++ escape rest := by
  induction fuel generalizing pre rest with
  | zero => omega
  | succ fuel ih =>
    cases rest with
    | nil =>
      rw [encodeLoop_end (by simp)]
      rfl
    | cons c s =>
      rw [List.length_cons] at hfuel
      rw [encodeLoop, if_pos (by simp), getD_append_length, escape_cons]
      by_cases hspace : c = chr ' '
      · have hset : (pre ++ c :: s).set pre.length (chr '+') = (pre ++ [chr '+']) ++ s := by simp
        have hnext := @ih (pre ++ [chr '+']) s (by omega)
        rw [List.length_append, List.length_singleton] at hnext
        rw [if_pos hspace, if_pos hspace, hset, hnext, List.append_assoc, List.singleton_append]
      · rw [if_neg hspace, if_neg hspace]
        by_cases hescaped : isEscaped c
        · rw [if_pos hescaped, if_pos hescaped, List.take_left, drop_append_length]
          by_cases hlow : c.toNat < 16
          · rw [if_pos hlow]
            have hlength : (toHexEscape c).length = 2 := by simp [toHexEscape, hlow]
            cases s with
            | nil =>
              rw [encodeLoop_end (by simp [hlength])]
              simp
            | cons y s =>
              rw [List.length_cons] at hfuel
              have hnext := @ih (pre ++ toHexEscape c ++ [y]) s (by omega)
              rw [List.length_append, List.length_append, hlength, List.length_singleton] at hnext
              rw [← List.singleton_append, ← List.append_assoc, hnext]
              simp
          · rw [if_neg hlow]
            have hlength : (toHexEscape c).length = 3 := by simp [toHexEscape, hlow]
            have hnext := @ih (pre ++ toHexEscape c) s (by omega)
            rw [List.length_append, hlength] at hnext
            rw [hnext, List.append_assoc]
        · have hnext := @ih (pre ++ [c]) s (by omega)
          rw [List.length_append, List.length_singleton, List.append_assoc,
            List.singleton_append] at hnext
          rw [if_neg hescaped, if_neg hescaped, hnext, List.append_assoc, List.singleton_append]

theorem encodeURI_eq (x : Str) : encodeURI x false = escape x := by
  have h := encodeLoop_eq [] (Nat.lt_succ_self x.length)
  exact h

theorem unescape_of_hex {x y : UInt8} (s : Str) (hx : isXDigit x) (hy : isXDigit y) :
    unescape (chr '%' :: x :: y :: s) = fromHexEscape [x, y] :: unescape s := by
  rw [unescape, if_pos ⟨rfl, hx, hy⟩]

/-- A byte that does not begin an escape. -/
theorem unescape_of_not {c : UInt8} {s : Str}
    (h : ∀ x y t, s = x :: y :: t → ¬ (c = chr '%' ∧ isXDigit x ∧ isXDigit y)) :
    unescape (c :: s) = (if c = chr '+' then chr ' ' else c) :: unescape s := by
  match s with
  | [] => rfl
  | [_] => rfl
  | x :: y :: t => rw [unescape, if_neg (h x y t rfl)]

theorem decodeLoop_eq {fuel : Nat} (pre : Str) {rest : Str} (hfuel : rest.length < fuel) :
    decodeLoop fuel (pre ++ rest) pre.length = pre ++ unescape rest := by
  induction fuel generalizing pre rest with
  | zero => omega
  | succ fuel ih =>
    cases rest with
    | nil =>
      rw [decodeLoop, if_neg (by simp)]
      rfl
    | cons c s =>
      rw [List.length_cons] at hfuel
      rw [decodeLoop, if_pos (by simp), getD_append_length]
      have hget : ∀ k, (pre ++ c :: s).getD (pre.length + (k + 1)) 0 = s.getD k 0 := by
        intro k
        rw [List.getD_eq_getElem?_getD, List.getElem?_append_right (Nat.le_add_right _ _),
          Nat.add_sub_cancel_left, List.getElem?_cons_succ, List.getD_eq_getElem?_getD]
      have hkeep : ∀ d, decodeLoop fuel ((pre ++ c :: s).set pre.length d) (pre.length + 1) =
          pre ++ d :: unescape s := by
        intro d
        have hset : (pre ++ c :: s).set pre.length d = (pre ++ [d]) ++ s := by simp
        have hnext := @ih (pre ++ [d]) s (by omega)
        rw [List.length_append, List.length_singleton] at hnext
        rw [hset, hnext, List.append_assoc, List.singleton_append]
      rw [hget 0, hget 1]
      by_cases hhex : pre.length + 2 < (pre ++ c :: s).length ∧ c = chr '%' ∧
        isXDigit (s.getD 0 0) ∧
          isXDigit (s.getD 1 0)
      · rw [if_pos hhex]
        obtain ⟨hlength, rfl, hx, hy⟩ := hhex
        match s, hfuel, hlength, hx, hy with
        | x :: y :: t, hfuel, _, hx, hy =>
          have hcut : ((pre ++ chr '%' :: x :: y :: t).drop (pre.length + 1)).take 2 = [x, y] := by
            rw [drop_append_length]
            rfl
          have hrest : (pre ++ chr '%' :: x :: y :: t).drop (pre.length + 3) = t := by
            rw [← List.drop_drop (i := 2), drop_append_length]
            rfl
          have hnext := @ih (pre ++ [fromHexEscape [x, y]]) t (by simp at hfuel; omega)
          rw [List.length_append, List.length_singleton] at hnext
          have hunescape := @unescape_of_hex x y t hx hy
          rw [hcut, hrest, List.take_left, hunescape, ← List.singleton_append,
            ← List.append_assoc, hnext, List.append_assoc, List.singleton_append]
        | [_], _, hlength, _, _ => simp at hlength
        | [], _, hlength, _, _ => simp at hlength
      · rw [if_neg hhex, unescape_of_not]
        · by_cases hplus : c = chr '+'
          · rw [if_pos hplus, if_pos hplus, hkeep]
          · have hself : (pre ++ c :: s).set pre.length c = pre ++ c :: s := by simp
            rw [if_neg hplus, if_neg hplus, ← hkeep c, hself]
        · rintro x y t rfl ⟨hc, hx, hy⟩
          exact hhex ⟨by simp, hc, hx, hy⟩

theorem encodeURI_reverse_eq (x : Str) : encodeURI x true = unescape x := by
  have h := decodeLoop_eq [] (Nat.lt_succ_self x.length)
  exact h

theorem unescapeWeb_of_hex (x y : UInt8) (s : Str) :
    unescapeWeb (chr '%' :: x :: y :: s) =
      (readHex [x, y]).bind fun value =>
        (unescapeWeb s).map ((value % 256).toNat.toUInt8 :: ·) := by
  rw [unescapeWeb, if_pos rfl]
  cases readHex [x, y] <;> rfl

theorem unescapeWeb_short {s : Str} (h : s.length < 2) : unescapeWeb (chr '%' :: s) = none := by
  match s with
  | [] => rfl
  | [_] => rfl
  | _ :: _ :: _ => simp at h

theorem unescapeWeb_of_ne {c : UInt8} (h : c ≠ chr '%') (s : Str) :
    unescapeWeb (c :: s) = (unescapeWeb s).map ((if c = chr '+' then chr ' ' else c) :: ·) := by
  rw [unescapeWeb.eq_def]
  exact if_neg h

theorem unescapeLoop_eq {fuel : Nat} (pre out : Str) {rest : Str} (hfuel : rest.length < fuel) :
    unescapeLoop (pre ++ rest) fuel pre.length out = (unescapeWeb rest).map (out ++ ·) := by
  induction fuel generalizing pre out rest with
  | zero => omega
  | succ fuel ih =>
    cases rest with
    | nil =>
      rw [unescapeLoop, if_neg (by simp)]
      simp [unescapeWeb]
    | cons c s =>
      rw [List.length_cons] at hfuel
      rw [unescapeLoop, if_pos (by simp), getD_append_length]
      by_cases hc : c = chr '%'
      · subst hc
        rw [if_pos rfl]
        match s, hfuel with
        | x :: y :: t, hfuel =>
          simp only [List.length_cons] at hfuel
          have hcut : ((pre ++ chr '%' :: x :: y :: t).drop (pre.length + 1)).take 2 = [x, y] := by
            rw [drop_append_length]
            rfl
          rw [if_pos (by simp), hcut, unescapeWeb_of_hex]
          cases hvalue : readHex [x, y] with
          | none => rfl
          | some value =>
            have hnext := @ih (pre ++ [chr '%', x, y]) (out ++ [(value % 256).toNat.toUInt8]) t
              (by omega)
            rw [List.length_append, List.append_assoc] at hnext
            refine Eq.trans hnext ?_
            simp [Function.comp_def]
        | [_], _ =>
          rw [if_neg (by simp), unescapeWeb_short (by simp)]
          rfl
        | [], _ =>
          rw [if_neg (by simp), unescapeWeb_short (by simp)]
          rfl
      · rw [if_neg hc, unescapeWeb_of_ne hc]
        have hnext := fun d => @ih (pre ++ [c]) (out ++ [d]) s (by omega)
        simp only [List.length_append, List.length_singleton, List.append_assoc,
          List.singleton_append]
          at hnext
        by_cases hplus : c = chr '+'
        · rw [if_pos hplus, if_pos hplus, hnext, Option.map_map]
          rfl
        · rw [if_neg hplus, if_neg hplus, hnext, Option.map_map]
          rfl

theorem unescapeUrl_eq (x : Str) : unescapeUrl x = unescapeWeb x := by
  have h := unescapeLoop_eq [] [] (Nat.lt_succ_self x.length)
  rw [List.nil_append, List.length_nil] at h
  rw [unescapeUrl, h]
  simp

/-! ## Bytes -/

/-- The escape of a byte above 15 is read as that byte. -/
theorem hex_of_byte : ∀ c : UInt8, ¬ c.toNat < 16 →
    isXDigit (hexDigit (c.toNat / 16)) = true ∧ isXDigit (hexDigit (c.toNat % 16)) = true ∧
      fromHexEscape [hexDigit (c.toNat / 16), hexDigit (c.toNat % 16)] = c ∧
      readHex [hexDigit (c.toNat / 16), hexDigit (c.toNat % 16)] = some (c.toNat : Int) := by
  decide +kernel

/-- A byte below 16 is escaped by one digit. -/
theorem low_byte : ∀ c : UInt8, c.toNat < 16 →
    c ≠ chr ' ' ∧ isEscaped c = true ∧ c ≠ chr '%' ∧ isXDigit (hexDigit c.toNat) = true := by
  decide +kernel

/-- What is not escaped is not special. -/
theorem not_escaped : ∀ c : UInt8, isEscaped c = false →
    ¬ c.toNat < 16 ∧ c ≠ chr '%' ∧ c ≠ chr '+' ∧ c ≠ chr '=' ∧ c ≠ chr '&' ∧ c ∉ disallowed := by
  decide +kernel

theorem isXDigit_ne : ∀ c : UInt8, isXDigit c = true → c ≠ chr '%' ∧ c ≠ chr '=' ∧ c ≠ chr '&' := by
  decide +kernel

theorem toUInt8_toNat_byte (c : UInt8) : (((c.toNat : Int)) % 256).toNat.toUInt8 = c := by
  have h := c.toNat_lt
  have hmod : ((c.toNat : Int) % 256).toNat = c.toNat := by omega
  rw [hmod]
  simp

/-! ## Strings without low bytes -/

/-- No byte is escaped by one digit. -/
def Plain (x : Str) : Prop := ∀ c ∈ x, ¬ c.toNat < 16

instance (x : Str) : Decidable (Plain x) := inferInstanceAs (Decidable (∀ _ ∈ _, _))

/-- What stands for a byte. -/
def unit (c : UInt8) : Str :=
  if c = chr ' ' then [chr '+'] else if isEscaped c then toHexEscape c else [c]

theorem escape_plain_cons {c : UInt8} (hc : ¬ c.toNat < 16) (s : Str) :
    escape (c :: s) = unit c ++ escape s := by
  rw [escape_cons, unit, if_neg hc]
  split
  · rfl
  · split <;> rfl

theorem escape_plain {x : Str} (hx : Plain x) : escape x = (x.map unit).flatten := by
  induction x with
  | nil => rfl
  | cons c x ih =>
    rw [escape_plain_cons (hx c List.mem_cons_self),
      ih fun d hd => hx d (List.mem_cons_of_mem _ hd)]
    rfl

theorem unescape_unit {c : UInt8} (hc : ¬ c.toNat < 16) (s : Str) :
    unescape (unit c ++ s) = c :: unescape s := by
  rw [unit]
  by_cases hspace : c = chr ' '
  · subst hspace
    rw [if_pos rfl, List.singleton_append,
      unescape_of_not (by rintro x y t - ⟨h, -⟩; exact absurd h (by decide))]
    rfl
  · rw [if_neg hspace]
    cases hescaped : isEscaped c with
    | true =>
      obtain ⟨hx, hy, hbyte, -⟩ := hex_of_byte c hc
      rw [if_pos rfl, toHexEscape, if_neg hc]
      exact (unescape_of_hex s hx hy).trans (by rw [hbyte])
    | false =>
      obtain ⟨-, hpercent, hplus, -⟩ := not_escaped c hescaped
      rw [if_neg Bool.false_ne_true, List.singleton_append,
        unescape_of_not (fun x y t _ h => hpercent h.1), if_neg hplus]

theorem unescape_escape {x : Str} (hx : Plain x) : unescape (escape x) = x := by
  induction x with
  | nil => rfl
  | cons c x ih =>
    have hc := hx c List.mem_cons_self
    rw [escape_plain_cons hc, unescape_unit hc, ih fun d hd => hx d (List.mem_cons_of_mem _ hd)]

theorem unescapeWeb_unit {c : UInt8} (hc : ¬ c.toNat < 16) (s : Str) :
    unescapeWeb (unit c ++ s) = (unescapeWeb s).map (c :: ·) := by
  rw [unit]
  by_cases hspace : c = chr ' '
  · subst hspace
    rw [if_pos rfl, List.singleton_append, unescapeWeb_of_ne (by decide), if_pos rfl]
  · rw [if_neg hspace]
    cases hescaped : isEscaped c with
    | true =>
      obtain ⟨-, -, -, hvalue⟩ := hex_of_byte c hc
      have hhex := unescapeWeb_of_hex (hexDigit (c.toNat / 16)) (hexDigit (c.toNat % 16)) s
      rw [hvalue, Option.bind_some, toUInt8_toNat_byte] at hhex
      rw [if_pos rfl, toHexEscape, if_neg hc]
      exact hhex
    | false =>
      obtain ⟨-, hpercent, hplus, -⟩ := not_escaped c hescaped
      rw [if_neg Bool.false_ne_true, List.singleton_append, unescapeWeb_of_ne hpercent,
        if_neg hplus]

theorem unescapeWeb_escape {x : Str} (hx : Plain x) : unescapeWeb (escape x) = some x := by
  induction x with
  | nil => rfl
  | cons c x ih =>
    have hc := hx c List.mem_cons_self
    rw [escape_plain_cons hc, unescapeWeb_unit hc, ih fun d hd => hx d (List.mem_cons_of_mem _ hd)]
    rfl

/-- A character of the disallowed set stands only in an escape. -/
def OnlyEscapes (s : Str) : Prop :=
  ∃ units : List Str, s = units.flatten ∧ ∀ u ∈ units,
    (∃ c, c ∉ disallowed ∧ u = [c]) ∨ u = [chr '+'] ∨
      ∃ x y, isXDigit x = true ∧ isXDigit y = true ∧ u = [chr '%', x, y]

theorem onlyEscapes_escape {x : Str} (hx : Plain x) : OnlyEscapes (escape x) := by
  refine ⟨x.map unit, escape_plain hx, ?_⟩
  intro u hu
  obtain ⟨c, hc, rfl⟩ := List.mem_map.mp hu
  rw [unit]
  split
  · exact Or.inr (Or.inl rfl)
  · split
    case isTrue =>
      obtain ⟨hhigh, hlow, -⟩ := hex_of_byte c (hx c hc)
      rw [toHexEscape, if_neg (hx c hc)]
      exact Or.inr (Or.inr ⟨_, _, hhigh, hlow, rfl⟩)
    case isFalse hescaped =>
      exact Or.inl ⟨c, (not_escaped c (Bool.not_eq_true _ ▸ hescaped)).2.2.2.2.2, rfl⟩

/-! ## Strings with low bytes -/

theorem escape_low {c : UInt8} (hc : c.toNat < 16) :
    escape [c] = [chr '%', hexDigit c.toNat] ∧
      ∀ y s, escape (c :: y :: s) = chr '%' :: hexDigit c.toNat :: y :: escape s := by
  obtain ⟨hspace, hescaped, -⟩ := low_byte c hc
  constructor
  · rw [escape_cons, if_neg hspace, if_pos hescaped, if_pos hc, toHexEscape, if_pos hc]
    rfl
  · intro y s
    rw [escape_cons, if_neg hspace, if_pos hescaped, if_pos hc, toHexEscape, if_pos hc]
    rfl

/-- **What is escaped by one digit is not read back.** Reading falls behind by the characters `w`
    that have been passed over, and no percent sign is among them that could make up for it. -/
theorem unescape_escape_ne (x w : Str) (hw : chr '%' ∉ w) (h : w ≠ [] ∨ ¬ Plain x) :
    unescape (escape x) ≠ w ++ x := by
  induction hn : x.length using Nat.strong_induction_on generalizing x w with
  | _ n ih =>
    subst hn
    cases x with
    | nil =>
      have hw : w ≠ [] := h.resolve_right fun h => h fun c hc => absurd hc List.not_mem_nil
      intro heq
      rw [List.append_nil] at heq
      exact hw heq.symm
    | cons c s =>
      by_cases hc : c.toNat < 16
      · obtain ⟨-, -, hpercent, hdigit⟩ := low_byte c hc
        -- a text that begins with a percent sign is not the wanted one
        have hhead : ∀ t, unescape (escape (c :: s)) = chr '%' :: t →
            unescape (escape (c :: s)) ≠ w ++ c :: s := by
          intro t ht heq
          rw [ht] at heq
          cases w with
          | nil => exact hpercent (List.cons.inj heq).1.symm
          | cons a w => exact hw ((List.cons.inj heq).1 ▸ List.mem_cons_self)
        cases s with
        | nil =>
          refine hhead (unescape [hexDigit c.toNat]) ?_
          rw [(escape_low hc).1, unescape_of_not (by simp), if_neg (by decide)]
        | cons y s =>
          rw [(escape_low hc).2] at hhead ⊢
          cases hy : isXDigit y with
          | false =>
            refine hhead (unescape (hexDigit c.toNat :: y :: escape s)) ?_
            rw [unescape_of_not, if_neg (by decide)]
            rintro x' y' t ht ⟨-, -, hy'⟩
            rw [List.cons.injEq, List.cons.injEq] at ht
            rw [← ht.2.1, hy] at hy'
            exact Bool.noConfusion hy'
          | true =>
            rw [unescape_of_hex (escape s) hdigit hy]
            have hy' := (isXDigit_ne y hy).1
            intro heq
            cases w with
            | nil =>
              refine ih s.length (by simp) s [y] (by simpa using Ne.symm hy')
                (Or.inl (by simp)) rfl ?_
              simpa using (List.cons.inj heq).2
            | cons a w =>
              have hw' : chr '%' ∉ w ++ [c, y] := by
                simp only [List.mem_append, List.mem_cons, List.not_mem_nil, or_false, not_or]
                exact ⟨fun h => hw (List.mem_cons_of_mem _ h), Ne.symm hpercent, Ne.symm hy'⟩
              refine ih s.length (by simp) s (w ++ [c, y]) hw' (Or.inl (by simp)) rfl ?_
              simpa using (List.cons.inj heq).2
      · rw [escape_plain_cons hc, unescape_unit hc]
        have hrest : w ≠ [] ∨ ¬ Plain s := by
          refine h.imp_right fun hplain hs => hplain fun d hd => ?_
          rcases List.mem_cons.mp hd with rfl | hd
          · exact hc
          · exact hs d hd
        intro heq
        cases w with
        | nil =>
          refine ih s.length (by simp) s [] List.not_mem_nil
            (Or.inr (hrest.resolve_left (by simp))) rfl ?_
          exact (List.cons.inj heq).2
        | cons a w =>
          obtain ⟨rfl, heq⟩ := List.cons.inj heq
          have hw' : chr '%' ∉ w ++ [c] := by
            simp only [List.mem_append, List.mem_singleton, not_or]
            exact ⟨fun h => hw (List.mem_cons_of_mem _ h), fun h => hw (h ▸ List.mem_cons_self)⟩
          refine ih s.length (by simp) s (w ++ [c]) hw' (Or.inl (by simp)) rfl ?_
          simpa using heq

/-- What the three functions make of a string. -/
structure Reversible (x : Str) : Prop where
  encodeURI_reverse : encodeURI (encodeURI x false) true = x
  unescapeUrl_encodeURI : unescapeUrl (encodeURI x false) = some x
  onlyEscapes : OnlyEscapes (encodeURI x false)

/-- Escaping is reversible for the strings without bytes below 16. -/
theorem reversible_iff (x : Str) : Reversible x ↔ Plain x := by
  constructor
  · intro h
    by_contra hx
    have hreverse := h.encodeURI_reverse
    rw [encodeURI_eq, encodeURI_reverse_eq] at hreverse
    exact unescape_escape_ne x [] List.not_mem_nil (Or.inr hx) hreverse
  · intro hx
    refine ⟨?_, ?_, ?_⟩
    · rw [encodeURI_eq, encodeURI_reverse_eq, unescape_escape hx]
    · rw [encodeURI_eq, unescapeUrl_eq, unescapeWeb_escape hx]
    · rw [encodeURI_eq]
      exact onlyEscapes_escape hx

/-! ## Queries -/

/-- The query of some names with their values. -/
def query : List (Str × Str) → Str
  | [] => []
  | [p] => encodeURI p.1 false ++ chr '=' :: encodeURI p.2 false
  | p :: q :: pairs =>
    encodeURI p.1 false ++ chr '=' :: (encodeURI p.2 false ++ chr '&' :: query (q :: pairs))

/-- An entry of the map. -/
def assign (ret : Str → Option Str) (p : Str × Str) : Str → Option Str :=
  if p.1 ≠ [] ∧ p.2 ≠ [] then Function.update ret p.1 (some p.2) else ret

/-- No separator is in it. -/
def Apart (s : Str) : Prop := chr '=' ∉ s ∧ chr '&' ∉ s

theorem apart_escape {x : Str} (hx : Plain x) : Apart (escape x) := by
  have hunit : ∀ c : UInt8, ¬ c.toNat < 16 → chr '=' ∉ unit c ∧ chr '&' ∉ unit c := by
    decide +kernel
  rw [escape_plain hx]
  constructor
  · intro hmem
    obtain ⟨u, hu, hmem⟩ := List.mem_flatten.mp hmem
    obtain ⟨c, hc, rfl⟩ := List.mem_map.mp hu
    exact (hunit c (hx c hc)).1 hmem
  · intro hmem
    obtain ⟨u, hu, hmem⟩ := List.mem_flatten.mp hmem
    obtain ⟨c, hc, rfl⟩ := List.mem_map.mp hu
    exact (hunit c (hx c hc)).2 hmem

theorem drop_two (pre a : Str) (c : UInt8) (b : Str) :
    (pre ++ (a ++ c :: b)).drop (pre.length + a.length + 1) = b := by
  have hassoc : pre ++ (a ++ c :: b) = (pre ++ a) ++ c :: b := (List.append_assoc _ _ _).symm
  rw [hassoc, ← List.length_append, drop_append_length]

/-- One parameter of a query, up to what comes behind it. -/
theorem decodeQueryLoop_step {fuel : Nat} (pre a b rest : Str) (ret : Str → Option Str)
    (ha : Apart a)
    (hb : Apart b) (hrest : rest = [] ∨ ∃ t, rest = chr '&' :: t) :
    decodeQueryLoop (pre ++ (a ++ chr '=' :: (b ++ rest))) (fuel + 1) pre.length ret =
      decodeQueryLoop (pre ++ (a ++ chr '=' :: (b ++ rest))) fuel
        (pre.length + a.length + 1 + b.length + 1)
        (assign ret (a, b)) := by
  have heq : find (pre ++ (a ++ chr '=' :: (b ++ rest)))
      [chr '='] pre.length = some (pre.length + a.length) :=
    find_char_of_split ha.1 List.drop_left
  have hend : (find (pre ++ (a ++ chr '=' :: (b ++ rest))) [chr '&']
    (pre.length + a.length + 1)).getD
      (pre ++ (a ++ chr '=' :: (b ++ rest))).length = pre.length + a.length + 1 + b.length := by
    rcases hrest with rfl | ⟨t, rfl⟩
    · rw [find_char_none]
      · simp
        omega
      · rw [drop_two, List.append_nil]
        exact hb.2
    · rw [find_char_of_split hb.2 (drop_two pre a _ _)]
      rfl
  have hname : ((pre ++ (a ++ chr '=' :: (b ++ rest))).drop pre.length).take a.length = a := by
    rw [List.drop_left, List.take_left]
  have hvalue : ((pre ++ (a ++ chr '=' :: (b ++ rest))).drop (pre.length + a.length + 1)).take
      b.length = b := by
    rw [drop_two, List.take_left]
  rw [decodeQueryLoop, if_pos (by simp), heq]
  simp only [hend, Nat.add_sub_cancel_left, hname, hvalue, assign]
  congr 1
  have hposa : pre.length < pre.length + a.length ↔ a ≠ [] := by
    rw [← List.length_pos_iff]
    omega
  have hposb : pre.length + a.length + 1 < pre.length + a.length + 1 + b.length ↔ b ≠ [] := by
    rw [← List.length_pos_iff]
    omega
  simp only [hposa, hposb]

/-- **Decoding a query collects its parameters**, except those with an empty name or an empty
    value. -/
theorem decodeQueryLoop_query {fuel : Nat} (pairs : List (Str × Str)) (pre : Str)
    (ret : Str → Option Str)
    (hpairs : ∀ p ∈ pairs, Plain p.1 ∧ Plain p.2) (hfuel : pairs.length < fuel) :
    decodeQueryLoop (pre ++ query pairs) fuel pre.length ret =
      (pairs.map fun p => (escape p.1, escape p.2)).foldl assign ret := by
  induction pairs generalizing fuel pre ret with
  | nil =>
    obtain ⟨fuel, rfl⟩ := Nat.exists_eq_succ_of_ne_zero (by omega : fuel ≠ 0)
    rw [decodeQueryLoop, if_neg (by simp [query])]
    rfl
  | cons p pairs ih =>
    obtain ⟨fuel, rfl⟩ := Nat.exists_eq_succ_of_ne_zero (by omega : fuel ≠ 0)
    rw [List.length_cons] at hfuel
    obtain ⟨hname, hvalue⟩ := hpairs p List.mem_cons_self
    cases pairs with
    | nil =>
      have hstep := @decodeQueryLoop_step fuel pre (escape p.1) (escape p.2)
        [] ret (apart_escape hname)
        (apart_escape hvalue) (Or.inl rfl)
      rw [List.append_nil] at hstep
      simp only [query, encodeURI_eq]
      rw [hstep]
      have hdone : ∀ (q : Str) (fuel start : Nat) (ret : Str → Option Str), q.length ≤ start →
          decodeQueryLoop q fuel start ret = ret := by
        intro q fuel start ret hlength
        cases fuel with
        | zero => rfl
        | succ fuel => rw [decodeQueryLoop, if_neg (by omega)]
      rw [hdone _ _ _ _ (by simp; omega)]
      rfl
    | cons q pairs =>
      have hstep := @decodeQueryLoop_step fuel pre (escape p.1) (escape p.2)
        (chr '&' :: query (q :: pairs)) ret
        (apart_escape hname) (apart_escape hvalue) (Or.inr ⟨_, rfl⟩)
      have hnext := @ih fuel (pre ++ (escape p.1 ++ chr '=' :: (escape p.2 ++ [chr '&'])))
        (assign ret (escape p.1, escape p.2)) (fun r hr => hpairs r (List.mem_cons_of_mem _ hr))
          (by omega)
      have hlength : (pre ++ (escape p.1 ++ chr '=' :: (escape p.2 ++ [chr '&']))).length =
          pre.length + (escape p.1).length + 1 + (escape p.2).length + 1 := by
        simp
        omega
      have hassoc : pre ++ (escape p.1 ++ chr '=' :: (escape p.2 ++ [chr '&'])) ++
        query (q :: pairs) =
          pre ++ (escape p.1 ++ chr '=' :: (escape p.2 ++ chr '&' :: query (q :: pairs))) := by
        simp
      rw [hlength, hassoc] at hnext
      simp only [query, encodeURI_eq] at hstep hnext ⊢
      rw [hstep, hnext]
      rfl

theorem length_le_query (pairs : List (Str × Str)) : pairs.length ≤ (query pairs).length := by
  induction pairs with
  | nil => simp
  | cons p pairs ih =>
    cases pairs with
    | nil =>
      simp [query]
      omega
    | cons q pairs =>
      simp only [query, List.length_append, List.length_cons] at ih ⊢
      omega

theorem decodeQuery_query {pairs : List (Str × Str)} (hpairs : ∀ p ∈ pairs, Plain p.1 ∧ Plain p.2) :
    decodeQuery (query pairs) =
      (pairs.map fun p => (escape p.1, escape p.2)).foldl assign fun _ => none :=
  decodeQueryLoop_query pairs [] _ hpairs (Nat.lt_succ_of_le (length_le_query pairs))

/-- An entry of the map comes from one of the parameters, which is not empty. -/
theorem of_foldl_assign {pairs : List (Str × Str)} {ret : Str → Option Str} {name value : Str}
    (h : pairs.foldl assign ret name = some value) :
    ret name = some value ∨ ((name, value) ∈ pairs ∧ name ≠ [] ∧ value ≠ []) := by
  induction pairs generalizing ret with
  | nil => exact Or.inl h
  | cons p pairs ih =>
    rcases ih h with hret | ⟨hmem, hne⟩
    · rw [assign] at hret
      split at hret
      case isTrue hp =>
        by_cases hname : name = p.1
        · subst hname
          rw [Function.update_self, Option.some.injEq] at hret
          subst hret
          exact Or.inr ⟨List.mem_cons_self, hp⟩
        · rw [Function.update_of_ne hname] at hret
          exact Or.inl hret
      case isFalse => exact Or.inl hret
    · exact Or.inr ⟨List.mem_cons_of_mem _ hmem, hne⟩

/-- A value is kept as long as its name has no other one. -/
theorem foldl_assign_keeps {pairs : List (Str × Str)} {ret : Str → Option Str} {name value : Str}
    (hret : ret name = some value) (hsame : ∀ p ∈ pairs, p.1 = name → p.2 = value) :
    pairs.foldl assign ret name = some value := by
  induction pairs generalizing ret with
  | nil => exact hret
  | cons p pairs ih =>
    refine ih ?_ fun q hq => hsame q (List.mem_cons_of_mem _ hq)
    rw [assign]
    split
    · by_cases hname : name = p.1
      · rw [hname, Function.update_self, hsame p List.mem_cons_self hname.symm]
      · rw [Function.update_of_ne hname, hret]
    · exact hret

theorem foldl_assign_of_mem {pairs : List (Str × Str)} {ret : Str → Option Str} {p : Str × Str}
    (hp : p ∈ pairs) (hne : p.1 ≠ [] ∧ p.2 ≠ []) (hsame : ∀ q ∈ pairs, q.1 = p.1 → q.2 = p.2) :
    pairs.foldl assign ret p.1 = some p.2 := by
  obtain ⟨before, behind, rfl⟩ := List.append_of_mem hp
  rw [List.foldl_append, List.foldl_cons]
  refine foldl_assign_keeps ?_ fun q hq => hsame q (by simp [hq])
  rw [assign, if_pos hne, Function.update_self]

theorem escape_inj {x y : Str} (hx : Plain x) (hy : Plain y) : escape x = escape y ↔ x = y := by
  refine ⟨fun h => ?_, fun h => h ▸ rfl⟩
  rw [← unescape_escape hx, h, unescape_escape hy]

theorem escape_ne_nil {x : Str} (hx : Plain x) : escape x ≠ [] ↔ x ≠ [] :=
  not_congr (escape_inj (y := []) hx fun _ hc => absurd hc List.not_mem_nil)

/-- The names and the values of a query are found in it, and nothing else. -/
structure QueryReversible (pairs : List (Str × Str)) : Prop where
  reversible : ∀ p ∈ pairs, Reversible p.1 ∧ Reversible p.2
  decodeQuery_eq : ∀ name value, decodeQuery (query pairs) name = some value ↔
    ∃ p ∈ pairs, name = encodeURI p.1 false ∧ value = encodeURI p.2 false

/-- Names and values without low bytes, none of them empty, and one value for each name. -/
structure PlainQuery (pairs : List (Str × Str)) : Prop where
  plain : ∀ p ∈ pairs, Plain p.1 ∧ Plain p.2
  nonempty : ∀ p ∈ pairs, p.1 ≠ [] ∧ p.2 ≠ []
  single : ∀ p ∈ pairs, ∀ q ∈ pairs, p.1 = q.1 → p.2 = q.2

theorem queryReversible_iff (pairs : List (Str × Str)) :
    QueryReversible pairs ↔ PlainQuery pairs := by
  constructor
  · intro h
    have hplain : ∀ p ∈ pairs, Plain p.1 ∧ Plain p.2 := fun p hp =>
      ⟨(reversible_iff _).mp (h.reversible p hp).1, (reversible_iff _).mp (h.reversible p hp).2⟩
    have hfound : ∀ p ∈ pairs, decodeQuery (query pairs) (escape p.1) = some (escape p.2) :=
        fun p hp =>
      (h.decodeQuery_eq _ _).mpr ⟨p, hp, (encodeURI_eq p.1).symm, (encodeURI_eq p.2).symm⟩
    refine ⟨hplain, ?_, ?_⟩
    · intro p hp
      have hret := hfound p hp
      rw [decodeQuery_query hplain] at hret
      rcases of_foldl_assign hret with hnone | ⟨-, hname, hvalue⟩
      · exact absurd hnone (by simp)
      · exact ⟨(escape_ne_nil (hplain p hp).1).mp hname, (escape_ne_nil (hplain p hp).2).mp hvalue⟩
    · intro p hp q hq heq
      have hsame := hfound p hp
      rw [heq, hfound q hq, Option.some.injEq] at hsame
      exact ((escape_inj (hplain q hq).2 (hplain p hp).2).mp hsame).symm
  · intro h
    refine ⟨fun p hp => ⟨(reversible_iff _).mpr (h.plain p hp).1,
      (reversible_iff _).mpr (h.plain p hp).2⟩, ?_⟩
    intro name value
    rw [decodeQuery_query h.plain]
    constructor
    · intro hret
      rcases of_foldl_assign hret with hnone | ⟨hmem, -⟩
      · exact absurd hnone (by simp)
      · obtain ⟨p, hp, heq⟩ := List.mem_map.mp hmem
        rw [Prod.mk.injEq] at heq
        exact ⟨p, hp, by rw [encodeURI_eq, heq.1], by rw [encodeURI_eq, heq.2]⟩
    · rintro ⟨p, hp, rfl, rfl⟩
      rw [encodeURI_eq, encodeURI_eq]
      refine foldl_assign_of_mem (p := (escape p.1, escape p.2))
        (List.mem_map.mpr ⟨p, hp, rfl⟩) ?_ ?_
      · exact ⟨(escape_ne_nil (h.plain p hp).1).mpr (h.nonempty p hp).1,
          (escape_ne_nil (h.plain p hp).2).mpr (h.nonempty p hp).2⟩
      · intro r hr heq
        obtain ⟨q, hq, rfl⟩ := List.mem_map.mp hr
        have hname : q.1 = p.1 := (escape_inj (h.plain q hq).1 (h.plain p hp).1).mp heq
        exact congrArg escape (h.single q hq p hp hname)

/-- **Escaping is reversible for the strings without bytes below 16.** A query of such names and
    values gives them back when none of them is empty and each name has one value. -/
theorem escaping_reversible (x : Str) (pairs : List (Str × Str)) :
    (Reversible x ↔ Plain x) ∧ (QueryReversible pairs ↔ PlainQuery pairs) :=
  ⟨reversible_iff x, queryReversible_iff pairs⟩

/-- A line feed becomes `%A`, which is neither read back nor accepted. -/
theorem escaping_not_reversible :
    encodeURI [10] false = str "%A" ∧ encodeURI (encodeURI [10] false) true ≠ [10] ∧
      unescapeUrl (encodeURI [10] false) = none ∧ ¬ ∀ x, Reversible x := by
  refine ⟨by decide +kernel, by decide +kernel, by decide +kernel, fun h => ?_⟩
  have hreverse : encodeURI (encodeURI [10] false) true ≠ [10] := by decide +kernel
  exact hreverse (h [10]).encodeURI_reverse

end LinkUtil
end Airdcpp
