import Airdcpp.Core.Text

/-!
# `Util/Strings` — positions in strings, and numbers in them

`std::string` and `Util` as far as the parsers of this development use them. What the library
throws `out_of_range` for is `none` here, so that a function that calls `substr` says itself
whether its positions are in range. A position that was not found is `none` too; where the source
goes on with `npos`, so does the model.

`atoi` and `strtoul` are those of glibc: numbers that are too large for a `long` are the largest
one, and `atoi` keeps its low 32 bits.
-/

namespace Airdcpp

/-- `s.substr(pos, n)` -/
def substr (s : Str) (pos n : Nat) : Option Str :=
  if pos ≤ s.length then some ((s.drop pos).take n) else none

/-- `a - b` of two `size_t` -/
def subSizeT (a b : Nat) : Nat := if b ≤ a then a - b else a + 2 ^ 64 - b

/-- `s[i]`: the byte behind the last one may be read. -/
def charAt (s : Str) (i : Nat) : Option UInt8 := if i ≤ s.length then some (s.getD i 0) else none

/-- `s.find(needle, pos)` -/
def find (s needle : Str) (pos : Nat) : Option Nat :=
  (List.range' pos (s.length + 1 - pos)).find? fun i => needle.isPrefixOf (s.drop i)

/-- `s.find_first_of(chars, pos)` -/
def findFirstOf (s chars : Str) (pos : Nat) : Option Nat :=
  (List.range' pos (s.length - pos)).find? fun i => chars.contains (s.getD i 0)

theorem substr_of_le {s : Str} {pos : Nat} (h : pos ≤ s.length) (n : Nat) :
    substr s pos n = some ((s.drop pos).take n) := if_pos h

theorem substr_of_lt {s : Str} {pos : Nat} (h : s.length < pos) (n : Nat) :
    substr s pos n = none := if_neg (Nat.not_le.mpr h)

theorem charAt_of_le {s : Str} {i : Nat} (h : i ≤ s.length) : charAt s i = some (s.getD i 0) :=
  if_pos h

theorem find_eq_some {s needle : Str} {pos i : Nat} (h : find s needle pos = some i) :
    pos ≤ i ∧ ∃ rest, s = s.take i ++ needle ++ rest := by
  have hmem := List.mem_of_find?_eq_some h
  have hpre := List.find?_some h
  rw [List.mem_range'_1] at hmem
  rw [List.isPrefixOf_iff_prefix] at hpre
  obtain ⟨rest, hrest⟩ := hpre
  refine ⟨hmem.1, rest, ?_⟩
  rw [List.append_assoc, hrest, List.take_append_drop]

theorem find_add_le {s needle : Str} {pos i : Nat} (h : find s needle pos = some i) :
    i + needle.length ≤ s.length := by
  have hmem := List.mem_of_find?_eq_some h
  obtain ⟨-, rest, hrest⟩ := find_eq_some h
  have hlen := congrArg List.length hrest
  rw [List.mem_range'_1] at hmem
  simp only [List.length_append, List.length_take] at hlen
  omega

theorem find_eq_none {s needle : Str} (h : find s needle 0 = none) : ¬ needle <:+: s := by
  intro hin
  obtain ⟨a, b, rfl⟩ := hin
  have hnone := List.find?_eq_none.mp h a.length (by
    rw [List.mem_range'_1]
    simp only [List.length_append]
    omega)
  apply hnone
  rw [List.isPrefixOf_iff_prefix, List.append_assoc, List.drop_left]
  exact List.prefix_append _ _

theorem findFirstOf_eq_some {s chars : Str} {pos i : Nat} (h : findFirstOf s chars pos = some i) :
    pos ≤ i ∧ i < s.length := by
  have hmem := List.mem_of_find?_eq_some h
  rw [List.mem_range'_1] at hmem
  omega

namespace Util

/-- `isspace` -/
def isSpace (c : UInt8) : Bool := c == 32 || (9 ≤ c && c ≤ 13)

/-- `boost::algorithm::trim_copy_if` -/
def trimIf (p : UInt8 → Bool) (s : Str) : Str := (s.dropWhile p).rdropWhile p

def digit? (base : Nat) (c : UInt8) : Option Nat :=
  let d :=
    if chr '0' ≤ c ∧ c ≤ chr '9' then some (c.toNat - 48)
    else if chr 'a' ≤ c ∧ c ≤ chr 'z' then some (c.toNat - 87)
    else if chr 'A' ≤ c ∧ c ≤ chr 'Z' then some (c.toNat - 55)
    else none
  d.filter (· < base)

/-- The digits at the beginning of a string. -/
def digits (base : Nat) : (acc : Nat) → Str → Nat
  | acc, [] => acc
  | acc, c :: s =>
    match digit? base c with
    | some d => digits base (acc * base + d) s
    | none => acc

/-- Whether a minus stands there, and the string behind the sign. -/
def sign (s : Str) : Bool × Str :=
  match s.dropWhile isSpace with
  | c :: rest => if c = chr '-' then (true, rest) else if c = chr '+' then (false, rest)
    else (false, c :: rest)
  | [] => (false, [])

/-- `0x` in front of a digit is skipped. -/
def skipHexPrefix : Str → Str
  | z :: x :: d :: s =>
    if z = chr '0' ∧ (x = chr 'x' ∨ x = chr 'X') ∧ (digit? 16 d).isSome then d :: s
    else z :: x :: d :: s
  | s => s

def ULONG_MAX : Nat := 2 ^ 64 - 1

/-- `strtoul(s, NULL, 16)` -/
def strtoul16 (s : Str) : Nat :=
  let v := digits 16 0 (skipHexPrefix (sign s).2)
  if ULONG_MAX < v then ULONG_MAX else if (sign s).1 then (2 ^ 64 - v) % 2 ^ 64 else v

/-- `Util::toInt`: `atoi`, that is `static_cast<int>(strtol(s, NULL, 10))`. -/
def toInt (s : Str) : Int :=
  let v : Int := digits 10 0 (sign s).2
  let v := if (sign s).1 then max (-v) (-2 ^ 63) else min v (2 ^ 63 - 1)
  v.bmod (2 ^ 32)

/-- `Util::toInt64`: `strtoll(s, NULL, 10)`. -/
def toInt64 (s : Str) : Int :=
  let v : Int := digits 10 0 (sign s).2
  if (sign s).1 then max (-v) (-2 ^ 63) else min v (2 ^ 63 - 1)

def asciiToLower (c : UInt8) : Nat :=
  if chr 'A' ≤ c ∧ c ≤ chr 'Z' then c.toNat + 32 else c.toNat

/-- `utf8ToLC`: the code point at the beginning, and how many bytes it has. -/
def utf8ToLC (locale : Locale) (s : Str) : Nat × Nat :=
  let b (i : Nat) : Nat := (s.getD i 0).toNat
  let tail (i : Nat) : Bool := b i &&& 0xc0 == 0x80
  if b 0 &&& 0x80 ≠ 0 then
    if b 0 &&& 0x40 ≠ 0 then
      if b 0 &&& 0x20 ≠ 0 then
        if !tail 1 || !tail 2 then (0, 1)
        else (locale.towlower
          ((b 0 &&& 0xf) <<< 12 ||| (b 1 &&& 0x3f) <<< 6 ||| (b 2 &&& 0x3f)), 3)
      else if !tail 1 then (0, 1)
      else (locale.towlower ((b 0 &&& 0x1f) <<< 6 ||| (b 1 &&& 0x3f)), 2)
    else (0, 1)
  else (asciiToLower (s.getD 0 0), 1)

/-- The inner loop of `findSubString`: `tx2` begins with what `px2` is. -/
def sameLC (locale : Locale) : (n : Nat) → (px2 tx2 : Str) → Bool
  | 0, _, _ => false
  | n + 1, px2, tx2 =>
    if px2.getD 0 0 = 0 then true
    else
      let p := utf8ToLC locale px2
      let t := utf8ToLC locale tx2
      if p.1 = t.1 then sameLC locale n (px2.drop p.2) (tx2.drop t.2) else false

/-- The outer loop, `tx` being the position `i`. -/
def findLC (locale : Locale) (aString aSubString : Str) : (n i : Nat) → Option Nat
  | 0, _ => none
  | n + 1, i =>
    if i < aString.length - aSubString.length + 1 then
      let p := utf8ToLC locale aSubString
      let t := utf8ToLC locale (aString.drop i)
      if p.1 = t.1 ∧ sameLC locale (aSubString.length + 1) (aSubString.drop p.2)
          (aString.drop (i + t.2)) then some i
      else findLC locale aString aSubString n (i + t.2)
    else none

/-- `findSubString(aString, aSubString, 0)` -/
def findSubString (locale : Locale) (aString aSubString : Str) : Option Nat :=
  if aString.length < aSubString.length then none
  else if aSubString = [] then some 0
  else findLC locale aString aSubString (aString.length + 1) 0

/-- `stricmp` -/
def stricmp (locale : Locale) : (n : Nat) → (a b : Str) → Int
  | 0, _, _ => 0
  | n + 1, a, b =>
    let wa := Text.utf8ToWc a
    let wb := Text.utf8ToWc b
    let d : Int := locale.towlower wa.2 - locale.towlower wb.2
    if a.getD 0 0 = 0 ∨ d ≠ 0 then d
    else stricmp locale n (a.drop wa.1.natAbs) (b.drop wb.1.natAbs)

end Util
end Airdcpp
