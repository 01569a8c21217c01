import Airdcpp.Core.Types

/-!
# `Util/Encoder` — base32 and base16

The functions for base32 go through their bytes with the number of bits (`index`) that the current
byte has given or taken already. What is not a digit is skipped.
-/

namespace Airdcpp
namespace Encoder

def base32Alphabet : Str := str "ABCDEFGHIJKLMNOPQRSTUVWXYZ234567"

/-- `base32Table`, with `none` for -1. -/
def base32Table (c : UInt8) : Option UInt8 :=
  if chr 'A' ≤ c ∧ c ≤ chr 'Z' then some (c - chr 'A')
  else if chr 'a' ≤ c ∧ c ≤ chr 'z' then some (c - chr 'a')
  else if chr '2' ≤ c ∧ c ≤ chr '7' then some (c - chr '2' + 26)
  else none

/-- `toBase32`; every second digit at the latest takes the next byte. -/
def toBase32 : (src : Str) → (index : Nat) → Str
  | [], _ => []
  | b :: rest, index =>
    if 3 < index then
      let index' := (index + 5) % 8
      let word := (b &&& (0xff >>> UInt8.ofNat index)) <<< UInt8.ofNat index' |||
        match rest with
        | [] => 0
        | b' :: _ => b' >>> UInt8.ofNat (8 - index')
      base32Alphabet.getD word.toNat 0 :: toBase32 rest index'
    else
      let word := (b >>> UInt8.ofNat (8 - (index + 5))) &&& 0x1f
      let index' := (index + 5) % 8
      base32Alphabet.getD word.toNat 0 ::
        if index' = 0 then toBase32 rest 0 else toBase32 (b :: rest) (index + 5)
termination_by src index => (src.length, 8 - index)

/-- The loop of `fromBase32`. -/
def fromBase32Loop (len : Nat) : (src : Str) → (index offset : Nat) → (dst : Str) → Str
  | [], _, _, dst => dst
  | c :: src, index, offset, dst =>
    if c = 0 then dst
    else
      match base32Table c with
      | none => fromBase32Loop len src index offset dst
      | some tmp =>
        let index' := (index + 5) % 8
        if index ≤ 3 then
          if index' = 0 then
            let dst := dst.modify offset (· ||| tmp)
            if offset + 1 = len then dst else fromBase32Loop len src index' (offset + 1) dst
          else
            fromBase32Loop len src index' offset
              (dst.modify offset (· ||| tmp <<< UInt8.ofNat (8 - index')))
        else
          let dst := dst.modify offset (· ||| tmp >>> UInt8.ofNat index')
          if offset + 1 = len then dst
          else
            fromBase32Loop len src index' (offset + 1)
              (dst.modify (offset + 1) (· ||| tmp <<< UInt8.ofNat (8 - index')))

def fromBase32 (src : Str) (len : Nat) : Str := fromBase32Loop len src 0 0 (List.replicate len 0)

/-- Where the loop of `fromBase32` writes, and what it sets there. -/
def fromBase32Writes (len : Nat) : (src : Str) → (index offset : Nat) → List (Nat × UInt8)
  | [], _, _ => []
  | c :: src, index, offset =>
    if c = 0 then []
    else
      match base32Table c with
      | none => fromBase32Writes len src index offset
      | some tmp =>
        let index' := (index + 5) % 8
        if index ≤ 3 then
          if index' = 0 then
            (offset, tmp) ::
              if offset + 1 = len then [] else fromBase32Writes len src index' (offset + 1)
          else
            (offset, tmp <<< UInt8.ofNat (8 - index')) :: fromBase32Writes len src index' offset
        else
          (offset, tmp >>> UInt8.ofNat index') ::
            if offset + 1 = len then []
            else (offset + 1, tmp <<< UInt8.ofNat (8 - index')) ::
              fromBase32Writes len src index' (offset + 1)

/-- `decode16`; `none` is the exception. -/
def decode16 (c : UInt8) : Option UInt8 :=
  if chr '0' ≤ c ∧ c ≤ chr '9' then some (c - chr '0')
  else if chr 'A' ≤ c ∧ c ≤ chr 'F' then some (c - chr 'A')
  else if chr 'a' ≤ c ∧ c ≤ chr 'f' then some (c - chr 'a')
  else none

/-- `fromBase16(src, dst, len)`: what is in `dst` then. -/
def fromBase16 : (src : Str) → (len : Nat) → Option Str
  | c :: c' :: src, len + 1 =>
    if c = 0 ∨ c' = 0 then some (List.replicate (len + 1) 0)
    else do
      let tmp ← decode16 c
      let tmp2 ← decode16 c'
      let rest ← fromBase16 src len
      some (((tmp <<< 4) + tmp2) :: rest)
  | _, len => some (List.replicate len 0)

end Encoder

/-- `HashValue(base32)` -/
def TTHValue.ofBase32 (base32 : Str) : TTHValue :=
  Vector.ofFn fun j : Fin 24 => (Encoder.fromBase32 base32 24).getD j 0

def TTHValue.toBase32 (tth : TTHValue) : Str := Encoder.toBase32 tth.toList 0

end Airdcpp
