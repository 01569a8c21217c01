import Airdcpp.Lib.BitTable
import Airdcpp.Protocol.AdcCommand
import Airdcpp.Util.Strings

/-!
# `Hash/HashBloom` — the Bloom filter a hub asks for

A hub may ask for a filter of the files a user shares, and sends searches by TTH only to those whose
filter matches. It names the number of bits `m`, the number of positions `k` of a TTH and the number
of bits `h` of a position. A position is a window of `h` bits of the TTH, modulo the size of the
filter; a window that would go past the end of the TTH is position 0.

The filter is sent as bytes, the lowest bit first, and the hub puts it together again. What was
added matches in both (`bloom_no_false_negatives`), and no read and no write of these is out of
range, which is that nothing here is `none`.
-/

namespace Airdcpp

open Lib

/-- `TTHValue::BITS` -/
def TTHValue.BITS : Nat := 192

structure HashBloom where
  bloom : List Bool := []
  k : Nat := 0
  h : Nat := 0
deriving DecidableEq, Repr

namespace HashBloom

/-! ## The filter -/

/-- One round of the loop of `pos`: the bit at `start + i` becomes bit `i`. A shift of a 64-bit word
    by more than 63 is undefined. -/
def posBit (tth : TTHValue) (start : Nat) (x : UInt64) (i : Nat) : Option UInt64 :=
  (tth.toList[(start + i) / 8]?).bind fun byte =>
    if i < 64 then
      some (if byte &&& (1 <<< UInt8.ofNat ((start + i) % 8)) ≠ 0 then x ||| (1 <<< UInt64.ofNat i)
        else x)
    else none

/-- `pos` in a filter of the size. A modulus of zero is undefined. -/
def posIn (h : Nat) (tth : TTHValue) (size n : Nat) : Option Nat :=
  if (n + 1) * h > TTHValue.BITS then some 0
  else
    ((List.range h).foldlM (posBit tth (n * h)) 0).bind fun x =>
      if size = 0 then none else some (x.toNat % size)

def pos (b : HashBloom) (tth : TTHValue) (n : Nat) : Option Nat := posIn b.h tth b.bloom.length n

def add (b : HashBloom) (tth : TTHValue) : Option HashBloom :=
  (assignAll (posIn b.h tth) b.k b.bloom).map fun bloom => { b with bloom := bloom }

/-- `match` -/
def matches_ (b : HashBloom) (tth : TTHValue) : Option Bool :=
  if b.bloom.isEmpty then some false else allSet (posIn b.h tth) b.bloom (List.range b.k)

def push_back (b : HashBloom) (v : Bool) : HashBloom := { b with bloom := b.bloom ++ [v] }

/-- `resize` keeps the bits there are. -/
def reset (b : HashBloom) (k m h : Nat) : HashBloom :=
  { bloom := b.bloom.take m ++ List.replicate (m - b.bloom.length) false, k := k, h := h }

def copy_to (b : HashBloom) (v : List UInt8) : Option (List UInt8) :=
  packBits b.bloom (v.take (b.bloom.length / 8) ++
    List.replicate (b.bloom.length / 8 - v.length) 0)

/-- `ShareTree::getBloom`: the files of the profile are added. -/
def addAll (b : HashBloom) (tths : List TTHValue) : Option HashBloom := tths.foldlM add b

/-- The hub pushes back the bits of the bytes, the lowest bit of a byte first. -/
def rebuild (k h : Nat) (v : List UInt8) : HashBloom :=
  (v.flatMap lowBits).foldl push_back (reset {} k 0 h)

/-! ## What the hub may ask for -/

/-- What goes to the hub: a status of fatal severity, a command `SND`, or bytes. -/
inductive Sent
  | status (code : Nat) (text : Str)
  | snd (parameters : List Str)
  | data (v : List UInt8)
deriving DecidableEq, Repr

def ERROR_PROTOCOL_GENERIC : Nat := 40
def ERROR_TRANSFER_GENERIC : Nat := 50

/-- `Util::toUInt32` -/
def toUInt32 (s : Str) : Nat := (Util.toInt s % 2 ^ 32).toNat

/-- What the values of the parameters ask for: `k`, `m` and `h`, or an error. `maxM k` is the upper
    bound of `m`, five times the ideal size, which is computed with a logarithm. -/
def requested (maxM : Nat → Nat) (size sk sh : Str) : Except (Nat × Str) (Nat × Nat × Nat) :=
  let m := toUInt32 size * 8 % 2 ^ 32
  let k := toUInt32 sk
  let h := toUInt32 sh
  if k > 8 ∨ k < 1 then .error (ERROR_TRANSFER_GENERIC, str "Unsupported k")
  else if h > 64 ∨ h < 1 then .error (ERROR_TRANSFER_GENERIC, str "Unsupported h")
  else if m > maxM k ∨ h < 32 ∧ m > 2 ^ h then
    .error (ERROR_TRANSFER_GENERIC, str "Unsupported m")
  else .ok (k, m, h)

/-- The answer to what was requested. -/
def answer (tths : List TTHValue) (parameters : List Str) :
    Except (Nat × Str) (Nat × Nat × Nat) → Option (List Sent)
  | .error (code, text) => some [.status code text]
  | .ok (k, m, h) =>
    if m > 0 then
      ((reset {} k m h).addAll tths).bind fun bloom => (bloom.copy_to []).map fun v =>
        [.snd (parameters.take 5), .data v]
    else some [.snd (parameters.take 5)]

/-- `handle(GET)`, when the files of the hub's profile have the TTHs. -/
def handleGET (maxM : Nat → Nat) (tths : List TTHValue) (c : AdcCommand) : Option (List Sent) :=
  if c.parameters.length < 5 then
    some [if c.parameters.length > 0 then
      if c.parameters.getD 0 [] = str "blom" then
        .status ERROR_PROTOCOL_GENERIC (str "Too few parameters for blom")
      else .status ERROR_TRANSFER_GENERIC (str "Unknown transfer type")
    else .status ERROR_PROTOCOL_GENERIC (str "Too few parameters for GET")]
  else if c.parameters.getD 0 [] = str "blom" then
    match c.getParam (str "BK") 4, c.getParam (str "BH") 4 with
    | some sk, some sh =>
      answer tths c.parameters (requested maxM (c.parameters.getD 3 []) sk sh)
    | _, _ => some []
  else some []

/-- What is let through to `getBloom`. -/
structure Allowed (k m h : Nat) : Prop where
  k_pos : 1 ≤ k
  k_le : k ≤ 8
  h_pos : 1 ≤ h
  h_le : h ≤ 64
  m_pos : 0 < m
  m_dvd : 8 ∣ m

theorem requested_allowed {maxM : Nat → Nat} {size sk sh : Str} {k m h : Nat}
    (hok : requested maxM size sk sh = .ok (k, m, h)) (hm : 0 < m) : Allowed k m h := by
  unfold requested at hok
  simp only at hok
  split at hok
  · cases hok
  next hk =>
  split at hok
  · cases hok
  next hh =>
  split at hok
  · cases hok
  next =>
    simp only [Except.ok.injEq, Prod.mk.injEq] at hok
    obtain ⟨rfl, rfl, rfl⟩ := hok
    exact ⟨by omega, by omega, by omega, by omega, hm, by omega⟩

/-! ## Positions -/

variable {b c : HashBloom} {k m h size n : Nat} {tth x : TTHValue} {tths : List TTHValue}

/-- The bits of a window are bits of the TTH. -/
theorem window_some {start : Nat} (hh : h ≤ 64) (hend : start + h ≤ TTHValue.BITS) :
    ∃ x, (List.range h).foldlM (posBit tth start) 0 = some x := by
  obtain ⟨x, hx, -⟩ := foldlM_range (P := fun _ _ => True) (f := posBit tth start) (n := h)
    (b := 0) trivial fun i hi x _ => by
      have hlt : (start + i) / 8 < tth.toList.length := by
        rw [Vector.length_toList]
        rw [TTHValue.BITS] at hend
        omega
      have hshift : i < 64 := by omega
      exact ⟨_, by rw [posBit, List.getElem?_eq_getElem hlt, Option.bind_some, if_pos hshift],
        trivial⟩
  exact ⟨x, hx⟩

theorem posIn_lt (hh : h ≤ 64) (hsize : 0 < size) :
    ∃ p, posIn h tth size n = some p ∧ p < size := by
  unfold posIn
  split
  · exact ⟨0, rfl, hsize⟩
  · next hend =>
    have hend : n * h + h ≤ TTHValue.BITS := by
      rw [← Nat.succ_mul]
      exact Nat.not_lt.mp hend
    obtain ⟨x, hx⟩ := @window_some h tth (n * h) hh hend
    exact ⟨x.toNat % size, by rw [hx, Option.bind_some, if_neg hsize.ne'], Nat.mod_lt _ hsize⟩

/-- The position as a number. -/
def posAt (h : Nat) (tth : TTHValue) (size n : Nat) : Nat := (posIn h tth size n).getD 0

theorem posIn_eq (hh : h ≤ 64) (hsize : 0 < size) :
    posIn h tth size n = some (posAt h tth size n) ∧ posAt h tth size n < size := by
  obtain ⟨p, hp, hlt⟩ := @posIn_lt h size n tth hh hsize
  have hat : posAt h tth size n = p := by rw [posAt, hp, Option.getD_some]
  rw [hat]
  exact ⟨hp, hlt⟩

/-! ## Adding and matching -/

/-- A filter that can be used. -/
structure Usable (b : HashBloom) : Prop where
  size : 0 < b.bloom.length
  window : b.h ≤ 64

/-- All the bits of the TTH are set. -/
def Contains (b : HashBloom) (tth : TTHValue) : Prop :=
  ∀ i < b.k, Has b.bloom (posAt b.h tth b.bloom.length i)

/-- The same kind of filter, with more bits set. -/
structure Grown (b c : HashBloom) : Prop where
  k : c.k = b.k
  h : c.h = b.h
  length : c.bloom.length = b.bloom.length
  has : ∀ p, Has b.bloom p → Has c.bloom p

theorem Grown.refl : Grown b b := ⟨rfl, rfl, rfl, fun _ hp => hp⟩

theorem Grown.trans {d : HashBloom} (hbc : Grown b c) (hcd : Grown c d) : Grown b d :=
  ⟨hcd.k.trans hbc.k, hcd.h.trans hbc.h, hcd.length.trans hbc.length,
    fun p hp => hcd.has p (hbc.has p hp)⟩

theorem Grown.usable (hbc : Grown b c) (hb : b.Usable) : c.Usable :=
  ⟨hbc.length ▸ hb.size, hbc.h ▸ hb.window⟩

/-- What a filter contains, it contains when more bits are set. -/
theorem Grown.contains (hbc : Grown b c) (hb : b.Contains x) : c.Contains x := by
  intro i hi
  rw [hbc.k] at hi
  rw [hbc.h, hbc.length]
  exact hbc.has _ (hb i hi)

/-- **What is added is contained.** -/
theorem add_spec (hb : b.Usable) : ∃ c, b.add tth = some c ∧ Grown b c ∧ c.Contains tth := by
  obtain ⟨u, hu, hlen, hhas⟩ := @assignAll_spec b.bloom b.k (posIn b.h tth) _
    fun i _ => posIn_eq hb.window hb.size
  refine ⟨{ b with bloom := u }, by rw [add, hu, Option.map_some], ?_, fun i hi => ?_⟩
  · exact ⟨rfl, rfl, hlen, fun p hp => (hhas p).mpr (.inl hp)⟩
  · exact (hhas _).mpr (.inr ⟨i, hi, by rw [hlen]⟩)

/-- All that was added is contained, after any number of further additions. -/
theorem addAll_spec (hb : b.Usable) :
    ∃ c, b.addAll tths = some c ∧ Grown b c ∧ ∀ x ∈ tths, c.Contains x := by
  induction tths generalizing b with
  | nil => exact ⟨b, rfl, .refl, by simp⟩
  | cons y ys ih =>
    obtain ⟨c, hc, hbc, hy⟩ := @add_spec b y hb
    obtain ⟨d, hd, hcd, hys⟩ := ih (hbc.usable hb)
    refine ⟨d, ?_, hbc.trans hcd, List.forall_mem_cons.mpr ⟨hcd.contains hy, hys⟩⟩
    rw [addAll, List.foldlM_cons, hc]
    exact hd

/-- **The filter matches what it contains**, and nothing else. -/
theorem matches_spec (hb : b.Usable) : ∃ r, b.matches_ x = some r ∧ (r = true ↔ b.Contains x) := by
  have hne : b.bloom.isEmpty = false := by
    rw [List.isEmpty_eq_false_iff]
    exact List.length_pos_iff.mp hb.size
  obtain ⟨r, hr, hiff⟩ := @allSet_spec b.bloom (posIn b.h x) _ (List.range b.k)
    fun i _ => posIn_eq hb.window hb.size
  refine ⟨r, by rw [matches_, hne]; exact hr, ?_⟩
  rw [hiff]
  simp only [List.mem_range, Contains]

/-! ## The bytes -/

theorem length_reset : (b.reset k m h).bloom.length = m := by
  rw [reset, List.length_append, List.length_take, List.length_replicate]
  omega

theorem foldl_push_back (bits : List Bool) :
    bits.foldl push_back b = { b with bloom := b.bloom ++ bits } := by
  induction bits generalizing b with
  | nil => rw [List.foldl_nil, List.append_nil]
  | cons v vs ih =>
    rw [List.foldl_cons, ih, push_back, List.append_assoc]
    rfl

/-- **The filter is put together again** from its bytes. -/
theorem rebuild_copy_to (h8 : 8 ∣ b.bloom.length) :
    ∃ v, b.copy_to [] = some v ∧ rebuild b.k b.h v = b := by
  obtain ⟨v, hv, hbits⟩ := @packBits_spec b.bloom (b.bloom.length / 8)
    (Nat.mul_div_cancel' h8).symm
  refine ⟨v, by simpa [copy_to] using hv, ?_⟩
  rw [rebuild, hbits, foldl_push_back]
  rfl

theorem filter_spec (hallowed : Allowed k m h) (b : HashBloom) (tths : List TTHValue) :
    ∃ c v, (b.reset k m h).addAll tths = some c ∧ c.copy_to [] = some v ∧
      ∀ x, ∃ r, c.matches_ x = some r ∧ (rebuild k h v).matches_ x = some r ∧
        (x ∈ tths → r = true) := by
  have husable : (b.reset k m h).Usable :=
    ⟨by rw [length_reset]; exact hallowed.m_pos, hallowed.h_le⟩
  obtain ⟨c, hc, hgrown, hcontains⟩ := @addAll_spec _ tths husable
  have h8 : 8 ∣ c.bloom.length := by
    rw [hgrown.length, length_reset]
    exact hallowed.m_dvd
  obtain ⟨v, hv, hrebuild⟩ := rebuild_copy_to h8
  rw [hgrown.k, hgrown.h] at hrebuild
  refine ⟨c, v, hc, hv, fun x => ?_⟩
  obtain ⟨r, hr, hiff⟩ := matches_spec (x := x) (hgrown.usable husable)
  have hsame : rebuild k h v = c := hrebuild
  exact ⟨r, hr, by rw [hsame, hr], fun hx => hiff.mpr (hcontains x hx)⟩

/-- **The filter matches everything that was added**, before it is sent and after. Nothing that is
    read or written is out of range, for the TTHs that were not added as well. -/
theorem bloom_no_false_negatives (hallowed : Allowed k m h) (b : HashBloom) (tths : List TTHValue) :
    ∃ c v, (b.reset k m h).addAll tths = some c ∧ c.copy_to [] = some v ∧
      ∀ x, ∃ r, c.matches_ x = some r ∧ (rebuild k h v).matches_ x = some r ∧
        (x ∈ tths → r = true) :=
  filter_spec hallowed b tths

/-- **A request is answered without leaving a range**, and a filter that is sent matches every file
    that is shared when the hub has put it together. -/
theorem handleGET_data {maxM : Nat → Nat} {c : AdcCommand} (tths : List TTHValue) :
    ∃ sent, handleGET maxM tths c = some sent ∧
      ∀ v, .data v ∈ sent → ∃ k m h, Allowed k m h ∧
        ∀ x ∈ tths, (rebuild k h v).matches_ x = some true := by
  unfold handleGET
  split
  · refine ⟨_, rfl, fun v hv => absurd (List.mem_singleton.mp hv) ?_⟩
    split_ifs <;> nofun
  split
  · split
    next sk sh _ _ =>
      cases hreq : requested maxM (c.parameters.getD 3 []) sk sh with
      | error e => exact ⟨[.status e.1 e.2], rfl, by simp⟩
      | ok r =>
        obtain ⟨k, m, h⟩ := r
        rw [answer]
        split
        · next hm =>
          have hallowed := requested_allowed hreq hm
          obtain ⟨bloom, v, hbloom, hv, hmatch⟩ := filter_spec hallowed {} tths
          refine ⟨_, by rw [hbloom, Option.bind_some, hv, Option.map_some], fun w hw => ?_⟩
          obtain rfl : w = v := by simpa using hw
          refine ⟨k, m, h, hallowed, fun x hx => ?_⟩
          obtain ⟨r, -, hr, htrue⟩ := hmatch x
          rw [hr, htrue hx]
        · exact ⟨_, rfl, by simp⟩
    next => exact ⟨[], rfl, by simp⟩
  · exact ⟨[], rfl, by simp⟩

theorem bloom_no_false_negatives_small :
    ∃ c v, (HashBloom.reset {} 3 64 24).addAll [Vector.replicate 24 7] = some c ∧
      c.copy_to [] = some v ∧
      ∀ x, ∃ r, c.matches_ x = some r ∧ (rebuild 3 24 v).matches_ x = some r ∧
        (x ∈ [Vector.replicate 24 7] → r = true) :=
  bloom_no_false_negatives ⟨by decide, by decide, by decide, by decide, by decide, by decide⟩ {}
    [Vector.replicate 24 7]

end HashBloom
end Airdcpp
