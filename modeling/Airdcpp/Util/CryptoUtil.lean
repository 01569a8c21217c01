import Mathlib.Logic.Equiv.Basic
import Airdcpp.Util.Strings
import Airdcpp.Lib.BlockChaining
import Airdcpp.Lib.Cells

/-!
# `Util/CryptoUtil` — encrypted search results

A result that is sent over UDP can be encrypted with a key of the searcher. `encryptSUDP` puts a
random block before it and fills it up to whole blocks, with bytes that say how many they are; a
whole block of them is added if there is nothing to fill up. The receiver takes the number of the
last byte, checks that there are as many of it, and overwrites them with zeros: the command is then
a C string behind the first block.

The cipher is a parameter: all that is used of it is that it undoes what it has done. What a packet
decrypts to can be anything, and the sender may choose it.
-/

namespace Airdcpp

open Lib Lib.Cells

/-- The string that a pointer to these cells is. -/
def cString : Cells UInt8 → Option Str
  | [] => none
  | none :: _ => none
  | some b :: m => if b = 0 then some [] else do
    let s ← cString m
    some (b :: s)

namespace CryptoUtil

/-- AES with keys of 128 bits. -/
abbrev Cipher := BlockCipher Str UInt8 16

/-- `ivd` when it is zero -/
def zeroBlock : Str := List.replicate 16 0

def encryptSUDP (aes : Cipher) (aKey ivd aCmd : Str) : Str :=
  let pad := 16 - (aCmd.length &&& 15)
  let inData := ivd ++ aCmd ++ List.replicate pad pad.toUInt8
  aes.encryptBlocks (· ^^^ ·) aKey (inData.length / 16) zeroBlock inData

/-- The loop over the padding, from `r` on: `valid` and `out` -/
def checkPadding (aDataLen padlen : Nat) : (n r : Nat) → Cells UInt8 → Option (Bool × Cells UInt8)
  | 0, _, out => some (true, out)
  | n + 1, r, out => do
    let b ← out.read (subSizeT aDataLen padlen + r)
    if b.toNat ≠ padlen then some (false, out)
    else do
      let out ← out.write (subSizeT aDataLen padlen + r) 0
      checkPadding aDataLen padlen n (r + 1) out

/-- `decryptSUDP` behind the cipher -/
def readCommand (out : Cells UInt8) (aDataLen : Nat) (result_ : Str) : Option (Bool × Str) := do
  let padlen ← out.read (subSizeT aDataLen 1)
  if padlen.toNat < 1 ∨ 16 < padlen.toNat then some (false, result_)
  else do
    let (valid, out) ← checkPadding aDataLen padlen.toNat padlen.toNat 0 out
    if valid then do
      let result ← cString (out.drop 16)
      some (true, result)
    else some (false, result_)

def decryptSUDP (aes : Cipher) (aKey aData : Str) (aDataLen : Nat) (result_ : Str) :
    Option (Bool × Str) := do
  let plain := aes.decryptBlocks (· ^^^ ·) aKey (aDataLen / 16) zeroBlock aData
  let out ← (alloc aData.length).writeAll 0 plain
  readCommand out aDataLen result_

end CryptoUtil

/-- `SearchManager::decryptPacket` -/
def SearchManager.decryptPacket (aes : CryptoUtil.Cipher) (searchKeys : List Str) (x : Str)
    (aLen : Nat) (aBuf : Str) : Option (Bool × Str) :=
  searchKeys.reverse.foldlM (fun found key =>
    if found.1 then some found else CryptoUtil.decryptSUDP aes key aBuf aLen found.2) (false, x)

/-- What `UDPServer::handlePacket` takes for an encrypted packet. -/
def UDPServer.isEncrypted (aLen : Nat) : Prop := 32 ≤ aLen ∧ aLen &&& 15 = 0

namespace CryptoUtil

/-! ## The padding -/

variable {plain front rest s t result_ : Str} {b : UInt8} {n r k pad aDataLen : Nat}

theorem cString_filled (s t : Str) (m : Cells UInt8) :
    cString ((s ++ 0 :: t).map some ++ m) = some (s.takeWhile (· ≠ 0)) := by
  induction s with
  | nil => simp [cString]
  | cons b s ih =>
    by_cases hb : b = 0
    · simp [cString, hb]
    · rw [List.cons_append, List.map_cons, List.cons_append, cString, if_neg hb, ih,
        List.takeWhile_cons_of_pos (by simp [hb])]
      rfl

/-- The string behind the first block ends where the padding was. -/
theorem cString_zeros (hfront : 16 ≤ front.length) (hpad : 0 < pad) (k : Nat) :
    cString ((filled (front ++ List.replicate pad 0) k).drop 16) =
      some ((front.drop 16).takeWhile (· ≠ 0)) := by
  have hlength : 16 ≤ ((front ++ List.replicate pad 0).map some).length := by
    rw [List.length_map, List.length_append]
    exact Nat.le_add_right_of_le hfront
  rw [filled, List.drop_append_of_le_length hlength, ← List.map_drop,
    List.drop_append_of_le_length hfront, ← Nat.sub_add_cancel hpad, List.replicate_succ,
    cString_filled]

/-- Either a byte is another one, or all of the padding is zero in the end. -/
theorem checkPadding_eq (hlength : aDataLen = front.length + pad) (hr : r + t.length = pad) :
    ∃ valid out,
      checkPadding aDataLen pad t.length r (filled (front ++ List.replicate r 0 ++ t) k) =
        some (valid, out) ∧
      (valid = true ↔ ∀ b ∈ t, b.toNat = pad) ∧
      (valid = true → out = filled (front ++ List.replicate pad 0) k) := by
  have hsub : subSizeT aDataLen pad = front.length := by
    rw [subSizeT, hlength, if_pos (Nat.le_add_left _ _), Nat.add_sub_cancel]
  induction t generalizing r with
  | nil =>
    rw [List.length_nil, Nat.add_zero] at hr
    subst hr
    exact ⟨true, _, rfl, by simp, fun _ => by rw [List.append_nil]⟩
  | cons b t ih =>
    have hfront : (front ++ List.replicate r 0).length = front.length + r := by simp
    have hread : (filled (front ++ List.replicate r 0 ++ b :: t) k).read (front.length + r) =
        some b := by
      rw [← hfront]
      exact read_filled (by simp)
    rw [List.length_cons, checkPadding, hsub, hread]
    by_cases hb : b.toNat = pad
    · have hwrite : (filled (front ++ List.replicate r 0 ++ b :: t) k).write (front.length + r) 0 =
          some (filled (front ++ List.replicate (r + 1) 0 ++ t) k) := by
        rw [← hfront, write_filled_set (by simp), List.set_append_right _ _ (le_refl _),
          Nat.sub_self, List.set_cons_zero, List.replicate_succ']
        simp only [List.append_assoc, List.singleton_append]
      obtain ⟨valid, out, hcheck, hvalid, hout⟩ :=
        ih (r := r + 1) (by rw [List.length_cons] at hr; omega)
      refine ⟨valid, out, ?_, ?_, hout⟩
      · simp only [Option.bind_eq_bind, Option.bind_some, if_neg (not_not.mpr hb), hwrite]
        exact hcheck
      · simpa [hb] using hvalid
    · exact ⟨false, _, if_pos hb, by simp [hb], by simp⟩

/-- The command in what a packet decrypts to. -/
def command (plain : Str) (padlen : Nat) : Str :=
  ((plain.take (plain.length - padlen)).drop 16).takeWhile (· ≠ 0)

/-- **Reading the command**, whatever the packet decrypts to. -/
theorem readCommand_eq (hlength : 32 ≤ plain.length) (hlast : plain.getLast? = some b) (k : Nat)
    (result_ : Str) :
    readCommand (filled plain k) plain.length result_ =
      if 1 ≤ b.toNat ∧ b.toNat ≤ 16 ∧
          ∀ p ∈ plain.drop (plain.length - b.toNat), p.toNat = b.toNat then
        some (true, command plain b.toNat)
      else some (false, result_) := by
  have hsub : subSizeT plain.length 1 = plain.length - 1 := by
    rw [subSizeT, if_pos (by omega)]
  have hread : (filled plain k).read (subSizeT plain.length 1) = some b := by
    rw [hsub]
    exact read_filled (by rw [← List.getLast?_eq_getElem?, hlast])
  rw [readCommand, hread]
  by_cases hrange : b.toNat < 1 ∨ 16 < b.toNat
  · have hnot : ¬ (1 ≤ b.toNat ∧ b.toNat ≤ 16 ∧
        ∀ p ∈ plain.drop (plain.length - b.toNat), p.toNat = b.toNat) := by
      rintro ⟨hlow, hhigh, -⟩
      omega
    rw [if_neg hnot]
    exact if_pos hrange
  have hsplit := List.take_append_drop (plain.length - b.toNat) plain
  have hfront : (plain.take (plain.length - b.toNat)).length = plain.length - b.toNat := by
    rw [List.length_take, Nat.min_eq_left (Nat.sub_le _ _)]
  have hback : (plain.drop (plain.length - b.toNat)).length = b.toNat := by
    rw [List.length_drop]
    omega
  obtain ⟨valid, out, hcheck, hvalid, hout⟩ := @checkPadding_eq
    (plain.take (plain.length - b.toNat)) (plain.drop (plain.length - b.toNat)) 0 k b.toNat
    plain.length (by omega) (by omega)
  rw [hback, List.replicate_zero, List.append_nil, hsplit] at hcheck
  simp only [Option.bind_eq_bind, Option.bind_some, if_neg hrange, hcheck]
  cases valid with
  | false =>
    exact (if_neg fun h => absurd (hvalid.mpr h.2.2) Bool.false_ne_true).symm
  | true =>
    have hstring : cString (out.drop 16) = some (command plain b.toNat) := by
      rw [hout rfl]
      exact cString_zeros (by omega) (by omega) k
    simp only [if_true, hstring, Option.bind_some]
    exact (if_pos ⟨by omega, by omega, hvalid.mp rfl⟩).symm

/-! ## A packet -/

theorem and_fifteen (n : Nat) : n &&& 15 = n % 16 := Nat.and_two_pow_sub_one_eq_mod n 4

theorem xor_xor_self (a b : UInt8) : a ^^^ b ^^^ b = a := by
  rw [UInt8.xor_assoc, UInt8.xor_self, UInt8.xor_zero]

/-- The message that is encrypted. -/
def padded (ivd aCmd : Str) : Str :=
  let pad := 16 - (aCmd.length &&& 15)
  ivd ++ aCmd ++ List.replicate pad pad.toUInt8

variable {aes : Cipher} {aKey aData ivd aCmd x : Str}

theorem padded_blocks (hivd : ivd.length = 16) :
    32 ≤ (padded ivd aCmd).length ∧
      (padded ivd aCmd).length / 16 * 16 = (padded ivd aCmd).length := by
  simp only [padded, List.length_append, List.length_replicate, hivd, and_fifteen]
  omega

theorem length_encryptSUDP (hivd : ivd.length = 16) :
    (encryptSUDP aes aKey ivd aCmd).length = (padded ivd aCmd).length := by
  obtain ⟨-, hblocks⟩ := @padded_blocks ivd aCmd hivd
  exact (BlockCipher.length_encryptBlocks hblocks.le (List.length_replicate ..)).trans hblocks

theorem isEncrypted_encryptSUDP (hivd : ivd.length = 16) :
    UDPServer.isEncrypted (encryptSUDP aes aKey ivd aCmd).length := by
  obtain ⟨hlength, hblocks⟩ := @padded_blocks ivd aCmd hivd
  rw [UDPServer.isEncrypted, and_fifteen, length_encryptSUDP hivd]
  exact ⟨hlength, by omega⟩

/-- The last byte says how long the padding is. -/
theorem readCommand_padded (hivd : ivd.length = 16) (hcmd : 0 ∉ aCmd) (k : Nat) (result_ : Str) :
    readCommand (filled (padded ivd aCmd) k) (padded ivd aCmd).length result_ =
      some (true, aCmd) := by
  obtain ⟨pad, hpad⟩ : ∃ pad, pad = 16 - (aCmd.length &&& 15) := ⟨_, rfl⟩
  have hbounds : 1 ≤ pad ∧ pad ≤ 16 := by
    rw [hpad, and_fifteen]
    omega
  have hbyte : pad.toUInt8.toNat = pad := Nat.mod_eq_of_lt (by omega)
  have hsplit : padded ivd aCmd = ivd ++ aCmd ++ List.replicate pad pad.toUInt8 := by
    rw [padded, hpad]
  have hlast : (padded ivd aCmd).getLast? = some pad.toUInt8 := by
    rw [hsplit, List.getLast?_append, List.getLast?_replicate, if_neg (by omega)]
    rfl
  have hfront : (padded ivd aCmd).length - pad = (ivd ++ aCmd).length := by
    rw [hsplit, List.length_append, List.length_replicate, Nat.add_sub_cancel]
  have hpadding : ∀ p ∈ (padded ivd aCmd).drop (ivd ++ aCmd).length, p.toNat = pad := by
    intro p hp
    rw [hsplit, List.drop_left] at hp
    rw [List.eq_of_mem_replicate hp, hbyte]
  have hcommand : command (padded ivd aCmd) pad = aCmd := by
    rw [command, hfront, hsplit, List.take_left, List.drop_left' hivd, List.takeWhile_eq_self_iff]
    intro b hb
    have hne : b ≠ 0 := fun h => hcmd (h ▸ hb)
    simp [hne]
  rw [readCommand_eq (padded_blocks hivd).1 hlast, hbyte, hfront,
    if_pos ⟨hbounds.1, hbounds.2, hpadding⟩, hcommand]

/-- The cells that the cipher writes. -/
theorem decryptSUDP_eq (haData : aDataLen ≤ aData.length) (hblocks : aDataLen &&& 15 = 0) :
    ∃ plain : Str, plain.length = aDataLen ∧
      plain = aes.decryptBlocks (· ^^^ ·) aKey (aDataLen / 16) zeroBlock aData ∧
      decryptSUDP aes aKey aData aDataLen result_ =
        readCommand (filled plain (aData.length - aDataLen)) aDataLen result_ := by
  rw [and_fifteen] at hblocks
  have hwhole : aDataLen / 16 * 16 = aDataLen := by omega
  have hplain := @BlockCipher.length_decryptBlocks _ _ _ aes (· ^^^ ·) aKey zeroBlock aData
    (aDataLen / 16) (by omega) (List.length_replicate ..)
  rw [hwhole] at hplain
  refine ⟨_, hplain, rfl, ?_⟩
  have hwrite := writeAll_filled []
    (aes.decryptBlocks (· ^^^ ·) aKey (aDataLen / 16) zeroBlock aData) (aData.length - aDataLen)
  rw [hplain, Nat.add_sub_cancel' haData] at hwrite
  rw [decryptSUDP, alloc_eq]
  exact congrArg (Option.bind · _) hwrite

/-- No packet that is taken for an encrypted one leads out of the buffer. -/
theorem readCommand_total (htest : UDPServer.isEncrypted plain.length) (k : Nat) (result_ : Str) :
    ∃ valid result, readCommand (filled plain k) plain.length result_ = some (valid, result) ∧
      (valid = false → result = result_) := by
  obtain ⟨b, hb⟩ : ∃ b, plain.getLast? = some b := by
    rw [← Option.isSome_iff_exists, List.getLast?_isSome, ← List.length_pos_iff]
    exact lt_of_lt_of_le (by decide) htest.1
  rw [readCommand_eq htest.1 hb]
  split
  · exact ⟨true, _, rfl, fun h => Bool.noConfusion h⟩
  · exact ⟨false, _, rfl, fun _ => rfl⟩

/-- All keys are tried on the packet as it came. -/
theorem decryptPacket_total (aes : Cipher) (searchKeys : List Str)
    (htest : UDPServer.isEncrypted aDataLen) (haData : aDataLen ≤ aData.length) (x : Str) :
    ∃ found result, SearchManager.decryptPacket aes searchKeys x aDataLen aData =
      some (found, result) ∧ (found = false → result = x) := by
  rw [SearchManager.decryptPacket]
  generalize searchKeys.reverse = keys
  have hrun : ∀ found result, (found = false → result = x) → ∃ found' result',
      keys.foldlM (fun found key => if found.1 then some found
        else decryptSUDP aes key aData aDataLen found.2) (found, result) = some (found', result') ∧
      (found' = false → result' = x) := by
    induction keys with
    | nil => exact fun found result h => ⟨found, result, rfl, h⟩
    | cons key keys ih =>
      intro found result h
      cases found with
      | true => exact ih true result h
      | false =>
        obtain ⟨plain, hlength, -, hdecrypt⟩ :=
          @decryptSUDP_eq result aDataLen aes key aData haData htest.2
        obtain ⟨valid, result', hread, hunchanged⟩ := @readCommand_total plain (hlength ▸ htest)
          (aData.length - aDataLen) result
        rw [hlength] at hread
        obtain ⟨found', result'', hrest, hend⟩ :=
          ih valid result' fun hvalid => (hunchanged hvalid).trans (h rfl)
        refine ⟨found', result'', ?_, hend⟩
        rw [List.foldlM_cons, if_neg Bool.false_ne_true, hdecrypt, hread]
        exact hrest
  exact hrun false x fun _ => rfl

/-- **Encrypted search results**: what was encrypted is decrypted again, from the front of any
    buffer; and whatever a packet decrypts to, no cell outside of the buffer is touched and the
    result is only changed if there is a command. -/
theorem sudp_correct (aes : Cipher) (aKey : Str) :
    (∀ ivd aCmd rest result_, ivd.length = 16 → 0 ∉ aCmd →
      UDPServer.isEncrypted (encryptSUDP aes aKey ivd aCmd).length ∧
      decryptSUDP aes aKey (encryptSUDP aes aKey ivd aCmd ++ rest)
        (encryptSUDP aes aKey ivd aCmd).length result_ = some (true, aCmd)) ∧
    (∀ aData aDataLen result_, UDPServer.isEncrypted aDataLen → aDataLen ≤ aData.length →
      (∃ plain : Str, plain.length = aDataLen ∧ decryptSUDP aes aKey aData aDataLen result_ =
        readCommand (filled plain (aData.length - aDataLen)) aDataLen result_) ∧
      ∀ plain : Str, plain.length = aDataLen → ∃ valid result,
        readCommand (filled plain (aData.length - aDataLen)) aDataLen result_ =
          some (valid, result) ∧
        (valid = false → result = result_)) := by
  refine ⟨fun ivd aCmd rest result_ hivd hcmd => ⟨isEncrypted_encryptSUDP hivd, ?_⟩, ?_⟩
  · have hlength := @length_encryptSUDP aes aKey ivd aCmd hivd
    have htest := (@isEncrypted_encryptSUDP aes aKey ivd aCmd hivd).2
    obtain ⟨plain, -, hplain, hdecrypt⟩ := @decryptSUDP_eq
      result_ (encryptSUDP aes aKey ivd aCmd).length aes aKey
        (encryptSUDP aes aKey ivd aCmd ++ rest)
      (by simp) htest
    obtain ⟨-, hblocks⟩ := @padded_blocks ivd aCmd hivd
    have hround : plain = padded ivd aCmd := by
      rw [hplain, hlength]
      have hdecrypted := @BlockCipher.decryptBlocks_encryptBlocks _ _ _ aes (· ^^^ ·) aKey zeroBlock
        _ _ xor_xor_self hblocks.le (List.length_replicate ..) rest
      exact hdecrypted.trans (by rw [hblocks, List.take_length])
    rw [hdecrypt, hround, hlength]
    exact readCommand_padded hivd hcmd _ _
  · intro aData aDataLen result_ htest haData
    obtain ⟨plain, hlength, -, hdecrypt⟩ := @decryptSUDP_eq result_ aDataLen aes aKey aData haData
      htest.2
    refine ⟨⟨plain, hlength, hdecrypt⟩, ?_⟩
    intro plain hlength
    have htotal := @readCommand_total plain (hlength ▸ htest) (aData.length - aDataLen) result_
    rwa [hlength] at htotal

/-- Two blocks of a message. -/
def firstBlock : Str :=
  [0x00, 0x11, 0x22, 0x33, 0x44, 0x55, 0x66, 0x77, 0x88, 0x99, 0xaa, 0xbb, 0xcc, 0xdd, 0xee, 0xff]
def secondBlock : Str :=
  [0x3c, 0x96, 0xa5, 0x8b, 0x4a, 0x28, 0x48, 0x08, 0xd0, 0xc5, 0xbf, 0x88, 0x78, 0xbc, 0xcd, 0x52]

def recordedKey : Str := (List.range 16).map Nat.toUInt8

/-- What AES makes of them with this key. -/
def firstResult : Str :=
  [0x69, 0xc4, 0xe0, 0xd8, 0x6a, 0x7b, 0x04, 0x30, 0xd8, 0xcd, 0xb7, 0x80, 0x70, 0xb4, 0xc5, 0x5a]
def secondResult : Str :=
  [0x5c, 0x93, 0xbf, 0x71, 0x30, 0xd0, 0xc3, 0x2e, 0xc0, 0x3b, 0x52, 0xc0, 0x49, 0xf4, 0x14, 0x86]

theorem length_swap {a b : Str} (ha : a.length = n) (hb : b.length = n) (hs : s.length = n) :
    (Equiv.swap a b s).length = n := by
  rw [Equiv.swap_apply_def]
  split
  · exact hb
  · split
    · exact ha
    · exact hs

/-- A cipher that does the same with these blocks. -/
def recorded : Cipher where
  enc _ block := Equiv.swap firstBlock firstResult (Equiv.swap secondBlock secondResult block)
  dec _ block := Equiv.swap secondBlock secondResult (Equiv.swap firstBlock firstResult block)
  length_enc _ _ hs := length_swap rfl rfl (length_swap rfl rfl hs)
  length_dec _ _ hs := length_swap rfl rfl (length_swap rfl rfl hs)
  dec_enc _ _ _ := by rw [Equiv.swap_apply_self, Equiv.swap_apply_self]

/-- A packet of two blocks. -/
def recordedPacket : Str := encryptSUDP recorded recordedKey firstBlock (str "URES SL8")

theorem sudp_correct_recorded :
    recordedPacket = firstResult ++ secondResult ∧
    (UDPServer.isEncrypted recordedPacket.length ∧
      decryptSUDP recorded recordedKey (recordedPacket ++ [7]) recordedPacket.length [] =
        some (true, str "URES SL8")) ∧
      ∃ valid result, readCommand (filled (List.replicate 32 7) 0) 32 [1] = some (valid, result) ∧
        (valid = false → result = [1]) :=
  have h := sudp_correct recorded recordedKey
  ⟨by decide +kernel, h.1 firstBlock (str "URES SL8") [7] [] rfl (by decide),
    (h.2 (List.replicate 32 7) 32 [1] ⟨by decide, by decide⟩ (le_refl 32)).2
      (List.replicate 32 7) rfl⟩

end CryptoUtil

end Airdcpp
