import Mathlib.Data.List.Basic

/-!
# `Lib/BlockChaining` — messages of several blocks

A block cipher turns a block into another one of the same size, and back. For a message, each block
is mixed with the encrypted block before it, the first one with an initial block.

All of this can be undone if the mixing can (`decryptBlocks_encryptBlocks`), whatever the cipher.
-/

namespace Airdcpp
namespace Lib

/-- A cipher for blocks of `size` elements, with keys in `κ`. -/
structure BlockCipher (κ α : Type) (size : Nat) where
  enc : κ → List α → List α
  dec : κ → List α → List α
  length_enc : ∀ k s, s.length = size → (enc k s).length = size
  length_dec : ∀ k s, s.length = size → (dec k s).length = size
  dec_enc : ∀ k s, s.length = size → dec k (enc k s) = s

namespace BlockCipher

variable {κ α : Type} {size : Nat}

section
variable (C : BlockCipher κ α size) (mix : α → α → α) (key : κ)

/-- The first `n` blocks of a message. -/
def encryptBlocks : (n : Nat) → (last s : List α) → List α
  | 0, _, _ => []
  | n + 1, last, s =>
    let block := C.enc key (List.zipWith mix (s.take size) last)
    block ++ encryptBlocks n block (s.drop size)

def decryptBlocks : (n : Nat) → (last s : List α) → List α
  | 0, _, _ => []
  | n + 1, last, s =>
    List.zipWith mix (C.dec key (s.take size)) last ++ decryptBlocks n (s.take size) (s.drop size)

end

variable {C : BlockCipher κ α size} {mix : α → α → α} {key : κ} {last s : List α} {n : Nat}

theorem length_block (mix : α → α → α) (hs : n * size + size ≤ s.length)
    (hlast : last.length = size) :
    (List.zipWith mix (s.take size) last).length = size := by
  have hsize : size ≤ s.length := Nat.le_trans (Nat.le_add_left _ _) hs
  rw [List.length_zipWith, List.length_take, Nat.min_eq_left hsize, hlast, Nat.min_self]

theorem length_encryptBlocks (hs : n * size ≤ s.length) (hlast : last.length = size) :
    (C.encryptBlocks mix key n last s).length = n * size := by
  induction n generalizing last s with
  | zero => simp [encryptBlocks]
  | succ n ih =>
    rw [Nat.succ_mul] at hs ⊢
    have hblock := C.length_enc key _ (length_block mix hs hlast)
    rw [encryptBlocks, List.length_append, hblock, ih (by rw [List.length_drop]; omega) hblock,
      Nat.add_comm]

theorem length_decryptBlocks (hs : n * size ≤ s.length) (hlast : last.length = size) :
    (C.decryptBlocks mix key n last s).length = n * size := by
  induction n generalizing last s with
  | zero => simp [decryptBlocks]
  | succ n ih =>
    rw [Nat.succ_mul] at hs ⊢
    have htake : (s.take size).length = size := by
      rw [List.length_take, Nat.min_eq_left (Nat.le_trans (Nat.le_add_left _ _) hs)]
    rw [decryptBlocks, List.length_append, List.length_zipWith, C.length_dec key _ htake, hlast,
      Nat.min_self, ih (by rw [List.length_drop]; omega) htake, Nat.add_comm]

theorem zipWith_mix_mix (hmix : ∀ a b, mix (mix a b) b = a) {a b : List α}
    (h : a.length = b.length) :
    List.zipWith mix (List.zipWith mix a b) b = a := by
  induction a generalizing b with
  | nil => rfl
  | cons x a ih =>
    cases b with
    | nil => cases h
    | cons y b => simp [hmix, ih (Nat.succ.inj h)]

/-- **Decrypting what was encrypted**, from the same initial block; what stands behind the blocks
    does not matter. -/
theorem decryptBlocks_encryptBlocks (hmix : ∀ a b, mix (mix a b) b = a) (hs : n * size ≤ s.length)
    (hlast : last.length = size) (rest : List α) :
    C.decryptBlocks mix key n last (C.encryptBlocks mix key n last s ++ rest) =
      s.take (n * size) := by
  induction n generalizing last s with
  | zero => simp [decryptBlocks]
  | succ n ih =>
    rw [Nat.succ_mul] at hs
    have hlength := length_block mix hs hlast
    have hblock := C.length_enc key _ hlength
    have htake : (s.take size).length = last.length := by
      rw [List.length_take, hlast, Nat.min_eq_left (Nat.le_trans (Nat.le_add_left _ _) hs)]
    have hdrop : n * size ≤ (s.drop size).length := by
      rw [List.length_drop]
      exact Nat.le_sub_of_add_le hs
    rw [encryptBlocks, decryptBlocks, List.append_assoc, List.take_left' hblock,
      List.drop_left' hblock, C.dec_enc key _ hlength, zipWith_mix_mix hmix htake, ih hdrop hblock,
      Nat.succ_mul, Nat.add_comm, List.take_add]

end BlockCipher

end Lib
end Airdcpp
