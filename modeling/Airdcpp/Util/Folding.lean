import Airdcpp.Util.NoCaseBounds

/-!
# `Util/Folding` — folded strings

`foldCase` takes one sequence after the other, good or bad. A sequence ends in front of a byte that
cannot belong to it, whatever there is in front of that byte, so the parts of a string are folded
one after the other (`foldCase_append`).
-/

namespace Airdcpp
namespace Util

open Text

variable {locale : Locale} {s t : Str}

/-- The loop over the bytes of a sequence does not see what follows a byte that is none of them. -/
theorem utf8Tail_append {bytes k c : Nat} (ht : tailBits (t.getD 0 0) = none) (hk : k < bytes)
    (hle : bytes - k ≤ s.length) : utf8Tail (s ++ t) bytes k c = utf8Tail s bytes k c := by
  induction k generalizing c with
  | zero => rfl
  | succ k ih =>
    rw [utf8Tail_cons, utf8Tail_cons]
    rcases Nat.lt_or_eq_of_le hle with hlt | heq
    · have hbyte : (s ++ t).getD (bytes - (k + 1)) 0 = s.getD (bytes - (k + 1)) 0 := by
        rw [List.getD_append _ _ _ _ hlt]
      rw [hbyte]
      cases hbits : tailBits (s.getD (bytes - (k + 1)) 0) with
      | none => rfl
      | some a => exact ih (by omega) (by omega)
    · have hend : s.getD (bytes - (k + 1)) 0 = 0 := by simp [heq]
      have hbyte : (s ++ t).getD (bytes - (k + 1)) 0 = t.getD 0 0 := by
        rw [heq, List.getD_append_right _ _ _ _ le_rfl, Nat.sub_self]
      rw [hbyte, hend, ht, tailBits_zero]

theorem utf8ToWc_append {b : UInt8} (ht : tailBits (t.getD 0 0) = none) :
    utf8ToWc (b :: s ++ t) = utf8ToWc (b :: s) := by
  rw [utf8ToWc, utf8ToWc, List.cons_append, utf8ToWcFrom_cons, utf8ToWcFrom_cons]
  cases hlead : lead b with
  | none => rfl
  | some p =>
    obtain ⟨bytes, a⟩ := p
    have hpos : 1 ≤ bytes := by
      rcases lead_eq_some hlead with ⟨rfl, -⟩ | ⟨rfl, -⟩ | ⟨rfl, -⟩ | ⟨rfl, -⟩ <;> decide
    have htail := @utf8Tail_append (b :: s) t bytes (bytes - 1) a ht (by omega)
      (by rw [Nat.sub_sub_self hpos]; simp)
    simp only [readTail]
    rw [← List.cons_append, htail]

theorem foldFrom_drop (k : Nat) (s : Str) : foldFrom locale k s = foldCase locale (s.drop k) := by
  induction k generalizing s with
  | zero => rfl
  | succ k ih =>
    cases s with
    | nil => rfl
    | cons c s => exact ih s

/-- The characters in lower case, one after the other. -/
theorem foldCase_step {b : UInt8} (hb : b ≠ 0) (s : Str) :
    foldCase locale (b :: s) = locale.towlower (utf8ToWc (b :: s)).2 ::
      foldCase locale ((b :: s).drop (utf8ToWc (b :: s)).1.natAbs) := by
  obtain ⟨n, hn⟩ := Nat.exists_eq_add_of_le' (utf8ToWc_length b s).1
  rw [foldCase, foldFrom, if_neg hb]
  dsimp only
  rw [foldFrom_drop, hn]
  rfl

/-- **Strings without a null byte are folded one after the other**, if the second one does not begin
    with a byte that belongs to a sequence. -/
theorem foldCase_append (hs : 0 ∉ s) (ht : tailBits (t.getD 0 0) = none) :
    foldCase locale (s ++ t) = foldCase locale s ++ foldCase locale t := by
  induction s using sequence_induction with
  | nil => rfl
  | cons b s ih =>
    have hb : b ≠ 0 := fun h => hs (h ▸ List.mem_cons_self)
    have hle := (utf8ToWc_length b s).2
    have hwhole : foldCase locale (b :: s ++ t) = _ := foldCase_step hb (s ++ t)
    rw [hwhole, foldCase_step hb, ← List.cons_append, utf8ToWc_append ht,
      List.drop_append_of_le_length hle, ih fun h => hs (List.mem_of_mem_drop h), List.cons_append]

/-- ASCII characters are their own code points. -/
theorem foldCase_ascii (hs : ∀ c ∈ s, c.toNat < 0x80 ∧ c ≠ 0) :
    foldCase locale s = s.map fun c => locale.towlower c.toNat := by
  induction s with
  | nil => rfl
  | cons c s ih =>
    obtain ⟨hc, hne⟩ := hs c List.mem_cons_self
    have hw : utf8ToWc (c :: s) = (1, c.toNat) := utf8ToWcFrom_ascii 0 hc s
    rw [foldCase_step hne, hw, List.map_cons, ← ih fun d hd => hs d (List.mem_cons_of_mem _ hd)]
    rfl

end Util
end Airdcpp
