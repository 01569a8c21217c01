import Airdcpp.Lib.Loop

/-!
# `Lib/Scan` — searching with skips

A search that walks over the positions below `stop` and skips some of them: where it finds nothing,
it goes on `shift t` positions further (`round`). The skips are safe when nothing is found in
between and each goes forward (`SafeSkip`), and then the search returns the first position there is
(`run_round`). It never returns a position before the one it begins at, so that a skip over a
position that is searched for is not made good again (`Returns.found_of`).
-/

namespace Airdcpp
namespace Scan

open Loop

variable {found : Nat → Bool} {shift : Nat → Nat} {stop t u n : Nat} {r : Option Nat}

/-- One round of the search. -/
def round (found : Nat → Bool) (shift : Nat → Nat) (stop t : Nat) : Option (Option Nat ⊕ Nat) :=
  if t < stop then if found t then some (.inl (some t)) else some (.inr (t + shift t))
  else some (.inl none)

/-- A skip goes forward, and over nothing that is searched for. -/
def SafeSkip (found : Nat → Bool) (shift : Nat → Nat) (stop : Nat) : Prop :=
  ∀ t < stop, found t = false →
    0 < shift t ∧ ∀ u, t < u → u < t + shift t → u < stop → found u = false

/-- `r` is the first position from `t` on, or there is none. -/
def IsFirst (found : Nat → Bool) (stop t : Nat) : Option Nat → Prop
  | some u => t ≤ u ∧ u < stop ∧ found u = true ∧ ∀ v, t ≤ v → v < u → found v = false
  | none => ∀ v, t ≤ v → v < stop → found v = false

/-- What is not found before a later position is not missed by going on there. -/
theorem IsFirst.of_later (h : IsFirst found stop u r) (htu : t ≤ u)
    (hskip : ∀ v, t ≤ v → v < u → v < stop → found v = false) : IsFirst found stop t r := by
  cases r with
  | none =>
    intro v htv hv
    by_cases hvu : v < u
    · exact hskip v htv hvu hv
    · exact h v (Nat.le_of_not_lt hvu) hv
  | some w =>
    obtain ⟨huw, hw, hfound, hfirst⟩ := h
    refine ⟨Nat.le_trans htu huw, hw, hfound, fun v htv hvw => ?_⟩
    by_cases hvu : v < u
    · exact hskip v htv hvu (Nat.lt_trans hvw hw)
    · exact hfirst v (Nat.le_of_not_lt hvu) hvw

/-- The first position is unique. -/
theorem IsFirst.unique {r' : Option Nat} (h : IsFirst found stop t r)
    (h' : IsFirst found stop t r') :
    r = r' := by
  cases r with
  | none =>
    cases r' with
    | none => rfl
    | some v =>
      obtain ⟨htv, hv, hfound, -⟩ := h'
      exact absurd hfound (by rw [h v htv hv]; decide)
  | some u =>
    obtain ⟨htu, hu, hfound, hfirst⟩ := h
    cases r' with
    | none => exact absurd hfound (by rw [h' u htu hu]; decide)
    | some v =>
      obtain ⟨htv, hv, hfound', hfirst'⟩ := h'
      rcases Nat.lt_trichotomy u v with hlt | rfl | hlt
      · exact absurd hfound (by rw [hfirst' u htu hlt]; decide)
      · rfl
      · exact absurd hfound' (by rw [hfirst v htv hlt]; decide)

/-- **A search with safe skips returns the first position.** -/
theorem run_round (hsafe : SafeSkip found shift stop) (hn : stop - t < n) :
    ∃ r, run (round found shift stop) n t = some r ∧ IsFirst found stop t r := by
  induction n generalizing t with
  | zero => exact absurd hn (Nat.not_lt_zero _)
  | succ n ih =>
    by_cases ht : t < stop
    · cases hfound : found t with
      | true =>
        have hround : round found shift stop t = some (.inl (some t)) := by
          rw [round, if_pos ht, if_pos hfound]
        refine ⟨some t, run_succ_of_return hround, le_rfl, ht, hfound, fun v htv hvt => ?_⟩
        exact absurd hvt (Nat.not_lt.mpr htv)
      | false =>
        have hround : round found shift stop t = some (.inr (t + shift t)) := by
          rw [round, if_pos ht, if_neg (by rw [hfound]; decide)]
        obtain ⟨hpos, hskip⟩ := hsafe t ht hfound
        obtain ⟨r, hr, hfirst⟩ := ih (t := t + shift t) (by omega)
        refine ⟨r, by rwa [run_succ_of_next hround], hfirst.of_later (by omega) ?_⟩
        intro v htv hvu hv
        rcases Nat.eq_or_lt_of_le htv with rfl | htv
        · exact hfound
        · exact hskip v htv hvu hv
    · have hround : round found shift stop t = some (.inl none) := by rw [round, if_neg ht]
      exact ⟨none, run_succ_of_return hround, fun v htv hv => absurd hv (by omega)⟩

/-- What a search returns is found there, and not before the position it begins at. -/
theorem Returns.found_of (h : Returns (round found shift stop) t r) :
    ∀ u ∈ r, t ≤ u ∧ u < stop ∧ found u = true := by
  refine Loop.Returns.induct (P := fun s => t ≤ s)
    (Q := fun r => ∀ u ∈ r, t ≤ u ∧ u < stop ∧ found u = true) ?_ ?_ h le_rfl
  · intro s s' hs hnext
    rw [Next, round] at hnext
    split at hnext
    · split at hnext
      · cases hnext
      · obtain rfl := Sum.inr.inj (Option.some.inj hnext)
        exact Nat.le_trans hs (Nat.le_add_right s _)
    · cases hnext
  · intro s x hs hret
    rw [round] at hret
    split at hret
    · next hstop =>
      split at hret
      · next hfound =>
        obtain rfl := Sum.inl.inj (Option.some.inj hret)
        intro u hu
        obtain rfl := Option.some.inj hu
        exact ⟨hs, hstop, hfound⟩
      · cases hret
    · obtain rfl := Sum.inl.inj (Option.some.inj hret)
      intro u hu
      cases hu

end Scan
end Airdcpp
