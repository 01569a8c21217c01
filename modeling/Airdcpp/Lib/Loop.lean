import Mathlib

/-!
# `Lib/Loop` — loops that may not end

A `while (true)` loop as the function `body` that one round of it computes: the round returns
(`inl`), or the loop goes on from another state (`inr`), or the round itself does not end
(`none`). `run n` gives the loop `n` rounds, and `Returns` says that enough rounds give a result.

A loop ends unless some round goes on from the very state it began in, if every other round
makes a measure smaller (`halts_iff`). That is what the loops of a reader look like: a round
takes something from its buffer, or it will never take anything.
-/

namespace Airdcpp
namespace Loop

variable {σ ρ : Type*} {body : σ → Option (ρ ⊕ σ)} {s t : σ} {x y : ρ} {m n : Nat}

/-- `n` rounds of the loop at most. -/
def run (body : σ → Option (ρ ⊕ σ)) : Nat → σ → Option ρ
  | 0, _ => none
  | n + 1, s =>
    match body s with
    | none => none
    | some (.inl x) => some x
    | some (.inr t) => run body n t

/-- The loop returns `x` when it is begun in `s`. -/
def Returns (body : σ → Option (ρ ⊕ σ)) (s : σ) (x : ρ) : Prop := ∃ n, run body n s = some x

/-- The loop ends. -/
def Halts (body : σ → Option (ρ ⊕ σ)) (s : σ) : Prop := ∃ x, Returns body s x

/-- One round that goes on. -/
def Next (body : σ → Option (ρ ⊕ σ)) (s t : σ) : Prop := body s = some (.inr t)

/-- Some rounds. -/
abbrev Steps (body : σ → Option (ρ ⊕ σ)) : σ → σ → Prop := Relation.ReflTransGen (Next body)

/-! ## Rounds -/

theorem run_succ_of_next (h : Next body s t) : run body (n + 1) s = run body n t := by
  rw [run, h]

theorem run_succ_of_return (h : body s = some (.inl x)) : run body (n + 1) s = some x := by
  rw [run, h]

theorem run_succ_of_none (h : body s = none) : run body n s = none := by
  cases n with
  | zero => rfl
  | succ n => rw [run, h]

/-- More rounds than enough change nothing. -/
theorem run_mono (h : run body m s = some x) (hle : m ≤ n) : run body n s = some x := by
  induction m generalizing s n with
  | zero => cases h
  | succ m ih =>
    obtain ⟨n, rfl⟩ := Nat.exists_eq_add_of_le' (Nat.le_trans (Nat.succ_le_succ m.zero_le) hle)
    rw [run] at h ⊢
    cases hb : body s with
    | none => rw [hb] at h; cases h
    | some b =>
      rw [hb] at h
      cases b with
      | inl y => exact h
      | inr t => exact ih h (Nat.le_of_succ_le_succ hle)

theorem Returns.unique (hx : Returns body s x) (hy : Returns body s y) : x = y := by
  obtain ⟨m, hm⟩ := hx
  obtain ⟨n, hn⟩ := hy
  have hm' := run_mono hm (Nat.le_max_left m n)
  rw [run_mono hn (Nat.le_max_right m n), Option.some.injEq] at hm'
  exact hm'.symm

theorem returns_of_return (h : body s = some (.inl x)) : Returns body s x :=
  ⟨1, run_succ_of_return h⟩

/-- What a loop returns does not change on the way. -/
theorem returns_iff_of_next (h : Next body s t) : Returns body s x ↔ Returns body t x := by
  constructor
  · intro hs
    obtain ⟨n, hn⟩ := hs
    cases n with
    | zero => cases hn
    | succ n => exact ⟨n, by rwa [run_succ_of_next h] at hn⟩
  · intro ht
    obtain ⟨n, hn⟩ := ht
    exact ⟨n + 1, by rwa [run_succ_of_next h]⟩

theorem returns_iff_of_steps (h : Steps body s t) : Returns body s x ↔ Returns body t x := by
  induction h with
  | refl => exact Iff.rfl
  | tail _ hnext ih => exact ih.trans (returns_iff_of_next hnext)

/-- What every round keeps holds when the loop returns. -/
theorem Returns.induct {P : σ → Prop} {Q : ρ → Prop} (hnext : ∀ s t, P s → Next body s t → P t)
    (hreturn : ∀ s x, P s → body s = some (.inl x) → Q x) (h : Returns body s x) (hs : P s) :
    Q x := by
  obtain ⟨n, hn⟩ := h
  induction n generalizing s with
  | zero => cases hn
  | succ n ih =>
    rw [run] at hn
    cases hb : body s with
    | none => rw [hb] at hn; cases hn
    | some b =>
      rw [hb] at hn
      cases b with
      | inl y =>
        cases hn
        exact hreturn s _ hs hb
      | inr t => exact ih (hnext s t hs hb) hn

/-- Two states from which the next round does the same. -/
theorem run_congr (h : body s = body t) : run body n s = run body n t := by
  cases n with
  | zero => rfl
  | succ n => rw [run, run, h]

/-! ## Ending -/

/-- **Total correctness.** A loop whose rounds keep `P`, go down in a well-founded relation and
    return only what satisfies `Q` ends with something that satisfies `Q`. -/
theorem exists_returns {P : σ → Prop} {Q : ρ → Prop} {r : σ → σ → Prop} (hwf : WellFounded r)
    (hround : ∀ s, P s →
      (∃ x, body s = some (.inl x) ∧ Q x) ∨ ∃ t, Next body s t ∧ P t ∧ r t s) (hs : P s) :
    ∃ x, Returns body s x ∧ Q x := by
  induction s using hwf.induction with
  | _ s ih =>
    cases hround s hs with
    | inl h =>
      obtain ⟨x, hx, hQ⟩ := h
      exact ⟨x, returns_of_return hx, hQ⟩
    | inr h =>
      obtain ⟨t, hnext, ht, hr⟩ := h
      obtain ⟨x, hx, hQ⟩ := ih t hr ht
      exact ⟨x, (returns_iff_of_next hnext).mpr hx, hQ⟩

/-- The relation of two measures, the first of which decides. -/
theorem wellFounded_lex (f g : σ → Nat) :
    WellFounded fun t s => f t < f s ∨ f t = f s ∧ g t < g s := by
  refine Subrelation.wf ?_ (InvImage.wf (fun s => (f s, g s))
    (WellFounded.prod_lex Nat.lt_wfRel.wf Nat.lt_wfRel.wf))
  intro t s h
  cases h with
  | inl hlt => exact Prod.Lex.left _ _ hlt
  | inr heq =>
    show Prod.Lex _ _ (f t, g t) (f s, g s)
    rw [heq.1]
    exact Prod.Lex.right _ heq.2

/-- Where every round goes on, the loop goes on for ever. -/
theorem not_halts_of_progress {P : σ → Prop} (hnext : ∀ s, P s → ∃ t, Next body s t ∧ P t)
    (hs : P s) :
    ¬ Halts body s := by
  intro hhalts
  obtain ⟨x, n, hn⟩ := hhalts
  induction n generalizing s with
  | zero => cases hn
  | succ n ih =>
    obtain ⟨t, hst, ht⟩ := hnext s hs
    exact ih ht (by rwa [run_succ_of_next hst] at hn)

/-- So does a round that goes on from the state it began in. -/
theorem not_halts_of_next_self (h : Next body s s) : ¬ Halts body s := by
  refine @not_halts_of_progress _ _ body s (fun t => t = s) ?_ rfl
  rintro t rfl
  exact ⟨t, h, rfl⟩

theorem not_halts_of_none (h : body s = none) : ¬ Halts body s := by
  intro hs
  obtain ⟨x, n, hn⟩ := hs
  rw [run_succ_of_none h] at hn
  cases hn

section Measure

variable (μ : σ → Nat) (Stuck : σ → Prop)

/-- Rounds that are not stuck make `μ` smaller, so there are at most `μ s + 1` of them. -/
theorem run_of_not_stuck (hbody : ∀ s, ¬ Stuck s → body s ≠ none)
    (hdec : ∀ s t, ¬ Stuck s → Next body s t → μ t < μ s)
    (h : ¬ ∃ t, Steps body s t ∧ Stuck t) (hn : μ s < n) : ∃ x, run body n s = some x := by
  induction n generalizing s with
  | zero => exact absurd hn (Nat.not_lt_zero _)
  | succ n ih =>
    have hs : ¬ Stuck s := fun hs => h ⟨s, .refl, hs⟩
    cases hb : body s with
    | none => exact absurd hb (hbody s hs)
    | some b =>
      cases b with
      | inl x => exact ⟨x, run_succ_of_return hb⟩
      | inr t =>
        rw [run_succ_of_next hb]
        apply ih
        · intro ht
          obtain ⟨u, hu, hstuck⟩ := ht
          exact h ⟨u, .head hb hu, hstuck⟩
        · exact Nat.lt_of_lt_of_le (hdec s t hs hb) (Nat.le_of_lt_succ hn)

/-- **A loop ends exactly when it never gets stuck.** -/
theorem halts_iff (hbody : ∀ s, ¬ Stuck s → body s ≠ none)
    (hdec : ∀ s t, ¬ Stuck s → Next body s t → μ t < μ s)
    (hstuck : ∀ s, Stuck s → ¬ Halts body s) :
    Halts body s ↔ ¬ ∃ t, Steps body s t ∧ Stuck t := by
  constructor
  · intro hs ht
    obtain ⟨x, hx⟩ := hs
    obtain ⟨t, hst, ht⟩ := ht
    exact hstuck t ht ⟨x, (returns_iff_of_steps hst).mp hx⟩
  · intro h
    obtain ⟨x, hx⟩ := run_of_not_stuck μ Stuck hbody hdec h (Nat.lt_succ_self (μ s))
    exact ⟨x, _, hx⟩

/-- The bound `μ s + 1` is as good as any. -/
theorem run_eq_some_iff (hbody : ∀ s, ¬ Stuck s → body s ≠ none)
    (hdec : ∀ s t, ¬ Stuck s → Next body s t → μ t < μ s)
    (hstuck : ∀ s, Stuck s → ¬ Halts body s) (hn : μ s < n) :
    run body n s = some x ↔ Returns body s x := by
  constructor
  · intro h
    exact ⟨n, h⟩
  · intro h
    have hfree := (halts_iff μ Stuck hbody hdec hstuck).mp ⟨x, h⟩
    obtain ⟨y, hy⟩ := run_of_not_stuck μ Stuck hbody hdec hfree hn
    rw [hy, h.unique ⟨n, hy⟩]

end Measure

end Loop
end Airdcpp
