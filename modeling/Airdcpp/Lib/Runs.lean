import Mathlib

/-!
# `Lib/Runs` — systems of operations, and what holds after every run

A `System` is a state that operations act on: `next` is what an operation does, `allowed` when
its callers may use it. A state is *reached* when a sequence of operations, each allowed where
it is used, leads to it.

`Reaches.invariant` is the only induction over runs: what holds at the start and is kept by
every allowed operation holds in every reached state. `System.restrict` asks for more before
each step; its runs are runs of the system it restricts, so an invariant that needs the extra
condition is an invariant of exactly the runs whose steps all meet it.
-/

namespace Airdcpp
namespace Lib

/-- Operations `ω` on states `σ`. -/
structure System (σ ω : Type*) where
  next : σ → ω → σ
  allowed : σ → ω → Prop

variable {σ ω : Type*}

/-- The states some run from `init` ends in. -/
inductive Reaches (S : System σ ω) (init : σ → Prop) : σ → Prop
  | start {s : σ} (h : init s) : Reaches S init s
  | step {s : σ} (o : ω) (h : Reaches S init s) (ho : S.allowed s o) : Reaches S init (S.next s o)

namespace System

/-- The same operations, each used only where `C` holds as well. -/
def restrict (S : System σ ω) (C : σ → ω → Prop) : System σ ω where
  next := S.next
  allowed s o := S.allowed s o ∧ C s o

instance (S : System σ ω) (C : σ → ω → Prop) (s : σ) (o : ω) [Decidable (S.allowed s o)]
    [Decidable (C s o)] : Decidable ((S.restrict C).allowed s o) :=
  inferInstanceAs (Decidable (S.allowed s o ∧ C s o))

/-- The state after a list of operations. -/
def run (S : System σ ω) (s : σ) (ops : List ω) : σ := ops.foldl S.next s

/-- Each of them is allowed where it is used. -/
def AllowedAlong (S : System σ ω) : σ → List ω → Prop
  | _, [] => True
  | s, o :: ops => S.allowed s o ∧ S.AllowedAlong (S.next s o) ops

instance AllowedAlong.decidable (S : System σ ω) [∀ s o, Decidable (S.allowed s o)] :
    ∀ s ops, Decidable (S.AllowedAlong s ops)
  | _, [] => .isTrue trivial
  | s, o :: ops =>
    have := AllowedAlong.decidable S (S.next s o) ops
    inferInstanceAs (Decidable (S.allowed s o ∧ S.AllowedAlong (S.next s o) ops))

/-- `I` is kept by every allowed operation. -/
def Preserves (S : System σ ω) (I : σ → Prop) : Prop :=
  ∀ s o, I s → S.allowed s o → I (S.next s o)

end System

variable {S : System σ ω} {init I : σ → Prop}

/-- **The invariant rule.** -/
theorem Reaches.invariant (h0 : ∀ s, init s → I s) (hstep : S.Preserves I) {s : σ}
    (h : Reaches S init s) : I s := by
  induction h with
  | start h => exact h0 _ h
  | step o _ ho ih => exact hstep _ _ ih ho

theorem Reaches.run {s : σ} {ops : List ω} (h : Reaches S init s) (hops : S.AllowedAlong s ops) :
    Reaches S init (S.run s ops) := by
  induction ops generalizing s with
  | nil => exact h
  | cons o ops ih => exact ih (Reaches.step o h hops.1) hops.2

/-- A condition that always holds restricts nothing. -/
theorem Reaches.restrict {C : σ → ω → Prop} {s : σ} (h : Reaches S init s) (hC : ∀ s o, C s o) :
    Reaches (S.restrict C) init s := by
  induction h with
  | start h => exact Reaches.start h
  | step o _ ho ih => exact Reaches.step o ih ⟨ho, hC _ _⟩

/-- A run of the restricted system is a run of the system. -/
theorem Reaches.of_restrict {C : σ → ω → Prop} {s : σ} (h : Reaches (S.restrict C) init s) :
    Reaches S init s := by
  induction h with
  | start h => exact Reaches.start h
  | step o _ ho ih => exact Reaches.step o ih ho.1

end Lib
end Airdcpp
