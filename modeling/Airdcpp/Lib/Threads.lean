import Airdcpp.Lib.Runs

/-!
# `Lib/Threads` — threads that take turns at a shared state

A call is a sequence of *sections*. A section runs under a lock, or is atomic by itself; between
two of them any other thread may run. So the state is what the threads share together with where
each thread inside a call is, and a run is any order of `Turn`s: somebody enters a call, or one of
the threads inside runs its next section. What a section learns from outside (an answer of another
component, a random number) is its input.

`Sections.invariant` is the rule: an invariant that does not depend on the order of the threads is
kept by all of them when it is kept by the next section of one of them, the others standing still.
-/

namespace Airdcpp
namespace Lib

/-- What is shared, and where the threads inside a call are. -/
structure Threads (σ τ : Type*) where
  shared : σ
  inside : List τ

inductive Turn (τ ι : Type*)
  | enter (t : τ)
  | run (i : Nat) (x : ι)

/-- The calls of a component. The next section of a thread changes the shared state, and the
    thread is somewhere else then, or has returned. -/
structure Sections (σ τ ι : Type*) where
  enters : σ → τ → Prop
  accepts : σ → τ → ι → Prop
  next : σ → τ → ι → σ × Option τ

variable {σ τ ι : Type*}

namespace Sections

/-- Every order of the turns. -/
def system (P : Sections σ τ ι) : System (Threads σ τ) (Turn τ ι) where
  next s
    | .enter t => { s with inside := t :: s.inside }
    | .run i x =>
      match s.inside[i]? with
      | none => s
      | some t => ⟨(P.next s.shared t x).1,
          (P.next s.shared t x).2.toList ++ s.inside.eraseIdx i⟩
  allowed s
    | .enter t => P.enters s.shared t
    | .run i x => ∃ t ∈ s.inside[i]?, P.accepts s.shared t x

/-- A condition on the next section of a thread: on the shared state, the other threads, the thread
    and the input. -/
def atTurn (C : σ → List τ → τ → ι → Prop) (s : Threads σ τ) : Turn τ ι → Prop
  | .enter _ => True
  | .run i x => ∀ t ∈ s.inside[i]?, C s.shared (s.inside.eraseIdx i) t x

instance {P : Sections σ τ ι} [∀ s t, Decidable (P.enters s t)]
    [∀ s t x, Decidable (P.accepts s t x)] (s : Threads σ τ) (o : Turn τ ι) :
    Decidable (P.system.allowed s o) := by
  cases o <;> simp only [system] <;> infer_instance

instance {C : σ → List τ → τ → ι → Prop} [∀ s ts t x, Decidable (C s ts t x)]
    (s : Threads σ τ) (o : Turn τ ι) : Decidable (atTurn C s o) := by
  cases o <;> simp only [atTurn] <;> infer_instance

variable {P : Sections σ τ ι} {C : σ → List τ → τ → ι → Prop} {I : σ → List τ → Prop}
  {init : Threads σ τ → Prop}

theorem perm_eraseIdx {l : List τ} {i : Nat} {t : τ} (h : l[i]? = some t) :
    l.Perm (t :: l.eraseIdx i) := by
  obtain ⟨hi, rfl⟩ := List.getElem?_eq_some_iff.mp h
  exact (List.getElem_cons_eraseIdx_perm hi).symm

/-- **The invariant rule for threads.** -/
theorem invariant (h0 : ∀ s, init s → I s.shared s.inside)
    (hperm : ∀ s l l', l.Perm l' → I s l → I s l')
    (henter : ∀ s ts t, I s ts → P.enters s t → I s (t :: ts))
    (hrun : ∀ s ts t x, I s (t :: ts) → P.accepts s t x → C s ts t x →
      I (P.next s t x).1 ((P.next s t x).2.toList ++ ts))
    {s : Threads σ τ} (h : Reaches (P.system.restrict (atTurn C)) init s) :
    I s.shared s.inside := by
  refine @Reaches.invariant _ _ _ _ (fun s => I s.shared s.inside) h0 ?_ s h
  intro s o hs ho
  cases o with
  | enter t => exact henter _ _ _ hs ho.1
  | run i x =>
    obtain ⟨⟨t, ht, hx⟩, hC⟩ := ho
    have hsplit := hperm _ _ _ (perm_eraseIdx ht) hs
    have hnext := hrun _ _ _ _ hsplit hx (hC t ht)
    simp only [System.restrict, system, Option.mem_def.mp ht]
    exact hnext

/-- The rule where nothing is asked of the turns. -/
theorem invariant' (h0 : ∀ s, init s → I s.shared s.inside)
    (hperm : ∀ s l l', l.Perm l' → I s l → I s l')
    (henter : ∀ s ts t, I s ts → P.enters s t → I s (t :: ts))
    (hrun : ∀ s ts t x, I s (t :: ts) → P.accepts s t x →
      I (P.next s t x).1 ((P.next s t x).2.toList ++ ts))
    {s : Threads σ τ} (h : Reaches P.system init s) : I s.shared s.inside := by
  refine @invariant _ _ _ P (fun _ _ _ _ => True) I init h0 hperm henter ?_ s (h.restrict ?_)
  · intro s ts t x hs hx _
    exact hrun s ts t x hs hx
  · intro s o
    cases o with
    | enter t => trivial
    | run i x => exact fun _ _ => trivial

end Sections
end Lib
end Airdcpp
