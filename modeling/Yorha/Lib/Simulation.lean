import Mathlib.Data.List.Basic

/-!
# Runs and simulations

A labelled step relation says what a system may do: in a state, under a label, to another
state.  A `Run` is what it did: the labels in their order, and the state that they lead to.

A `Simulation` is a way to see one system as another: a function on states, one on labels, and
an invariant under which every step of the first system is seen as a step of the second.  Then
whole runs are seen as runs, and what no run of the second does, no run of the first does
either.
-/

universe u v w z

namespace Yorha.Lib

variable {σ : Type u} {κ : Type v} {τ : Type w} {μ : Type z}

/-- The labels of a run, the first one first, between its two states. -/
inductive Run (step : σ → κ → σ → Prop) : σ → List κ → σ → Prop
  | nil {s : σ} : Run step s [] s
  | snoc {s t u : σ} {labels : List κ} {c : κ} :
      Run step s labels t → step t c u → Run step s (labels ++ [c]) u

/-- One run after another. -/
theorem Run.append {step : σ → κ → σ → Prop} {s t u : σ} {l l' : List κ} (h : Run step s l t)
    (h' : Run step t l' u) : Run step s (l ++ l') u := by
  induction h' with
  | nil =>
      rw [List.append_nil]
      exact h
  | snoc _ hstep ih =>
      rw [← List.append_assoc]
      exact ih.snoc hstep

/-- One step before a run. -/
theorem Run.cons {step : σ → κ → σ → Prop} {s t u : σ} {c : κ} {l : List κ} (hstep : step s c t)
    (h : Run step t l u) : Run step s (c :: l) u :=
  (Run.nil.snoc hstep).append h

/-- Under the invariant, the steps of one system are seen as steps of another. -/
structure Simulation (step : σ → κ → σ → Prop) (step' : τ → μ → τ → Prop) (I : σ → Prop)
    (see : σ → τ) (seeLabel : κ → μ) : Prop where
  inv : ∀ {s c t}, I s → step s c t → I t
  step : ∀ {s c t}, I s → step s c t → step' (see s) (seeLabel c) (see t)

/-- **Runs are seen as runs.** -/
theorem Simulation.run {step : σ → κ → σ → Prop} {step' : τ → μ → τ → Prop} {I : σ → Prop}
    {see : σ → τ} {seeLabel : κ → μ} (h : Simulation step step' I see seeLabel) {s t : σ}
    {l : List κ} (hs : I s) (hrun : Run step s l t) :
    I t ∧ Run step' (see s) (l.map seeLabel) (see t) := by
  induction hrun with
  | nil => exact ⟨hs, .nil⟩
  | snoc _ hc ih =>
      obtain ⟨hinv, hseen⟩ := ih
      rw [List.map_append, List.map_singleton]
      exact ⟨h.inv hinv hc, hseen.snoc (h.step hinv hc)⟩

end Yorha.Lib
