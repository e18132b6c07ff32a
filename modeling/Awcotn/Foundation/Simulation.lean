import Awcotn.Foundation.Run

/-!
# Simulation

A system is simulated by another along a relation between their states where each of its steps is matched by a run of the other, which may be empty. What the other system goes through in a whole run is put together from these, and a condition that holds of each of its steps is passed on.
-/

namespace Transition

variable {ε ε' σ τ α β : Type*}

/-- What a run shows: the actions that each step is matched by, up to a step that is not made. -/
def trace (step : σ → α → Outcome ε σ) (seen : σ → α → List β) : σ → List α → List β
  | _, [] => []
  | s, a :: as =>
    match step s a with
    | .next t => seen s a ++ trace step seen t as
    | _ => []

variable {step : σ → α → Outcome ε σ} {step' : τ → β → Outcome ε' τ} {seen : σ → α → List β}

theorem trace_cons_of_next {s t : σ} {a : α} (as : List α) (h : step s a = .next t) :
    trace step seen s (a :: as) = seen s a ++ trace step seen t as := by
  simp only [trace, h]

/-- Each allowed step from related states is matched by a run of steps that satisfy `Q`, into related states. -/
def Simulates (step : σ → α → Outcome ε σ) (step' : τ → β → Outcome ε' τ) (seen : σ → α → List β) (R : σ → τ → Prop)
    (P : σ → α → Prop) (Q : τ → β → Prop) : Prop :=
  ∀ s a t u, R s u → P s a → step s a = .next t →
    ∃ v, run step' u (seen s a) = .next v ∧ R t v ∧ Along step' Q u (seen s a)

/-- So is each run of allowed steps. -/
theorem Simulates.run {R : σ → τ → Prop} {P : σ → α → Prop} {Q : τ → β → Prop} (h : Simulates step step' seen R P Q)
    {s t : σ} {u : τ} {as : List α} (hR : R s u) (hP : Along step P s as) (hrun : run step s as = .next t) :
    ∃ v, run step' u (trace step seen s as) = .next v ∧ R t v ∧ Along step' Q u (trace step seen s as) := by
  induction as generalizing s u with
  | nil =>
      obtain rfl : s = t := by simpa using hrun
      exact ⟨u, rfl, hR, trivial⟩
  | cons a as ih =>
      obtain ⟨m, hstep, hrest⟩ := run_cons_eq_next.1 hrun
      obtain ⟨hallowed, halong⟩ := (along_cons_of_next hstep).1 hP
      obtain ⟨v, hv, hRv, hQv⟩ := h s a m u hR hallowed hstep
      obtain ⟨x, hx, hRx, hQx⟩ := ih hRv halong hrest
      rw [trace_cons_of_next _ hstep]
      exact ⟨x, by rw [run_append_of_next _ hv, hx], hRx, (along_append hv).2 ⟨hQv, hQx⟩⟩

end Transition
