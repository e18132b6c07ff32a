import Mathlib.Tactic.Common

/-!
# Step functions that halt

A program that takes one step after another by itself, and halts where its step function returns nothing. Where a measure falls with every step it halts, and the measure at the start bounds the number of steps.
-/

namespace Halting

variable {σ : Type*}

/-- The state after a number of steps, if there are as many. -/
def iterate (step : σ → Option σ) : ℕ → σ → Option σ
  | 0, s => some s
  | k + 1, s => (step s).bind (iterate step k)

/-- From `s` the program halts in `t` after at most `bound` steps. -/
def HaltsIn (step : σ → Option σ) (s : σ) (bound : ℕ) (t : σ) : Prop :=
  (∃ k ≤ bound, iterate step k s = some t) ∧ step t = none

variable {step : σ → Option σ}

theorem HaltsIn.refl {s : σ} (h : step s = none) (bound : ℕ) : HaltsIn step s bound s :=
  ⟨⟨0, Nat.zero_le _, rfl⟩, h⟩

theorem HaltsIn.cons {s s' t : σ} {bound bound' : ℕ} (hstep : step s = some s') (h : HaltsIn step s' bound t)
    (hlt : bound < bound') : HaltsIn step s bound' t := by
  obtain ⟨⟨k, hk, hiterate⟩, hhalted⟩ := h
  refine ⟨⟨k + 1, by omega, ?_⟩, hhalted⟩
  rw [iterate, hstep, Option.bind_some, hiterate]

/-- With an invariant under which every step lowers a measure, the program halts where the invariant holds. -/
theorem halts_of_measure {I : σ → Prop} {measure : σ → ℕ} (hinv : ∀ s t, I s → step s = some t → I t)
    (hmeasure : ∀ s t, I s → step s = some t → measure t < measure s) {s : σ} (hs : I s) :
    ∃ t, HaltsIn step s (measure s) t ∧ I t := by
  induction hm : measure s using Nat.strongRecOn generalizing s with
  | ind m ih =>
      cases hstep : step s with
      | none => exact ⟨s, .refl hstep m, hs⟩
      | some s' =>
          have hlt : measure s' < m := hm ▸ hmeasure s s' hs hstep
          obtain ⟨t, hhalts, ht⟩ := ih (measure s') hlt (hinv s s' hs hstep) rfl
          exact ⟨t, hhalts.cons hstep hlt, ht⟩

end Halting
