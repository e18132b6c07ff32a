import Mathlib.Algebra.BigOperators.Group.Finset.Basic
import Mathlib.Data.Finset.Card
import Mathlib.Logic.Function.Basic
import Mathlib.Tactic.Common

/-!
# Processes at program points

Any number of processes run the same program, and a step moves one of them from one program point to another. Three things about such a system come up again and again: how many processes stand at points of some kind, what they have in total, and that no two of them hold the same resource, where the program point says what its process holds.
-/

namespace Process

variable {ι π ρ : Type*} [DecidableEq ι]

/-- The number of processes at points of a kind. -/
def tally (procs : Finset ι) (kind : π → Bool) (pc : ι → π) : ℕ := (procs.filter fun w => kind (pc w)).card

/-- Moving one process changes a tally by what that process counts before and after. -/
theorem tally_update {procs : Finset ι} {w : ι} (hw : w ∈ procs) (kind : π → Bool) (pc : ι → π) (point : π) :
    tally procs kind (Function.update pc w point) + (kind (pc w)).toNat =
      tally procs kind pc + (kind point).toNat := by
  have hothers : (procs.erase w).filter (fun v => kind (Function.update pc w point v)) =
      (procs.erase w).filter fun v => kind (pc v) := by
    refine Finset.filter_congr fun v hv => ?_
    rw [Function.update_of_ne (Finset.ne_of_mem_erase hv)]
  have hsplit : ∀ f : ι → Bool, (procs.filter fun v => f v).card =
      ((procs.erase w).filter fun v => f v).card + (f w).toNat := by
    intro f
    conv_lhs => rw [← Finset.insert_erase hw]
    rw [Finset.filter_insert]
    cases hf : f w with
    | true => simp
    | false => simp
  have hself : kind (Function.update pc w point w) = kind point := by rw [Function.update_self]
  have hbefore := hsplit fun v => kind (pc v)
  have hafter := hsplit fun v => kind (Function.update pc w point v)
  rw [hothers, hself] at hafter
  simp only [tally]
  omega

omit [DecidableEq ι] in
theorem tally_eq_zero_iff {procs : Finset ι} {kind : π → Bool} {pc : ι → π} :
    tally procs kind pc = 0 ↔ ∀ w ∈ procs, kind (pc w) = false := by
  rw [tally, Finset.card_eq_zero, Finset.filter_eq_empty_iff]
  simp

/-- Moving one process changes a total by what that process has before and after. -/
theorem sum_update {M : Type*} [AddCommMonoid M] {procs : Finset ι} {w : ι} (hw : w ∈ procs) (amount : π → M) (pc : ι → π)
    (point : π) : ∑ v ∈ procs, amount (Function.update pc w point v) + amount (pc w) =
      ∑ v ∈ procs, amount (pc v) + amount point := by
  have hothers : ∑ v ∈ procs.erase w, amount (Function.update pc w point v) = ∑ v ∈ procs.erase w, amount (pc v) := by
    refine Finset.sum_congr rfl fun v hv => ?_
    rw [Function.update_of_ne (Finset.ne_of_mem_erase hv)]
  rw [← Finset.sum_erase_add _ _ hw, ← Finset.sum_erase_add _ _ hw, hothers, Function.update_self]
  exact add_right_comm ..

/-- No two processes hold the same resource. -/
def Apart (holds : π → Option ρ) (pc : ι → π) : Prop :=
  ∀ w v r, holds (pc w) = some r → holds (pc v) = some r → w = v

/-- A process may move if it afterwards holds nothing, what it held before, or something no other process holds. -/
theorem Apart.update {holds : π → Option ρ} {pc : ι → π} (h : Apart holds pc) {w : ι} {point : π}
    (hmove : ∀ r, holds point = some r → holds (pc w) = some r ∨ ∀ v, v ≠ w → holds (pc v) ≠ some r) :
    Apart holds (Function.update pc w point) := by
  have hone : ∀ v r, v ≠ w → holds point = some r → holds (pc v) ≠ some r := by
    intro v r hvw hpoint hv
    rcases hmove r hpoint with hheld | hfree
    · exact hvw (h v w r hv hheld)
    · exact hfree v hvw hv
  intro u v r hu hv
  by_cases huw : u = w
  · by_cases hvw : v = w
    · rw [huw, hvw]
    · subst huw
      rw [Function.update_self] at hu
      rw [Function.update_of_ne hvw] at hv
      exact absurd hv (hone v r hvw hu)
  · rw [Function.update_of_ne huw] at hu
    by_cases hvw : v = w
    · subst hvw
      rw [Function.update_self] at hv
      exact absurd hu (hone u r huw hv)
    · rw [Function.update_of_ne hvw] at hv
      exact h u v r hu hv

end Process
