import Awcotn.Scheduler.Steps

/-!
# The active count

`run` increments `m_activeThreadCount` under the mutex when it dequeues an entry and decrements it after `swapIn` has returned. The two are in different branches: an entry whose fiber is finished when its state is tested goes to the last branch, which has no decrement. Each such entry leaves the count one too high, for good.
-/

namespace Awcotn.Scheduler

open Transition Process

variable {C : Type*}

/-- Between dequeuing an entry and finishing with it. -/
def Pc.inTask : Pc C → Bool
  | .picked _ => true
  | .resetting _ cb | .initing _ cb => cb.isSome
  | .swapIn kind _ | .checked kind _ | .entering kind _ | .running kind _ | .leaving kind _ => kind != .idle
  | .returned _ _ => true
  | _ => false

/-- The number of workers in a task. -/
def inTask (workers : Finset ThreadId) (s : State C) : ℕ := tally workers Pc.inTask s.pc

/-- The count is the number of workers in a task. -/
def ActiveExact (workers : Finset ThreadId) (s : State C) : Prop := s.activeThreadCount = inTask workers s

instance (workers : Finset ThreadId) (s : State C) : Decidable (ActiveExact workers s) :=
  inferInstanceAs (Decidable (_ = _))

/-- The step tests an entry whose fiber has finished. -/
def TestsFinished (workers : Finset ThreadId) (s : State C) : Action C → Prop
  | .run w => w ∈ workers ∧ ∃ f thread, s.pc w = .picked ⟨some f, none, thread⟩ ∧ (s.fibers f).state.dead
  | _ => False

/-- The count is never short of the workers in a task, and a dequeued entry is not empty. -/
structure ActiveInv (workers : Finset ThreadId) (s : State C) : Prop where
  le : (inTask workers s : ℤ) ≤ s.activeThreadCount
  picked : ∀ w ft, s.pc w = .picked ft → ft.fiber.isSome ∨ ft.cb.isSome

/-- By how much the count exceeds the number of workers in a task. -/
def excess (workers : Finset ThreadId) (s : State C) : ℕ := (s.activeThreadCount - inTask workers s).toNat

variable {workers : Finset ThreadId} {s t : State C} {w : ThreadId}

/-- A task that is left at its test. -/
def Pc.leak : Pc C → Pc C → ℕ
  | .picked _, .noTask => 1
  | _, _ => 0

/-- The count follows the worker into a task and out of it, except where a task is left at its test. -/
theorem Next.delta {before after : Pc C} (h : Next s w before after) :
    before.activeDelta after + before.inTask.toNat = after.inTask.toNat + before.leak after := by
  cases h with
  | read kind f =>
      cases kind <;> simp only [bookkeeping] <;> (repeat' split) <;> rfl
  | back kind f hkind =>
      cases kind with
      | idle => exact absurd rfl hkind
      | _ => rfl
  | reset f cb => simp [Pc.activeDelta, Pc.inTask, Pc.leak]
  | check kind f | exec kind f | enter kind f | count kind f => cases kind <;> rfl
  | _ => rfl

/-- A step of `run` raises the excess by what it leaks. -/
theorem RunStep.excess {before after : Pc C} (h : RunStep s t w before after) (hw : w ∈ workers)
    (hpc : s.pc w = before) :
    t.activeThreadCount - inTask workers t = s.activeThreadCount - inTask workers s + before.leak after := by
  have htally := tally_update hw Pc.inTask s.pc after
  have hdelta := h.next.delta
  rw [hpc] at htally
  simp only [inTask, h.pc, h.active]
  omega

theorem branch_finished {f : FiberId} {thread : Option ThreadId} (h : (s.fibers f).state.dead) :
    branch s w ⟨some f, none, thread⟩ = s.goto w .noTask := by
  simp [branch, Option.filter, h]

/-- Testing an entry whose fiber has finished leaks one. -/
theorem step_testsFinished {a : Action C} (h : TestsFinished workers s a) :
    ∃ t, step workers s a = .next t ∧ t.activeThreadCount - inTask workers t =
      s.activeThreadCount - inTask workers s + 1 := by
  cases a with
  | run w =>
      obtain ⟨hw, f, thread, hpc, hdead⟩ := h
      have hstep : runStep s w = .next (s.goto w .noTask) := by
        simp only [runStep, hpc, branch_finished hdead]
      refine ⟨s.goto w .noTask, by simp only [step, hw, if_true, hstep], ?_⟩
      obtain ⟨after, hrun⟩ := runStep_eq_next hstep
      have hafter : after = .noTask := by
        have := congrFun hrun.pc w
        simpa [State.goto] using this.symm
      subst hafter
      rw [hpc] at hrun
      exact hrun.excess hw hpc
  | _ => cases h

/-- A step of `run` that leaks is the test of a finished fiber. -/
theorem RunStep.leak_eq_zero {before after : Pc C} (h : RunStep s t w before after) (hs : ActiveInv workers s)
    (hpc : s.pc w = before) (hw : w ∈ workers) (hnot : ¬ TestsFinished workers s (.run w)) : before.leak after = 0 := by
  cases h.next with
  | finished ft hcb hdead =>
      refine absurd ⟨hw, ?_⟩ hnot
      rcases hs.picked w ft hpc with hfiber | hcb'
      · obtain ⟨f, hf⟩ := Option.isSome_iff_exists.1 hfiber
        obtain ⟨fiber, cb, thread⟩ := ft
        dsimp only at hcb hf
        subst hcb hf
        exact ⟨f, thread, hpc, hdead f rfl⟩
      · simp [hcb] at hcb'
  | read kind f => cases kind <;> simp only [bookkeeping] <;> (repeat' split) <;> rfl
  | _ => rfl

/-- Every other step leaks nothing. -/
theorem step_not_testsFinished (hs : ActiveInv workers s) {a : Action C} (h : step workers s a = .next t)
    (hnot : ¬ TestsFinished workers s a) :
    t.activeThreadCount - inTask workers t = s.activeThreadCount - inTask workers s := by
  cases hworker : a.worker with
  | none =>
      obtain ⟨hpc, hactive, -⟩ := step_eq_next_of_worker_eq_none h hworker
      rw [inTask, hpc, hactive, inTask]
  | some w =>
      cases a with
      | run v =>
          obtain ⟨hw, h⟩ := step_run_eq_next h
          obtain ⟨after, hrun⟩ := runStep_eq_next h
          have hexcess := hrun.excess hw rfl
          rw [hrun.leak_eq_zero hs rfl hw hnot] at hexcess
          simpa using hexcess
      | exit v how =>
          obtain ⟨hw, h⟩ := step_exit_eq_next h
          obtain ⟨kind, f, hpc, hgoto, hactive, -⟩ := exitStep_eq_next h
          have htally := tally_update hw Pc.inTask s.pc (.leaving kind f)
          have hsame : (Pc.leaving kind f : Pc C).inTask = (Pc.running kind f : Pc C).inTask := rfl
          rw [hpc, hsame] at htally
          simp only [inTask, hgoto, hactive]
          omega
      | _ => cases hworker

/-- A worker that has just dequeued an entry has one that is not empty. -/
theorem step_picked (hs : ActiveInv workers s) {a : Action C} (h : step workers s a = .next t) :
    ∀ w ft, t.pc w = .picked ft → ft.fiber.isSome ∨ ft.cb.isSome := by
  intro w ft hpicked
  cases hworker : a.worker with
  | none => exact hs.picked w ft ((step_eq_next_of_worker_eq_none h hworker).1 ▸ hpicked)
  | some v =>
      cases a with
      | run u =>
          obtain ⟨-, h⟩ := step_run_eq_next h
          obtain ⟨after, hrun⟩ := runStep_eq_next h
          rw [hrun.pc] at hpicked
          by_cases hu : w = u
          · subst hu
            rw [Function.update_self] at hpicked
            exact (hpicked ▸ hrun.next).of_picked.2.2
          · exact hs.picked w ft (by rwa [Function.update_of_ne hu] at hpicked)
      | exit u how =>
          obtain ⟨-, h⟩ := step_exit_eq_next h
          obtain ⟨kind, f, hpc, hgoto, -⟩ := exitStep_eq_next h
          rw [hgoto] at hpicked
          by_cases hu : w = u
          · subst hu
            rw [Function.update_self] at hpicked
            cases hpicked
          · exact hs.picked w ft (by rwa [Function.update_of_ne hu] at hpicked)
      | _ => cases hworker

theorem step_activeInv (hs : ActiveInv workers s) {a : Action C} (h : step workers s a = .next t) :
    ActiveInv workers t := by
  refine ⟨?_, step_picked hs h⟩
  have hle := hs.le
  by_cases hbad : TestsFinished workers s a
  · obtain ⟨t', hstep, hrise⟩ := step_testsFinished hbad
    rw [h] at hstep
    cases hstep
    omega
  · have := step_not_testsFinished hs h hbad
    omega

theorem activeInv_start (workers : Finset ThreadId) (idleCb : C) : ActiveInv workers (start workers idleCb) :=
  ⟨by simp [inTask, start, tally, Pc.inTask], by simp [start]⟩

theorem excess_eq_zero_iff (hs : ActiveInv workers s) : excess workers s = 0 ↔ ActiveExact workers s := by
  have hle := hs.le
  simp only [excess, ActiveExact]
  omega

/-- The active count is the number of workers in a task throughout a run if and only if no worker of the run dequeues an entry whose fiber has finished by the time its state is tested. -/
theorem active_exact_iff (workers : Finset ThreadId) (idleCb : C) (acts : List (Action C)) :
    Throughout (step workers) (ActiveExact workers) (start workers idleCb) acts ↔
      Along (step workers) (fun s a => ¬ TestsFinished workers s a) (start workers idleCb) acts := by
  have hinit := activeInv_start workers idleCb
  have hzero : excess workers (start workers idleCb) = 0 := by simp [excess, inTask, start, tally, Pc.inTask]
  rw [← throughout_zero_iff_along (g := excess workers) (fun s a t hs h => step_activeInv hs h) ?_ ?_ hinit hzero]
  · exact throughout_congr (fun s a t hs h => step_activeInv hs h) (fun s hs => (excess_eq_zero_iff hs).symm) hinit acts
  · intro s a hs hbad
    obtain ⟨t, hstep, hrise⟩ := step_testsFinished hbad
    have hle := hs.le
    refine ⟨t, hstep, ?_⟩
    simp only [excess]
    omega
  · intro s a t hs hstep hnot
    simp only [excess, step_not_testsFinished hs hstep hnot]

/-- A fiber queued twice runs and returns; the worker then dequeues its second entry. -/
theorem finished_fiber_leaks :
    ¬ ∀ acts : List (Action Unit), Throughout (step {1}) (ActiveExact {1}) (start {1} ()) acts := by
  intro h
  have hrun := h [.newFiber (), .schedule ⟨some 2, none, none⟩, .schedule ⟨some 2, none, none⟩,
    .run 1, .run 1, .run 1, .run 1, .run 1, .exit 1 .finish, .run 1, .run 1, .run 1, .run 1, .run 1]
  have hlast := hrun.last rfl
  exact absurd hlast (by decide +kernel)

end Awcotn.Scheduler
