import Awcotn.Scheduler.Active
import Awcotn.Scheduler.Queue

/-!
# A drained scheduler

When the queue is empty, no worker is in a task and no fiber is on its way back into the queue, the workers have nothing but their idle fibers to run. Whatever they do then brings nothing back.
-/

namespace Awcotn.Scheduler

open Transition

variable {C : Type*} {workers : Finset ThreadId} {s t : State C} {w : ThreadId}

/-- Nothing queued, nobody in a task, and no fiber that has yielded and is to be queued again. -/
structure Drained (workers : Finset ThreadId) (s : State C) : Prop where
  queue : s.queue = []
  active : s.activeThreadCount = 0
  tasks : ∀ w ∈ workers, (s.pc w).inTask = false
  ready : ∀ w ∈ workers, ∀ kind f, s.pc w = .counted kind f → kind ≠ .idle → (s.fibers f).state ≠ .READY
  requeued : ∀ w ∈ workers, ∀ kind f, s.pc w ≠ .requeue kind f

/-- A point outside of tasks. -/
structure Pc.AtRest (point : Pc C) : Prop where
  task : point.inTask = false
  counted : ∀ kind f, point = .counted kind f → kind = .idle
  requeue : ∀ kind f, point ≠ .requeue kind f

/-- One worker moves outside of tasks, and no fiber becomes `READY`. -/
theorem Drained.move (hs : Drained workers s) {point : Pc C} (hpoint : point.AtRest) (hqueue : t.queue = [])
    (hactive : t.activeThreadCount = 0) (hpc : t.pc = Function.update s.pc w point)
    (hready : ∀ f, (t.fibers f).state = .READY → (s.fibers f).state = .READY) : Drained workers t := by
  have hmove : ∀ v, t.pc v = s.pc v ∨ t.pc v = point := by
    intro v
    by_cases hv : v = w
    · exact .inr (by rw [hpc, hv, Function.update_self])
    · exact .inl (by rw [hpc, Function.update_of_ne hv])
  refine ⟨hqueue, hactive, fun v hv => ?_, fun v hv kind f hcounted hkind => ?_, fun v hv kind f hrequeue => ?_⟩
  · obtain hsame | hnew := hmove v
    · rw [hsame, hs.tasks v hv]
    · rw [hnew, hpoint.task]
  · obtain hsame | hnew := hmove v
    · exact fun hstate => hs.ready v hv kind f (hsame ▸ hcounted) hkind (hready f hstate)
    · exact absurd (hpoint.counted kind f (hnew ▸ hcounted)) hkind
  · obtain hsame | hnew := hmove v
    · exact hs.requeued v hv kind f (hsame ▸ hrequeue)
    · exact hpoint.requeue kind f (hnew ▸ hrequeue)

/-- From outside of tasks a worker gets into one only by dequeuing an entry. -/
theorem Next.atRest {before after : Pc C} (h : Next s w before after) (htask : before.inTask = false)
    (hpicked : ∀ ft, after ≠ .picked ft)
    (hready : ∀ kind f, before = .counted kind f → kind ≠ .idle → (s.fibers f).state ≠ .READY)
    (hrequeue : ∀ kind f, before ≠ .requeue kind f) : after.AtRest := by
  cases h with
  | dequeue ft hmem hft => exact absurd rfl (hpicked ft)
  | takeFiber | reuseCb | newCb | finished | count => cases htask
  | reset f cb => exact ⟨htask, by simp, by simp⟩
  | init f c => cases htask
  | check kind f | exec kind f | enter kind f => exact ⟨htask, by simp, by simp⟩
  | back kind f hkind => exact absurd htask (by simpa [Pc.inTask] using hkind)
  | backIdle f => exact ⟨rfl, fun kind g heq => by cases heq; rfl, by simp⟩
  | requeued kind f => exact absurd rfl (hrequeue kind f)
  | read kind f =>
      have hstate := hready kind f rfl
      cases kind with
      | idle =>
          simp only [bookkeeping]
          split <;> exact ⟨rfl, by simp, by simp⟩
      | fiber | cb =>
          have hne := hstate (by simp)
          simp only [bookkeeping, hne, if_false]
          split <;> exact ⟨rfl, by simp, by simp⟩
  | _ => exact ⟨rfl, by simp, by simp⟩

/-- `run` makes no fiber `READY`. -/
theorem ready_of_run (h : step workers s (.run w) = .next t) {f : FiberId} (hstate : (t.fibers f).state = .READY) :
    (s.fibers f).state = .READY := by
  rw [step_state h f] at hstate
  refine (written_eq hstate).resolve_right fun hwrite => ?_
  obtain hinit | ⟨hexec, -⟩ | ⟨hhold, -⟩ := writes_run hwrite
  · cases hinit
  · cases hexec
  · cases hhold

theorem Drained.run (hs : Drained workers s) (h : step workers s (.run w) = .next t) : Drained workers t := by
  have hready := fun f => ready_of_run (f := f) h
  have hstep := h
  obtain ⟨hw, h⟩ := step_run_eq_next h
  by_cases hhead : s.pc w = .head
  · simp only [runStep, hhead, hs.queue, pick] at h
    cases h
    have hpc : (s.goto w .noTask).pc = Function.update s.pc w .noTask := rfl
    have hpoint : (Pc.noTask : Pc C).AtRest := ⟨rfl, by simp, by simp⟩
    exact hs.move hpoint hs.queue hs.active hpc hready
  · obtain ⟨point, hrun⟩ := runStep_eq_next h
    have hpicked : ∀ ft, point ≠ .picked ft := by
      rintro ft rfl
      exact hhead hrun.next.of_picked.1
    have hpoint := hrun.next.atRest (hs.tasks w hw) hpicked (hs.ready w hw) (hs.requeued w hw)
    refine hs.move hpoint ?_ ?_ hrun.pc hready
    · have hqueue := step_queue hstep fun v hv => by
        cases hv
        exact hhead
      have hnone : pushed s (.run w) = none := by
        simp only [pushed]
        split
        · exact absurd ‹_› (hs.requeued w hw _ _)
        · rfl
      rw [hqueue, hs.queue, hnone]
      rfl
    · have hdelta : (s.pc w).activeDelta point = 0 := by
        have htask := hs.tasks w hw
        cases hbefore : s.pc w with
        | head => exact absurd hbefore hhead
        | returned kind f =>
            rw [hbefore] at htask
            cases htask
        | _ => rfl
      rw [hrun.active, hs.active, hdelta]
      rfl

/-- In a drained scheduler only idle fibers run, and they leave without becoming `READY`. -/
theorem Drained.exit (hs : Drained workers s) {how : Exit} (hhow : how.state ≠ some .READY)
    (h : step workers s (.exit w how) = .next t) : Drained workers t := by
  have hstate := step_state h
  have hqueue : t.queue = s.queue := by simpa [pushed] using step_queue h (by simp)
  obtain ⟨hw, h⟩ := step_exit_eq_next h
  obtain ⟨kind, f, hpc, hgoto, hactive, -⟩ := exitStep_eq_next h
  have htask := hs.tasks w hw
  rw [hpc] at htask
  have hpoint : (Pc.leaving kind f : Pc C).AtRest := ⟨htask, by simp, by simp⟩
  refine hs.move hpoint (hqueue.trans hs.queue)
    (hactive.trans hs.active) hgoto fun g hg => ?_
  rw [hstate g] at hg
  refine (written_eq hg).resolve_right fun hwrite => hhow ?_
  simp only [writes, hpc, Option.map_eq_some_iff] at hwrite
  obtain ⟨state, hstate, heq⟩ := hwrite
  rw [hstate, (Prod.mk.inj heq).2]

end Awcotn.Scheduler
