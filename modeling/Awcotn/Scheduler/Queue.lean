import Awcotn.Scheduler.Steps

/-!
# Scheduling tasks

The two `schedule` templates of `scheduler.h` and the `scheduleNoLock` under them. A task is a fiber or a function, and either may be null. A single call takes it by value; a range call passes pointers to its elements, and what it takes it swaps out of them.
-/

namespace Awcotn.Scheduler

open Transition

variable {C : Type*}

/-- What `schedule` takes: a `Fiber::ptr` or a `std::function`, null or not. -/
inductive FiberOrCb (C : Type*)
  | fiber (f : Option FiberId)
  | cb (c : Option C)
  deriving DecidableEq

/-- The constructors of `FiberAndThread`. -/
def FiberOrCb.entry (fc : FiberOrCb C) (thread : Option ThreadId) : FiberAndThread C :=
  match fc with
  | .fiber f => ⟨f, none, thread⟩
  | .cb c => ⟨none, c, thread⟩

/-- What the constructors from a pointer leave where it points. -/
def FiberOrCb.swapped : FiberOrCb C → FiberOrCb C
  | .fiber _ => .fiber none
  | .cb _ => .cb none

/-- `ft.fiber || ft.cb` -/
def FiberAndThread.isTask (ft : FiberAndThread C) : Bool := ft.fiber.isSome || ft.cb.isSome

namespace State

/-- `scheduleNoLock`: whether the queue was empty, and the queue with the task. -/
def scheduleNoLock (s : State C) (ft : FiberAndThread C) : Bool × State C := (s.queue.isEmpty, s.schedule ft)

/-- The loop of a range call, with `need_tickle` so far. -/
def scheduleRange (s : State C) : List (FiberOrCb C) → Bool → Bool × State C
  | [], needTickle => (needTickle, s)
  | fc :: rest, needTickle =>
    let r := s.scheduleNoLock (fc.entry none)
    r.2.scheduleRange rest (r.1 || needTickle)

end State

theorem schedule_eq (s : State C) (ft : FiberAndThread C) :
    s.schedule ft = { s with queue := s.queue ++ if ft.isTask then [ft] else [] } := by
  show (if ft.isTask then { s with queue := s.queue ++ [ft] } else s) = _
  cases ft.isTask with
  | false => simp
  | true => rfl

@[simp] theorem schedule_queue (s : State C) (ft : FiberAndThread C) :
    (s.schedule ft).queue = s.queue ++ if ft.isTask then [ft] else [] := by
  rw [schedule_eq]

@[simp] theorem swapped_entry_isTask (fc : FiberOrCb C) (thread : Option ThreadId) :
    (fc.swapped.entry thread).isTask = false := by
  cases fc <;> rfl

/-- A range call changes the queue only, and appends the tasks of the range that are not null. -/
theorem scheduleRange_snd (s : State C) (range : List (FiberOrCb C)) (needTickle : Bool) :
    (s.scheduleRange range needTickle).2 =
      { s with queue := s.queue ++ (range.map fun fc => fc.entry none).filter FiberAndThread.isTask } := by
  induction range generalizing s needTickle with
  | nil => simp [State.scheduleRange]
  | cons fc rest ih =>
      rw [State.scheduleRange, ih, State.scheduleNoLock]
      cases htask : (fc.entry none).isTask with
      | false => simp [schedule_eq, htask]
      | true => simp [schedule_eq, htask]

/-- A range call that finds elements wants a tickle if the queue was empty. -/
theorem scheduleRange_fst (s : State C) (range : List (FiberOrCb C)) (needTickle : Bool) :
    (s.scheduleRange range needTickle).1 = (needTickle || (s.queue.isEmpty && !range.isEmpty)) := by
  induction range generalizing s needTickle with
  | nil => simp [State.scheduleRange]
  | cons fc rest ih =>
      rw [State.scheduleRange, ih, State.scheduleNoLock]
      cases hempty : s.queue.isEmpty with
      | false =>
          have hqueue : (s.schedule (fc.entry none)).queue.isEmpty = false := by
            rw [List.isEmpty_eq_false_iff] at hempty ⊢
            rw [schedule_queue]
            exact List.append_ne_nil_of_left_ne_nil hempty _
          rw [hqueue]
          simp
      | true => simp

/-! ### What a step does to the queue -/

/-- The entry that a step pushes, under the mutex. -/
def pushed (s : State C) : Action C → Option (FiberAndThread C)
  | .schedule ft => some ft
  | .trigger i => s.waiting[i]?.map fun f => ⟨some f, none, none⟩
  | .run w =>
    match s.pc w with
    | .requeue _ f => some ⟨some f, none, none⟩
    | _ => none
  | _ => none

section

variable {workers : Finset ThreadId} {s t : State C}

/-- Outside the scan, `run` only appends to the queue. -/
theorem runStep_queue {w : ThreadId} (h : runStep s w = .next t) (hhead : s.pc w ≠ .head) :
    t.queue = s.queue ++ ((pushed s (.run w)).filter FiberAndThread.isTask).toList := by
  simp only [runStep] at h
  cases hpc : s.pc w with
  | head => exact absurd hpc hhead
  | picked ft =>
      rw [hpc] at h
      cases h
      simp only [pushed, hpc, Option.filter_none, Option.toList_none, List.append_nil, branch]
      split
      · rfl
      · split
        · split <;> rfl
        · rfl
  | requeue kind f =>
      rw [hpc] at h
      cases h
      by_cases hkind : kind = .cb <;>
        simp [pushed, hpc, hkind, State.goto, State.setCbFiber, FiberAndThread.isTask, Option.filter]
  | hold kind f =>
      rw [hpc] at h
      cases h
      by_cases hkind : kind = .cb <;> simp [pushed, hpc, hkind, State.goto, State.setCbFiber, State.setState]
  | noTask | resetting f cb | swapIn kind f =>
      rw [hpc] at h
      dsimp only at h
      split at h <;> cases h <;> simp [pushed, hpc, State.goto]
  | running kind f | exited =>
      rw [hpc] at h
      cases h
  | initing f cb | checked kind f | entering kind f | leaving kind f | returned kind f | counted kind f | idleDone =>
      rw [hpc] at h
      cases h
      simp [pushed, hpc, State.goto, State.setFiber, State.setState]

theorem exitStep_queue {w : ThreadId} {how : Exit} (h : exitStep s w how = .next t) : t.queue = s.queue := by
  simp only [exitStep] at h
  split at h
  · split at h
    · cases h
    cases how with
    | swapOut =>
        dsimp only at h
        split at h <;> cases h
        rfl
    | _ =>
        cases h
        rfl
  · cases h

/-- A step that does not scan the queue appends what it pushes, unless that is empty. -/
theorem step_queue {a : Action C} (h : step workers s a = .next t)
    (hhead : ∀ w, a = .run w → s.pc w ≠ .head) :
    t.queue = s.queue ++ ((pushed s a).filter FiberAndThread.isTask).toList := by
  cases a with
  | schedule ft =>
      simp only [step] at h
      split at h
      · cases h
        cases htask : ft.isTask <;> simp [pushed, Option.filter, htask]
      · cases h
  | newFiber cb =>
      cases h
      simp [pushed, State.setFiber]
  | register w =>
      simp only [step] at h
      split at h
      · cases h
        simp [pushed]
      · cases h
  | trigger i =>
      simp only [step] at h
      split at h
      · rename_i f hf
        cases h
        simp [pushed, hf, FiberAndThread.isTask, Option.filter]
      · cases h
  | exit w how =>
      obtain ⟨-, h⟩ := step_exit_eq_next h
      simp [pushed, exitStep_queue h]
  | run w =>
      obtain ⟨-, h⟩ := step_run_eq_next h
      exact runStep_queue h (hhead w rfl)

end

end Awcotn.Scheduler
