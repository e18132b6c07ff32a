import Awcotn.Scheduler.Steps

/-!
# One worker at a time

`run` skips entries whose fiber is in `EXEC`, and `swapIn` asserts that the fiber is not. Neither protects a fiber on its way out: `YieldToHold` writes `HOLD` before `swapOut` has saved the context, so a wake-up that arrives in between lets another worker swap the fiber in, and the first worker then goes on to write `HOLD` over the state of a running fiber.

A worker is concerned with a fiber from the `EXEC` write of its `swapIn` to the last thing `run` does with it after `swapIn` has returned. If no fiber is swapped in or reused while another worker is concerned with it, workers stay apart, and every write falls to the worker concerned.
-/

namespace Awcotn.Scheduler

open Transition Process

variable {C : Type*}

/-- The fiber a worker has swapped in and not yet saved the context of. -/
def Pc.inside : Pc C → Option FiberId
  | .entering _ f | .running _ f | .leaving _ f => some f
  | _ => none

/-- The fiber a worker is concerned with. -/
def Pc.concern : Pc C → Option FiberId
  | .entering _ f | .running _ f | .leaving _ f | .returned _ f | .counted _ f | .requeue _ f | .hold _ f => some f
  | .resetting f none | .initing f none => some f
  | _ => none

/-- The fiber that the next step of `run` swaps in, writes the state of, or queues again as `READY`. -/
def Pc.touches : Pc C → Option FiberId
  | .checked _ f | .entering _ f | .initing f _ | .hold _ f | .requeue _ f => some f
  | _ => none

/-- The worker an action belongs to and the fiber it touches: in `run`, or in the code of the fiber itself. -/
def Touches (s : State C) : Action C → ThreadId → FiberId → Prop
  | .run w, v, f => v = w ∧ (s.pc w).touches = some f
  | .exit w _, v, f => v = w ∧ ∃ kind, s.pc w = .running kind f
  | _, _, _ => False

/-- A step that swaps a fiber in or writes its state finds no other worker between swapping that fiber in and having saved its context. -/
def Exclusive (s : State C) (a : Action C) : Prop :=
  ∀ w f, Touches s a w f → ∀ v, v ≠ w → (s.pc v).inside ≠ some f

/-- A fiber is swapped in, or reused for a new callback, only while no other worker is concerned with it. -/
def SwapsInAlone (s : State C) : Action C → Prop
  | .run w => ∀ f, ((∃ kind, s.pc w = .checked kind f) ∨ ∃ c, s.pc w = .initing f (some c)) →
      ∀ v, v ≠ w → (s.pc v).concern ≠ some f
  | _ => True

variable {workers : Finset ThreadId} {s t : State C} {w : ThreadId}

theorem concern_of_inside {pc : Pc C} {f : FiberId} (h : pc.inside = some f) : pc.concern = some f := by
  cases pc <;> simp_all [Pc.inside, Pc.concern]

/-- Moving on, a worker is concerned with nothing new, except at the `EXEC` write. -/
theorem Next.concern {before after : Pc C} (h : Next s w before after) {f : FiberId} (hafter : after.concern = some f) :
    before.concern = some f ∨ ∃ kind, before = .checked kind f := by
  cases h with
  | read kind f' =>
      left
      cases kind <;> simp only [bookkeeping] at hafter <;> (repeat' split at hafter) <;> simp_all [Pc.concern]
  | exec kind f' =>
      right
      obtain rfl : f' = f := by simpa [Pc.concern] using hafter
      exact ⟨kind, rfl⟩
  | reset f' cb =>
      left
      cases cb <;> exact hafter
  | _ => simp_all [Pc.concern]

/-- Workers stay apart. -/
theorem step_apart (hs : Apart Pc.concern s.pc) {a : Action C} (ha : SwapsInAlone s a)
    (h : step workers s a = .next t) : Apart Pc.concern t.pc := by
  cases a with
  | run w =>
      obtain ⟨-, h⟩ := step_run_eq_next h
      obtain ⟨after, hrun⟩ := runStep_eq_next h
      rw [hrun.pc]
      refine hs.update fun f hf => ?_
      rcases hrun.next.concern hf with hbefore | hchecked
      · exact .inl hbefore
      · exact .inr (ha f (.inl hchecked))
  | exit w how =>
      obtain ⟨-, h⟩ := step_exit_eq_next h
      obtain ⟨kind, f, hpc, hgoto, -⟩ := exitStep_eq_next h
      rw [hgoto]
      exact hs.update fun f' hf' => .inl (by rw [hpc]; exact hf')
  | _ => exact (step_eq_next_of_worker_eq_none h rfl).1 ▸ hs

/-- Whoever touches a fiber is concerned with it, or is about to swap it in or reuse it. -/
theorem concern_of_touches {a : Action C} {f : FiberId} (h : Touches s a w f) :
    (s.pc w).concern = some f ∨
      a = .run w ∧ ((∃ kind, s.pc w = .checked kind f) ∨ ∃ c, s.pc w = .initing f (some c)) := by
  cases a with
  | run v =>
      obtain ⟨rfl, htouches⟩ := h
      cases hpc : s.pc w with
      | initing f' cb => cases cb <;> simp_all [Pc.touches, Pc.concern]
      | _ => simp_all [Pc.touches, Pc.concern]
  | exit v how =>
      obtain ⟨rfl, kind, hpc⟩ := h
      exact .inl (by rw [hpc]; rfl)
  | _ => cases h

theorem exclusive_of_apart (hs : Apart Pc.concern s.pc) {a : Action C} (ha : SwapsInAlone s a) : Exclusive s a := by
  intro w f htouches v hne hinside
  have hconcern := concern_of_inside hinside
  rcases concern_of_touches htouches with hown | ⟨rfl, hfresh⟩
  · exact hne (hs v w f hconcern hown)
  · exact ha f hfresh v hne hconcern

/-- Nothing else writes a fiber that exists. -/
theorem step_fibers_eq {a : Action C} (h : step workers s a = .next t) {f : FiberId} (hf : f < s.nextFiber)
    (hnot : ∀ w, ¬ Touches s a w f) : t.fibers f = s.fibers f := by
  cases a with
  | run w =>
      obtain ⟨-, h⟩ := step_run_eq_next h
      obtain ⟨after, hrun⟩ := runStep_eq_next h
      refine hrun.fibers f hf fun hwrites => hnot w ⟨rfl, ?_⟩
      cases hpc : s.pc w <;> simp_all [Pc.writes, Pc.touches]
  | exit w how =>
      obtain ⟨-, h⟩ := step_exit_eq_next h
      obtain ⟨kind, f', hpc, -, -, -, hfibers⟩ := exitStep_eq_next h
      refine hfibers f ?_
      rintro rfl
      exact hnot w ⟨rfl, kind, hpc⟩
  | _ => exact (step_eq_next_of_worker_eq_none h rfl).2.2.2 f hf

theorem apart_start (workers : Finset ThreadId) (idleCb : C) : Apart Pc.concern (start workers idleCb).pc := by
  intro w v f hw
  cases hw

/-- In a run that swaps fibers in only while no other worker is concerned with them, from the moment a worker swaps a fiber in until it has saved the fiber's context no other worker swaps that fiber in or writes its state. -/
theorem exclusive_of_swapsInAlone (workers : Finset ThreadId) (idleCb : C) (acts : List (Action C))
    (h : Along (step workers) SwapsInAlone (start workers idleCb) acts) :
    Along (step workers) Exclusive (start workers idleCb) acts :=
  (throughout_of_along (fun _ _ _ hs ha ht => step_apart hs ha ht) (apart_start workers idleCb) h).2.mono
    fun _ _ hs => exclusive_of_apart hs.1 hs.2

/-- The fiber that the next step of `run` swaps in, or resets for a new callback. -/
def Pc.enters : Pc C → Option FiberId
  | .checked _ f | .initing f (some _) => some f
  | _ => none

/-- `SwapsInAlone`, with the workers of the run in the place of all threads. -/
def swapsInAloneAmong (workers : Finset ThreadId) (s : State C) : Action C → Bool
  | .run w => decide (∀ f ∈ (s.pc w).enters, ∀ v ∈ workers, v ≠ w → (s.pc v).concern ≠ some f)
  | _ => true

/-- Threads that are no workers are concerned with nothing. -/
theorem swapsInAlone_of_among {a : Action C} (hhead : ∀ v ∉ workers, s.pc v = .head)
    (h : swapsInAloneAmong workers s a = true) : SwapsInAlone s a := by
  cases a with
  | run w =>
      simp only [swapsInAloneAmong, decide_eq_true_eq] at h
      intro f hfresh v hv hconcern
      have henters : (s.pc w).enters = some f := by
        rcases hfresh with ⟨kind, hpc⟩ | ⟨c, hpc⟩ <;> rw [hpc] <;> rfl
      by_cases hmem : v ∈ workers
      · exact h f henters v hmem hv hconcern
      · rw [hhead v hmem] at hconcern
        cases hconcern
  | _ => trivial

/-- The fiber registers itself and yields; the wake-up is dequeued by a second worker before the first has saved the context. -/
theorem yielding_fiber_swapped_in_twice :
    ¬ ∀ acts : List (Action Unit), Along (step {1, 2}) Exclusive (start {1, 2} ()) acts := by
  intro h
  have hrun := h [.newFiber (), .schedule ⟨some 3, none, none⟩, .run 1, .run 1, .run 1, .run 1, .run 1, .register 1,
    .exit 1 .yieldToHold, .trigger 0, .run 2, .run 2, .run 2, .run 2]
  have hprefix : run (step {1, 2}) (start {1, 2} ()) ([.newFiber (), .schedule ⟨some 3, none, none⟩, .run 1, .run 1, .run 1,
    .run 1, .run 1, .register 1, .exit 1 .yieldToHold, .trigger 0, .run 2, .run 2, .run 2] : List (Action Unit)) = .next _ := rfl
  have hlast := ((along_append hprefix).1 hrun).2.1
  exact hlast 2 3 ⟨rfl, by decide +kernel⟩ 1 (by decide) (by decide +kernel)

end Awcotn.Scheduler
