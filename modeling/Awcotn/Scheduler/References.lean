import Awcotn.Scheduler.Pinned

/-!
# Who holds a fiber

A `Fiber` is destroyed as soon as the last `shared_ptr` to it is gone, and its destructor asserts that it is in `TERM`, `INIT` or `EXCEPT`. Pointers are held by the entries of the queue, by registrations with events and timers, by the variables `ft`, `cb_fiber` and `idle_fiber` of `run`, by the program, and by the fiber itself: `MainFunc` keeps one on the fiber's own stack from its first entry until its function has ended. So a fiber that has yielded outlives everybody else's interest in it.
-/

namespace Awcotn.References

open Transition Scheduler Process

/-- Where the context of a fiber stands: at the start of `MainFunc`, in the function, or past `cur.reset()` of `MainFunc`. -/
inductive Context
  | fresh
  | entered
  | ended
  deriving DecidableEq

/-- A scheduler with the pointers to its fibers. `task` is the fiber in the variable `ft` of each worker's `run`, `outside` lists the pointers that the program holds, and `alive` tells which fibers have been created and not destroyed. -/
structure State (C : Type*) where
  sched : Scheduler.State C
  context : FiberId → Context
  task : ThreadId → Option FiberId
  outside : List FiberId
  alive : FiberId → Bool

inductive Fault
  | sched (e : Scheduler.Fault)
  /-- `AWCOTN_ASSERT2(false, "never reach ...")` of `MainFunc` -/
  | neverReach
  /-- `AWCOTN_ASSERT(m_state == TERM || m_state == INIT || m_state == EXCEPT)` of `~Fiber` -/
  | destroyLive
  deriving DecidableEq

inductive Action (C : Type*)
  /-- A step of `run`, of fiber code, or of whoever schedules. -/
  | sched (a : Scheduler.Action C)
  /-- The program copies a pointer that it holds, or that `Fiber::GetThis` gives it. -/
  | copy (f : FiberId)
  /-- The program gives a pointer up. -/
  | drop (i : ℕ)
  deriving DecidableEq

variable {C : Type*}

/-- The variable `ft` of `run` across a step: the scan fills it, and it is emptied at the top of the loop, when its fiber is done with, and when its callback has gone into the callback fiber. -/
def taskAfter (task : Option FiberId) : Pc C → Pc C → Option FiberId
  | .head, .picked ft => ft.fiber
  | .head, _ | .picked _, .swapIn .cb _ | .initing _ (some _), _ | .counted .fiber _, .head | .requeue .fiber _, _
  | .hold .fiber _, _ => none
  | _, _ => task

/-- The fiber that a step switches to. -/
def switches (s : Scheduler.State C) : Scheduler.Action C → Option FiberId
  | .run w =>
    match s.pc w with
    | .entering _ f => some f
    | _ => none
  | _ => none

/-- The contexts after a step. `makecontext` comes with the write of `INIT`, and `cur.reset()` with that of `TERM` or `EXCEPT`. -/
def contextAfter (s : State C) (a : Scheduler.Action C) : FiberId → Context :=
  match writes s.sched a, switches s.sched a with
  | some (f, .INIT), _ => Function.update s.context f .fresh
  | some (f, .TERM), _ | some (f, .EXCEPT), _ => Function.update s.context f .ended
  | none, some f => if s.context f = .fresh then Function.update s.context f .entered else s.context
  | _, _ => s.context

/-- The step switches to a context that is past `cur.reset()`. -/
def resumesEnded (s : State C) (a : Scheduler.Action C) : Bool := (switches s.sched a).any fun f => s.context f == .ended

/-- The pointers of the program after a step: who creates a fiber gets one. -/
def outsideAfter (s : State C) : Scheduler.Action C → List FiberId
  | .newFiber _ => s.outside ++ [s.sched.nextFiber]
  | _ => s.outside

namespace State

/-- A worker holds a fiber in a variable of its `run`, which has not returned. -/
def workerHolds (s : State C) (w : ThreadId) (f : FiberId) : Bool :=
  match s.sched.pc w with
  | .exited => false
  | _ => s.task w == some f || s.sched.cbFiber w == some f || s.sched.idleFiber w == f

/-- Some `shared_ptr` points to the fiber. -/
def Held (workers : Finset ThreadId) (s : State C) (f : FiberId) : Prop :=
  (∃ ft ∈ s.sched.queue, ft.fiber = some f) ∨ f ∈ s.sched.waiting ∨ f ∈ s.outside ∨ s.context f = .entered ∨
    ∃ w ∈ workers, s.workerHolds w f = true

instance (workers : Finset ThreadId) (s : State C) (f : FiberId) : Decidable (s.Held workers f) := by
  unfold Held
  infer_instance

/-- The fiber of a worker runs. -/
def runs (s : State C) (w : ThreadId) (f : FiberId) : Bool :=
  match s.sched.pc w with
  | .running _ g => g == f
  | _ => false

/-- The program has a pointer to the fiber at hand. -/
def Reaches (workers : Finset ThreadId) (s : State C) (f : FiberId) : Prop := f ∈ s.outside ∨ ∃ w ∈ workers, s.runs w f = true

instance (workers : Finset ThreadId) (s : State C) (f : FiberId) : Decidable (s.Reaches workers f) := by
  unfold Reaches
  infer_instance

/-- The destructors of the fibers whose last pointer is gone. -/
def release (workers : Finset ThreadId) (s : State C) : Outcome Fault (State C) :=
  if ∀ f, f < s.sched.nextFiber → s.alive f = true → s.Held workers f ∨ (s.sched.fibers f).state.resettable = true then
    .next { s with alive := fun f => s.alive f && decide (s.Held workers f) }
  else .abort .destroyLive

end State

/-- What is scheduled is a pointer that the program has. -/
def MayStep (workers : Finset ThreadId) (s : State C) : Scheduler.Action C → Prop
  | .schedule ft => ∀ f, ft.fiber = some f → s.Reaches workers f
  | _ => True

theorem mayStep_none (workers : Finset ThreadId) (s : State C) (cb : Option C) (thread : Option ThreadId) :
    MayStep workers s (.schedule ⟨none, cb, thread⟩) := by
  simp [MayStep]

theorem mayStep_some (workers : Finset ThreadId) (s : State C) (f : FiberId) (cb : Option C) (thread : Option ThreadId) :
    s.Reaches workers f ↔ MayStep workers s (.schedule ⟨some f, cb, thread⟩) := by
  simp [MayStep]

instance (workers : Finset ThreadId) (s : State C) : (a : Scheduler.Action C) → Decidable (MayStep workers s a)
  | .schedule ⟨none, cb, thread⟩ => .isTrue (mayStep_none workers s cb thread)
  | .schedule ⟨some f, cb, thread⟩ => decidable_of_iff (s.Reaches workers f) (mayStep_some workers s f cb thread)
  | .newFiber _ | .register _ | .trigger _ | .exit _ _ | .run _ => .isTrue trivial

/-- The pointers after a step of the scheduler, before any destructor runs. -/
def moved (s : State C) (a : Scheduler.Action C) (sched : Scheduler.State C) : State C where
  sched := sched
  context := contextAfter s a
  task := match a.worker with
    | some w => Function.update s.task w (taskAfter (s.task w) (s.sched.pc w) (sched.pc w))
    | none => s.task
  outside := outsideAfter s a
  alive := fun f => s.alive f || (decide (s.sched.nextFiber ≤ f) && decide (f < sched.nextFiber))

def step (workers : Finset ThreadId) (s : State C) : Action C → Outcome Fault (State C)
  | .sched a =>
    if MayStep workers s a then
      if resumesEnded s a then .abort .neverReach
      else
        match Scheduler.step workers s.sched a with
        | .next sched => (moved s a sched).release workers
        | .abort e => .abort (.sched e)
        | .disabled => .disabled
    else .disabled
  | .copy f => if s.Reaches workers f then .next { s with outside := s.outside ++ [f] } else .disabled
  | .drop i =>
    if i < s.outside.length then { s with outside := s.outside.eraseIdx i }.release workers else .disabled

/-- The workers with their idle fibers, which nobody else holds. -/
def start (workers : Finset ThreadId) (idleCb : C) : State C where
  sched := Scheduler.start workers idleCb
  context := fun _ => .fresh
  task := fun _ => none
  outside := []
  alive := fun f => decide (f ∈ workers)

/-! ### What is to be shown -/

/-- `SwapsInAlone` for the steps of the scheduler. -/
def SwapsIn (s : State C) : Action C → Prop
  | .sched a => SwapsInAlone s.sched a
  | _ => True

/-- Nothing points to a fiber that has been destroyed: no queue entry, no registration, no variable, no worker at a fiber. Every other fiber is held by somebody, and one that has been entered and has not ended is among them. -/
structure Sound (workers : Finset ThreadId) (s : State C) : Prop where
  held : ∀ f, s.Held workers f → s.alive f = true
  points : ∀ w ∈ workers, ∀ f, At (s.sched.pc w) f → s.alive f = true
  leaves : ∀ f, s.alive f = true → s.Held workers f
  entered : ∀ f, s.context f = .entered → s.alive f = true
  destroyed : ∀ f, f < s.sched.nextFiber → s.alive f = false → (s.sched.fibers f).state.resettable = true

/-! ### The invariant -/

/-- The fiber whose function a worker runs, or that it has found in the middle of it. -/
def amid : Pc C → Option FiberId
  | .running _ f | .hold _ f => some f
  | _ => none

/-- The fiber that a worker has come back from and whose state it has not read. -/
def behind : Pc C → Option FiberId
  | .leaving _ f | .returned _ f | .counted _ f => some f
  | _ => none

/-- What holds before the destructors run. A worker has the fiber of its entry in `ft`; a fiber that a worker is amid has been entered and has not ended; and one that stands otherwise is in a state that the destructor allows, or is being entered. -/
structure RefInv (workers : Finset ThreadId) (s : State C) : Prop where
  known : Known workers s.sched
  apart : Apart Pc.concern s.sched.pc
  atHead : ∀ w, w ∉ workers → s.sched.pc w = .head
  task : ∀ w f, handles (s.sched.pc w) = some f → s.task w = some f
  amid : ∀ w f, amid (s.sched.pc w) = some f → s.context f = .entered
  behind : ∀ w f, behind (s.sched.pc w) = some f → s.context f = .entered ∨ (s.sched.fibers f).state.dead = true
  parked : ∀ f, s.context f ≠ .entered →
    (s.sched.fibers f).state.resettable = true ∨ ∃ w kind, s.sched.pc w = .entering kind f
  alive : ∀ f, s.Held workers f → s.alive f = true
  created : ∀ f, s.alive f = true → f < s.sched.nextFiber

section

variable {workers : Finset ThreadId} {s t : State C} {sched : Scheduler.State C} {w : ThreadId} {f : FiberId}

theorem concern_of_amid {pc : Pc C} (h : amid pc = some f) : pc.concern = some f := by
  cases pc with
  | running kind g | hold kind g => exact h
  | _ => cases h

theorem concern_of_behind {pc : Pc C} (h : behind pc = some f) : pc.concern = some f := by
  cases pc with
  | leaving kind g | returned kind g | counted kind g => exact h
  | _ => cases h

/-- A worker holds the fiber it is at. -/
theorem RefInv.held_of_at (hs : RefInv workers s) (hw : w ∈ workers) (h : At (s.sched.pc w) f) : s.Held workers f := by
  have hpoint : s.task w = some f ∨ s.sched.cbFiber w = some f ∨ s.sched.idleFiber w = f := by
    rcases h with hhandles | hcallback | hidles
    · exact .inl (hs.task w f hhandles)
    · exact .inr (.inl (hs.known.owners.owner w f hcallback))
    · obtain ⟨-, rfl⟩ := hs.known.owners.idle w f hidles
      exact .inr (.inr (hs.known.owners.idleFiber f))
  have hexited : s.sched.pc w ≠ .exited := by
    intro hpc
    rw [hpc] at h
    rcases h with h | h | h <;> cases h
  refine .inr (.inr (.inr (.inr ⟨w, hw, ?_⟩)))
  simp only [State.workerHolds]
  rcases hpoint with h | h | h <;> simp [h]

theorem mem_workers_of_at (hs : RefInv workers s) (h : At (s.sched.pc w) f) : w ∈ workers := by
  by_contra hw
  rw [hs.atHead w hw] at h
  rcases h with h | h | h <;> cases h

theorem RefInv.alive_of_at (hs : RefInv workers s) (h : At (s.sched.pc w) f) : s.alive f = true :=
  hs.alive f (hs.held_of_at (mem_workers_of_at hs h) h)

theorem RefInv.destroyed (hs : RefInv workers s) (h : ¬ s.Held workers f) : (s.sched.fibers f).state.resettable = true := by
  have hcontext : s.context f ≠ .entered := fun hentered => h (.inr (.inr (.inr (.inl hentered))))
  rcases hs.parked f hcontext with hstate | ⟨w, kind, hpc⟩
  · exact hstate
  · have hat : At (s.sched.pc w) f := at_of_inside (by rw [hpc]; rfl)
    exact absurd (hs.held_of_at (mem_workers_of_at hs hat) hat) h

/-- The destructors that run find fibers they allow, and nothing that is still held is destroyed. -/
theorem RefInv.release (hs : RefInv workers s) : ∃ t, s.release workers = .next t ∧ RefInv workers t ∧ Sound workers t := by
  have hall : ∀ f, f < s.sched.nextFiber → s.alive f = true →
      s.Held workers f ∨ (s.sched.fibers f).state.resettable = true := by
    intro f _ _
    by_cases hheld : s.Held workers f
    · exact .inl hheld
    · exact .inr (hs.destroyed hheld)
  refine ⟨_, if_pos hall, ?_, ?_⟩
  · refine ⟨hs.known, hs.apart, hs.atHead, hs.task, hs.amid, hs.behind, hs.parked, fun f hheld => ?_, fun f halive => ?_⟩
    · have hbefore : s.Held workers f := hheld
      simp [hbefore, hs.alive f hbefore]
    · exact hs.created f (Bool.and_eq_true_iff.1 halive).1
  · have hsound : ∀ f, s.Held workers f → (s.alive f && decide (s.Held workers f)) = true := fun f hheld => by
      simp [hheld, hs.alive f hheld]
    refine ⟨hsound, fun w hw f hat => hsound f (hs.held_of_at hw hat), fun f halive => ?_, fun f hentered => ?_,
      fun f _ hgone => ?_⟩
    · exact of_decide_eq_true (Bool.and_eq_true_iff.1 halive).2
    · exact hsound f (.inr (.inr (.inr (.inl hentered))))
    · by_cases hheld : s.Held workers f
      · exact absurd ((hsound f hheld).symm.trans hgone) (by simp)
      · exact hs.destroyed hheld

/-- A step leaves a fiber alone that another worker is concerned with. -/
theorem RefInv.untouched (hs : RefInv workers s) {a : Scheduler.Action C} (ha : SwapsInAlone s.sched a)
    (hconcern : (s.sched.pc w).concern = some f) (hother : ∀ how, a ≠ .run w ∧ a ≠ .exit w how) :
    ∀ v, ¬ Touches s.sched a v f := by
  intro v htouches
  have hvw : v ≠ w := by
    rintro rfl
    cases a with
    | run u => exact (hother .finish).1 (by rw [htouches.1])
    | exit u how => exact (hother how).2 (by rw [htouches.1])
    | _ => cases htouches
  rcases concern_of_touches htouches with hown | ⟨rfl, hfresh⟩
  · exact hvw (hs.apart v w f hown hconcern)
  · exact ha f hfresh w hvw.symm hconcern

/-- What the write of a state says of the context. -/
theorem contextAfter_of_writes {a : Scheduler.Action C} {state : FiberState} (h : writes s.sched a = some (f, state)) :
    contextAfter s a f = if state = .INIT then .fresh else if state.dead then .ended else s.context f := by
  simp only [contextAfter, h]
  cases state <;> simp [FiberState.dead]

/-- A context that no write concerns stays where it is, or is entered. -/
theorem contextAfter_of_notWritten {a : Scheduler.Action C} (h : ∀ state, writes s.sched a ≠ some (f, state)) :
    contextAfter s a f = s.context f ∨ switches s.sched a = some f ∧ contextAfter s a f = .entered := by
  cases hwrites : writes s.sched a with
  | some entry =>
      obtain ⟨g, state⟩ := entry
      have hne : f ≠ g := by
        rintro rfl
        exact h state hwrites
      left
      simp only [contextAfter, hwrites]
      cases state <;> simp [hne]
  | none =>
      cases hswitches : switches s.sched a with
      | none => exact .inl (by simp [contextAfter, hwrites, hswitches])
      | some g =>
          by_cases hf : f = g
          · subst hf
            by_cases hfresh : s.context f = .fresh
            · exact .inr ⟨rfl, by simp [contextAfter, hwrites, hswitches, hfresh]⟩
            · exact .inl (by simp [contextAfter, hwrites, hswitches, hfresh])
          · left
            simp only [contextAfter, hwrites, hswitches]
            split <;> simp [hf]

theorem switches_eq {sched : Scheduler.State C} {a : Scheduler.Action C} (h : switches sched a = some f) :
    ∃ w kind, a = .run w ∧ sched.pc w = .entering kind f := by
  cases a with
  | run w =>
      simp only [switches] at h
      split at h
      · rename_i kind g hpc
        obtain rfl := Option.some.inj h
        exact ⟨w, kind, rfl, hpc⟩
      · cases h
  | _ => cases h

/-- A fiber is entered where the step is made. -/
theorem contextAfter_entering {kind : Kind} (hpc : s.sched.pc w = .entering kind f)
    (h : resumesEnded s (.run w) = false) : contextAfter s (.run w) f = .entered := by
  have hwrites : writes s.sched (.run w) = none := by simp [writes, hpc]
  have hswitches : switches s.sched (.run w) = some f := by simp [switches, hpc]
  rw [resumesEnded, hswitches] at h
  simp only [contextAfter, hwrites, hswitches]
  cases hcontext : s.context f <;> simp_all

/-- Only a step that touches a fiber writes its state, unless the fiber is new. -/
theorem touches_of_writes {a : Scheduler.Action C} {state : FiberState} (h : writes s.sched a = some (f, state)) :
    (∃ v, Touches s.sched a v f) ∨ f = s.sched.nextFiber := by
  cases a with
  | newFiber cb => exact .inr (Prod.mk.inj (Option.some.inj h)).1.symm
  | exit v how =>
      simp only [writes] at h
      split at h
      · rename_i kind g hpc
        obtain ⟨state', -, hpair⟩ := Option.map_eq_some_iff.1 h
        obtain rfl := (Prod.mk.inj hpair).1
        exact .inl ⟨v, rfl, kind, hpc⟩
      · cases h
  | run v =>
      simp only [writes] at h
      split at h
      · split at h
        · exact .inr (Prod.mk.inj (Option.some.inj h)).1.symm
        · cases h
      · rename_i hpc
        obtain rfl := (Prod.mk.inj (Option.some.inj h)).1
        exact .inl ⟨v, rfl, by rw [hpc]; rfl⟩
      · rename_i hpc
        obtain rfl := (Prod.mk.inj (Option.some.inj h)).1
        exact .inl ⟨v, rfl, by rw [hpc]; rfl⟩
      · rename_i hpc
        obtain rfl := (Prod.mk.inj (Option.some.inj h)).1
        exact .inl ⟨v, rfl, by rw [hpc]; rfl⟩
      · cases h
  | schedule ft | register v | trigger i => cases h

/-- A step that leaves a fiber alone leaves its state and its context. -/
theorem kept_of_untouched {a : Scheduler.Action C} (h : Scheduler.step workers s.sched a = .next sched)
    (hf : f < s.sched.nextFiber) (hnot : ∀ v, ¬ Touches s.sched a v f) :
    contextAfter s a f = s.context f ∧ (sched.fibers f).state = (s.sched.fibers f).state := by
  have hwrites : ∀ state, writes s.sched a ≠ some (f, state) := by
    intro state hstate
    rcases touches_of_writes hstate with ⟨v, htouches⟩ | rfl
    · exact hnot v htouches
    · exact Nat.lt_irrefl _ hf
  refine ⟨?_, by rw [step_fibers_eq h hf hnot]⟩
  rcases contextAfter_of_notWritten hwrites with hsame | ⟨hswitches, -⟩
  · exact hsame
  · obtain ⟨v, kind, rfl, hpc⟩ := switches_eq hswitches
    exact absurd ⟨rfl, by rw [hpc]; rfl⟩ (hnot v)

theorem at_of_concern {pc : Pc C} (h : pc.concern = some f) : At pc f := by
  cases pc with
  | resetting g cb | initing g cb =>
      cases cb with
      | none => exact .inr (.inl h)
      | some c => cases h
  | entering kind g | running kind g | leaving kind g | returned kind g | counted kind g | requeue kind g | hold kind g =>
      obtain rfl : g = f := Option.some.inj h
      cases kind
      · exact .inl rfl
      · exact .inr (.inl rfl)
      · exact .inr (.inr rfl)
  | _ => cases h

/-- The other workers stay where they are, and find the fibers that they are concerned with as they were. -/
theorem RefInv.others (hs : RefInv workers s) {a : Scheduler.Action C} (ha : SwapsInAlone s.sched a)
    (h : Scheduler.step workers s.sched a = .next sched) (hother : a.worker ≠ some w) :
    sched.pc w = s.sched.pc w ∧ ∀ f, (s.sched.pc w).concern = some f →
      contextAfter s a f = s.context f ∧ (sched.fibers f).state = (s.sched.fibers f).state := by
  constructor
  · cases a with
    | run v =>
        obtain ⟨-, h⟩ := step_run_eq_next h
        obtain ⟨after, hrun⟩ := runStep_eq_next h
        rw [hrun.pc, Function.update_of_ne (by rintro rfl; exact hother rfl)]
    | exit v how =>
        obtain ⟨-, h⟩ := step_exit_eq_next h
        obtain ⟨kind, g, -, hgoto, -⟩ := exitStep_eq_next h
        rw [hgoto, Function.update_of_ne (by rintro rfl; exact hother rfl)]
    | schedule ft | newFiber cb | register v | trigger i => rw [(step_eq_next_of_worker_eq_none h rfl).1]
  · intro f hconcern
    refine kept_of_untouched h (hs.known.at (at_of_concern hconcern)) (hs.untouched ha hconcern fun how => ⟨?_, ?_⟩)
    · rintro rfl
      exact hother rfl
    · rintro rfl
      exact hother rfl

/-- What `run` does behind a fiber that has left leaves its context. -/
theorem contextAfter_of_behind (hpc : behind (s.sched.pc w) = some f) (g : FiberId) :
    contextAfter s (.run w) g = s.context g := by
  have hwrites : writes s.sched (.run w) = none := by
    cases hpoint : s.sched.pc w <;> rw [hpoint] at hpc <;> simp_all [writes, behind]
  have hswitches : switches s.sched (.run w) = none := by
    cases hpoint : s.sched.pc w <;> rw [hpoint] at hpc <;> simp_all [switches, behind]
  simp [contextAfter, hwrites, hswitches]

theorem state_of_behind (h : runStep s.sched w = .next sched) (hpc : behind (s.sched.pc w) = some f) (g : FiberId) :
    (sched.fibers g).state = (s.sched.fibers g).state := by
  rw [runStep_state h]
  cases hpoint : s.sched.pc w <;> rw [hpoint] at hpc <;> simp_all [writes, behind, written]

theorem moved_amid (hs : RefInv workers s) {a : Scheduler.Action C} (ha : SwapsInAlone s.sched a)
    (hended : resumesEnded s a = false) (h : Scheduler.step workers s.sched a = .next sched)
    (hf : amid (sched.pc w) = some f) : contextAfter s a f = .entered := by
  by_cases hworker : a.worker = some w
  · cases a with
    | run v =>
        obtain rfl : v = w := Option.some.inj hworker
        obtain ⟨-, hrunStep⟩ := step_run_eq_next h
        obtain ⟨after, hrun⟩ := runStep_eq_next hrunStep
        rw [hrun.pc, Function.update_self] at hf
        have hnext := hrun.next
        generalize hbefore : s.sched.pc v = before at hnext
        cases hnext with
        | enter kind g =>
            obtain rfl : g = f := Option.some.inj hf
            exact contextAfter_entering hbefore hended
        | read kind g =>
            have hg : behind (s.sched.pc v) = some g := by rw [hbefore]; rfl
            obtain ⟨rfl, hlive⟩ : g = f ∧ (s.sched.fibers g).state.dead = false := by
              cases kind <;> simp only [bookkeeping] at hf <;> (repeat' split at hf) <;> simp_all [amid]
            rw [contextAfter_of_behind hg]
            rcases hs.behind v g hg with hentered | hdead
            · exact hentered
            · rw [hlive] at hdead
              cases hdead
        | _ => cases hf
    | exit v how =>
        obtain rfl : v = w := Option.some.inj hworker
        obtain ⟨-, hexit⟩ := step_exit_eq_next h
        obtain ⟨kind, g, -, hgoto, -⟩ := exitStep_eq_next hexit
        rw [hgoto, Function.update_self] at hf
        cases hf
    | _ => cases hworker
  · obtain ⟨hpc, hkept⟩ := hs.others ha h hworker
    rw [hpc] at hf
    rw [(hkept f (concern_of_amid hf)).1]
    exact hs.amid w f hf

theorem moved_behind (hs : RefInv workers s) {a : Scheduler.Action C} (ha : SwapsInAlone s.sched a)
    (h : Scheduler.step workers s.sched a = .next sched) (hf : behind (sched.pc w) = some f) :
    contextAfter s a f = .entered ∨ (sched.fibers f).state.dead = true := by
  by_cases hworker : a.worker = some w
  · cases a with
    | run v =>
        obtain rfl : v = w := Option.some.inj hworker
        obtain ⟨-, hrunStep⟩ := step_run_eq_next h
        obtain ⟨after, hrun⟩ := runStep_eq_next hrunStep
        rw [hrun.pc, Function.update_self] at hf
        have hbehind : behind (s.sched.pc v) = some f := by
          have hnext := hrun.next
          generalize s.sched.pc v = before at hnext
          cases hnext with
          | back kind g hkind | backIdle g | count kind g => exact hf
          | read kind g => cases kind <;> simp only [bookkeeping] at hf <;> (repeat' split at hf) <;> cases hf
          | _ => cases hf
        rw [contextAfter_of_behind hbehind, state_of_behind hrunStep hbehind]
        exact hs.behind v f hbehind
    | exit v how =>
        obtain rfl : v = w := Option.some.inj hworker
        obtain ⟨-, hexit⟩ := step_exit_eq_next h
        obtain ⟨kind, g, hpc, hgoto, -⟩ := exitStep_eq_next hexit
        rw [hgoto, Function.update_self] at hf
        obtain rfl : g = f := Option.some.inj hf
        have hentered : s.context g = .entered := hs.amid v g (by rw [hpc]; rfl)
        rw [exitStep_state hexit]
        cases how with
        | finish | throw =>
            right
            simp [writes, hpc, Exit.state, written, FiberState.dead]
        | yieldToHold | yieldToReady | swapOut =>
            left
            simp [contextAfter, writes, switches, hpc, Exit.state, hentered]
    | _ => cases hworker
  · obtain ⟨hpc, hkept⟩ := hs.others ha h hworker
    rw [hpc] at hf
    obtain ⟨hcontext, hstate⟩ := hkept f (concern_of_behind hf)
    rw [hcontext, hstate]
    exact hs.behind w f hf

/-- A fiber that has not been entered, or has ended, is left in a state that its destructor allows, unless a worker is about to enter it. -/
theorem moved_parked (hs : RefInv workers s) {a : Scheduler.Action C} (hended : resumesEnded s a = false)
    (h : Scheduler.step workers s.sched a = .next sched) (hf : contextAfter s a f ≠ .entered) :
    (sched.fibers f).state.resettable = true ∨ ∃ w kind, sched.pc w = .entering kind f := by
  rw [step_state h]
  by_cases hwritten : ∃ state, writes s.sched a = some (f, state)
  · obtain ⟨state, hwrites⟩ := hwritten
    rw [hwrites]
    have hstate : written (some (f, state)) f (s.sched.fibers f).state = state := by simp [written]
    rw [hstate]
    rw [contextAfter_of_writes hwrites] at hf
    cases a with
    | run v =>
        rcases writes_run hwrites with rfl | ⟨rfl, kind, hpc⟩ | ⟨rfl, kind, hpc⟩
        · exact .inl rfl
        · obtain ⟨-, hrunStep⟩ := step_run_eq_next h
          rw [runStep, hpc] at hrunStep
          cases hrunStep
          exact .inr ⟨v, kind, Function.update_self ..⟩
        · simp only [FiberState.dead] at hf
          exact absurd (hs.amid v f (by rw [hpc]; rfl)) (by simpa using hf)
    | exit v how =>
        simp only [writes] at hwrites
        split at hwrites
        · rename_i kind g hpc
          obtain ⟨state', hhow, hpair⟩ := Option.map_eq_some_iff.1 hwrites
          obtain ⟨rfl, rfl⟩ := Prod.mk.inj hpair
          have hentered : s.context g = .entered := hs.amid v g (by rw [hpc]; rfl)
          cases how with
          | finish | throw =>
              cases hhow
              exact .inl rfl
          | yieldToHold | yieldToReady =>
              cases hhow
              simp [FiberState.dead, hentered] at hf
          | swapOut => cases hhow
        · cases hwrites
    | newFiber cb =>
        cases hwrites
        exact .inl rfl
    | schedule ft | register v | trigger i => cases hwrites
  · have hnot : ∀ state, writes s.sched a ≠ some (f, state) := not_exists.1 hwritten
    have hstate : written (writes s.sched a) f (s.sched.fibers f).state = (s.sched.fibers f).state := by
      rcases written_eq (rfl : written (writes s.sched a) f (s.sched.fibers f).state = _) with hsame | hwrites
      · exact hsame.symm
      · exact absurd hwrites (hnot _)
    rw [hstate]
    rcases contextAfter_of_notWritten hnot with hsame | ⟨-, hentered⟩
    · rw [hsame] at hf
      rcases hs.parked f hf with hresettable | ⟨w, kind, hpc⟩
      · exact .inl hresettable
      · refine .inr ⟨w, kind, ?_⟩
        cases a with
        | run v =>
            obtain ⟨-, hrunStep⟩ := step_run_eq_next h
            obtain ⟨after, hrun⟩ := runStep_eq_next hrunStep
            have hvw : w ≠ v := by
              rintro rfl
              exact absurd (hsame.symm.trans (contextAfter_entering hpc hended)) hf
            rw [hrun.pc, Function.update_of_ne hvw, hpc]
        | exit v how =>
            obtain ⟨-, hexit⟩ := step_exit_eq_next h
            obtain ⟨kind', g, hrunning, hgoto, -⟩ := exitStep_eq_next hexit
            have hvw : w ≠ v := by
              rintro rfl
              rw [hpc] at hrunning
              cases hrunning
            rw [hgoto, Function.update_of_ne hvw, hpc]
        | schedule ft | newFiber cb | register v | trigger i => rw [(step_eq_next_of_worker_eq_none h rfl).1, hpc]
    · exact absurd hentered hf

/-- A worker whose `run` has returned does nothing more. -/
theorem exited_step {a : Scheduler.Action C} (h : Scheduler.step workers s.sched a = .next sched)
    (hpc : s.sched.pc w = .exited) : sched.pc w = .exited := by
  cases a with
  | run v =>
      obtain ⟨-, hrunStep⟩ := step_run_eq_next h
      obtain ⟨after, hrun⟩ := runStep_eq_next hrunStep
      have hvw : w ≠ v := by
        rintro rfl
        rw [runStep, hpc] at hrunStep
        cases hrunStep
      rw [hrun.pc, Function.update_of_ne hvw, hpc]
  | exit v how =>
      obtain ⟨-, hexit⟩ := step_exit_eq_next h
      obtain ⟨kind, g, hrunning, hgoto, -⟩ := exitStep_eq_next hexit
      have hvw : w ≠ v := by
        rintro rfl
        rw [hpc] at hrunning
        cases hrunning
      rw [hgoto, Function.update_of_ne hvw, hpc]
  | schedule ft | newFiber cb | register v | trigger i => rw [(step_eq_next_of_worker_eq_none h rfl).1, hpc]

theorem workerHolds_eq {s : State C} : s.workerHolds w f = true ↔
    s.sched.pc w ≠ .exited ∧ (s.task w = some f ∨ s.sched.cbFiber w = some f ∨ s.sched.idleFiber w = f) := by
  simp only [State.workerHolds]
  split
  · rename_i hpc
    simp [hpc]
  · rename_i hpc
    have hne : s.sched.pc w ≠ .exited := hpc
    simp [hne, or_assoc]

/-- The variable `ft` has the fiber of the entry in hand. -/
theorem taskAfter_of_handles {task : Option FiberId} {before after : Pc C} (h : Next s.sched w before after)
    (htask : ∀ f, handles before = some f → task = some f) (hf : handles after = some f) :
    taskAfter task before after = some f := by
  cases h with
  | dequeue ft hmem hft => exact hf
  | takeFiber ft g hg hlive =>
      obtain rfl : g = f := Option.some.inj hf
      exact htask g hg
  | check kind g | exec kind g | enter kind g | count kind g | back kind g hkind =>
      cases kind with
      | fiber => exact htask f hf
      | _ => cases hf
  | read kind g =>
      cases kind with
      | fiber =>
          have hbefore : task = some g := htask g rfl
          simp only [bookkeeping] at hf ⊢
          (repeat' split at hf) <;> simp_all [handles, taskAfter]
      | cb | idle =>
          simp only [bookkeeping] at hf
          (repeat' split at hf) <;> cases hf
  | _ => cases hf

/-- The variable `ft` is filled by the scan only. -/
theorem taskAfter_eq {task : Option FiberId} {before after : Pc C} (h : taskAfter task before after = some f) :
    task = some f ∨ before = .head ∧ handles after = some f := by
  simp only [taskAfter] at h
  split at h
  · exact .inr ⟨rfl, h⟩
  · cases h
  · cases h
  · cases h
  · cases h
  · cases h
  · cases h
  · exact .inl h

/-- The variables `ft` after a step. -/
theorem moved_task_eq (a : Scheduler.Action C) (w : ThreadId) :
    (moved s a sched).task w = if a.worker = some w then taskAfter (s.task w) (s.sched.pc w) (sched.pc w) else s.task w := by
  show (match a.worker with
    | some w => Function.update s.task w (taskAfter (s.task w) (s.sched.pc w) (sched.pc w))
    | none => s.task) w = _
  cases a.worker with
  | none => simp
  | some v =>
      by_cases hvw : w = v
      · subst hvw
        simp
      · simp [hvw, Ne.symm hvw]

theorem moved_task (hs : RefInv workers s) {a : Scheduler.Action C} (ha : SwapsInAlone s.sched a)
    (h : Scheduler.step workers s.sched a = .next sched) (hf : handles (sched.pc w) = some f) :
    (moved s a sched).task w = some f := by
  rw [moved_task_eq]
  split
  · rename_i hworker
    cases a with
    | run v =>
        obtain rfl : v = w := Option.some.inj hworker
        obtain ⟨-, hrunStep⟩ := step_run_eq_next h
        obtain ⟨after, hrun⟩ := runStep_eq_next hrunStep
        have hself : sched.pc v = after := by rw [hrun.pc, Function.update_self]
        rw [hself] at hf ⊢
        exact taskAfter_of_handles hrun.next (hs.task v) hf
    | exit v how =>
        obtain rfl : v = w := Option.some.inj hworker
        obtain ⟨-, hexit⟩ := step_exit_eq_next h
        obtain ⟨kind, g, hpc, hgoto, -⟩ := exitStep_eq_next hexit
        rw [hgoto, Function.update_self] at hf ⊢
        rw [hpc]
        refine hs.task v f ?_
        rw [hpc]
        cases kind <;> exact hf
    | _ => cases hworker
  · rename_i hworker
    exact hs.task w f ((hs.others ha h hworker).1 ▸ hf)

/-- What the program has a pointer to has not been destroyed. -/
theorem RefInv.alive_of_reaches (hs : RefInv workers s) (h : s.Reaches workers f) : s.alive f = true := by
  rcases h with houtside | ⟨w, hw, hruns⟩
  · exact hs.alive f (.inr (.inr (.inl houtside)))
  · simp only [State.runs] at hruns
    split at hruns
    · rename_i kind g hpc
      obtain rfl : g = f := by simpa using hruns
      exact hs.alive_of_at (w := w) (at_of_inside (by rw [hpc]; rfl))
    · cases hruns

/-- Every pointer after a step is a copy of one before it, or points to a new fiber. -/
theorem moved_alive (hs : RefInv workers s) {a : Scheduler.Action C} (hmay : MayStep workers s a)
    (h : Scheduler.step workers s.sched a = .next sched) (hheld : (moved s a sched).Held workers f) :
    (moved s a sched).alive f = true := by
  suffices hcases : s.alive f = true ∨ s.sched.nextFiber ≤ f ∧ f < sched.nextFiber by
    show (s.alive f || (decide (s.sched.nextFiber ≤ f) && decide (f < sched.nextFiber))) = true
    rcases hcases with halive | ⟨hlow, hhigh⟩
    · simp [halive]
    · simp [hlow, hhigh]
  rcases hheld with ⟨ft, hft, hfiber⟩ | hwaiting | houtside | hentered | ⟨w, hw, hworker⟩
  · left
    rcases queue_step h hft with hold | hpushed
    · exact hs.alive f (.inl ⟨ft, hold, hfiber⟩)
    · rcases pushed_eq hpushed with rfl | ⟨g, rfl, hwaiting | ⟨w, kind, -, hpc⟩⟩
      · exact hs.alive_of_reaches (hmay f hfiber)
      · obtain rfl : g = f := Option.some.inj hfiber
        exact hs.alive g (.inr (.inl hwaiting))
      · obtain rfl : g = f := Option.some.inj hfiber
        exact hs.alive_of_at (w := w) (hpc ▸ at_requeue kind g)
  · left
    rcases waiting_step h hwaiting with hold | ⟨w, -, hinside⟩
    · exact hs.alive f (.inr (.inl hold))
    · exact hs.alive_of_at (at_of_inside hinside)
  · have hout : f ∈ outsideAfter s a := houtside
    cases a with
    | newFiber cb =>
        rcases List.mem_append.1 hout with hold | hnew
        · exact .inl (hs.alive f (.inr (.inr (.inl hold))))
        · obtain rfl : f = s.sched.nextFiber := by simpa using hnew
          cases h
          exact .inr ⟨Nat.le_refl _, Nat.lt_succ_self _⟩
    | _ => exact .inl (hs.alive f (.inr (.inr (.inl hout))))
  · left
    have hcontext : contextAfter s a f = .entered := hentered
    by_cases hwritten : ∃ state, writes s.sched a = some (f, state)
    · obtain ⟨state, hwrites⟩ := hwritten
      rw [contextAfter_of_writes hwrites] at hcontext
      split at hcontext
      · cases hcontext
      · split at hcontext
        · cases hcontext
        · exact hs.alive f (.inr (.inr (.inr (.inl hcontext))))
    · rcases contextAfter_of_notWritten (not_exists.1 hwritten) with hsame | ⟨hswitches, -⟩
      · exact hs.alive f (.inr (.inr (.inr (.inl (hsame.symm.trans hcontext)))))
      · obtain ⟨w, kind, -, hpc⟩ := switches_eq hswitches
        exact hs.alive_of_at (w := w) (at_of_inside (by rw [hpc]; rfl))
  · obtain ⟨hexited, hvariable⟩ := workerHolds_eq.1 hworker
    have hbefore : s.sched.pc w ≠ .exited := fun hpc => hexited (exited_step h hpc)
    have hholds : ∀ g, s.task w = some g ∨ s.sched.cbFiber w = some g ∨ s.sched.idleFiber w = g → s.alive g = true :=
      fun g hg => hs.alive g (.inr (.inr (.inr (.inr ⟨w, hw, workerHolds_eq.2 ⟨hbefore, hg⟩⟩))))
    rcases hvariable with htask | hcbFiber | hidleFiber
    · left
      rw [moved_task_eq] at htask
      split at htask
      · rcases taskAfter_eq htask with hold | ⟨hhead, hhandles⟩
        · exact hholds f (.inl hold)
        · rcases handles_step h hhandles with hold | ⟨ft, hft, hfiber, -⟩
          · exact hs.alive_of_at (.inl hold)
          · exact hs.alive f (.inl ⟨ft, hft, hfiber⟩)
      · exact hholds f (.inl htask)
    · rcases cbFiber_step h hcbFiber with hold | ⟨rfl, hlt⟩
      · exact .inl (hholds f (.inr (.inl hold)))
      · exact .inr ⟨Nat.le_refl _, hlt⟩
    · left
      have hidle : sched.idleFiber w = w := (known_step hs.known h).owners.idleFiber w
      have hsame : s.sched.idleFiber w = f := (hs.known.owners.idleFiber w).trans (hidle.symm.trans hidleFiber)
      exact hholds f (.inr (.inr hsame))

theorem moved_refInv (hs : RefInv workers s) {a : Scheduler.Action C} (ha : SwapsInAlone s.sched a)
    (hmay : MayStep workers s a) (hended : resumesEnded s a = false)
    (h : Scheduler.step workers s.sched a = .next sched) : RefInv workers (moved s a sched) where
  known := known_step hs.known h
  apart := step_apart hs.apart ha h
  atHead w hw := (step_pc_of_notMem h hw).trans (hs.atHead w hw)
  task w f hf := moved_task hs ha h hf
  amid w f hf := moved_amid hs ha hended h hf
  behind w f hf := moved_behind hs ha h hf
  parked f hf := moved_parked hs hended h hf
  alive f hf := moved_alive hs hmay h hf
  created f hf := by
    have hcases : s.alive f = true ∨ s.sched.nextFiber ≤ f ∧ f < sched.nextFiber := by
      simpa [moved] using hf
    rcases hcases with hold | ⟨-, hlt⟩
    · exact (hs.created f hold).trans_le (nextFiber_le h)
    · exact hlt

theorem refInv_start (workers : Finset ThreadId) (idleCb : C) : RefInv workers (start workers idleCb) where
  known := known_start workers idleCb
  apart := apart_start workers idleCb
  atHead := fun _ _ => rfl
  task := nofun
  amid := nofun
  behind := nofun
  parked := fun _ _ => .inl rfl
  alive f hf := by
    rcases hf with ⟨ft, hft, -⟩ | hwaiting | houtside | hentered | ⟨w, hw, hworker⟩
    · cases hft
    · cases hwaiting
    · cases houtside
    · cases hentered
    · have hidle : w = f := by simpa [workerHolds_eq, start, Scheduler.start] using hworker
      exact decide_eq_true (hidle ▸ hw)
  created f hf := Nat.lt_succ_of_le (Finset.le_sup (f := id) (of_decide_eq_true hf))

theorem start_sound (workers : Finset ThreadId) (idleCb : C) : Sound workers (start workers idleCb) := by
  have hs := refInv_start workers idleCb
  refine ⟨hs.alive, fun w hw f hat => ?_, fun f halive => ?_, nofun, fun _ _ _ => rfl⟩
  · rcases hat with hat | hat | hat <;> cases hat
  · refine .inr (.inr (.inr (.inr ⟨f, of_decide_eq_true halive, ?_⟩)))
    simp [workerHolds_eq, start, Scheduler.start]

/-- A step keeps the invariant, and no destructor that it runs finds a fiber in the middle of its function. -/
theorem step_refInv (hs : RefInv workers s) {a : Action C} (ha : SwapsIn s a) :
    step workers s a ≠ .abort .destroyLive ∧
      ∀ t, step workers s a = .next t → RefInv workers t ∧ (Sound workers s → Sound workers t) := by
  cases a with
  | sched a =>
      simp only [step]
      split
      · rename_i hmay
        split
        · simp
        · rename_i hended
          cases hsched : Scheduler.step workers s.sched a with
          | next sched =>
              have hmoved := moved_refInv hs ha hmay (by simpa using hended) hsched
              obtain ⟨u, hrelease, hinv, hsound⟩ := hmoved.release
              dsimp only
              rw [hrelease]
              refine ⟨by simp, fun t ht => ?_⟩
              cases ht
              exact ⟨hinv, fun _ => hsound⟩
          | abort e => simp
          | disabled => simp
      · simp
  | copy f =>
      simp only [step]
      split
      · rename_i hreaches
        refine ⟨by simp, fun t ht => ?_⟩
        cases ht
        have halive : ∀ g, State.Held workers { s with outside := s.outside ++ [f] } g → s.Held workers g ∨ g = f := by
          rintro g (hg | hg | hg | hg | hg)
          · exact .inl (.inl hg)
          · exact .inl (.inr (.inl hg))
          · rcases List.mem_append.1 hg with hold | hnew
            · exact .inl (.inr (.inr (.inl hold)))
            · exact .inr (List.mem_singleton.1 hnew)
          · exact .inl (.inr (.inr (.inr (.inl hg))))
          · exact .inl (.inr (.inr (.inr (.inr hg))))
        have hheld : ∀ g, State.Held workers { s with outside := s.outside ++ [f] } g → s.alive g = true := by
          intro g hg
          rcases halive g hg with hold | rfl
          · exact hs.alive g hold
          · exact hs.alive_of_reaches hreaches
        refine ⟨⟨hs.known, hs.apart, hs.atHead, hs.task, hs.amid, hs.behind, hs.parked, hheld, hs.created⟩, fun hsound => ?_⟩
        refine ⟨hheld, hsound.points, fun g hg => ?_, hsound.entered, hsound.destroyed⟩
        rcases hsound.leaves g hg with hg | hg | hg | hg | hg
        · exact .inl hg
        · exact .inr (.inl hg)
        · exact .inr (.inr (.inl (List.mem_append_left _ hg)))
        · exact .inr (.inr (.inr (.inl hg)))
        · exact .inr (.inr (.inr (.inr hg)))
      · simp
  | drop i =>
      simp only [step]
      split
      · have hfewer : RefInv workers { s with outside := s.outside.eraseIdx i } := by
          refine ⟨hs.known, hs.apart, hs.atHead, hs.task, hs.amid, hs.behind, hs.parked, fun f hf => hs.alive f ?_, hs.created⟩
          rcases hf with hf | hf | hf | hf | hf
          · exact .inl hf
          · exact .inr (.inl hf)
          · exact .inr (.inr (.inl (List.mem_of_mem_eraseIdx hf)))
          · exact .inr (.inr (.inr (.inl hf)))
          · exact .inr (.inr (.inr (.inr hf)))
        obtain ⟨u, hrelease, hinv, hsound⟩ := hfewer.release
        rw [hrelease]
        refine ⟨by simp, fun t ht => ?_⟩
        cases ht
        exact ⟨hinv, fun _ => hsound⟩
      · simp

/-- What a step of the scheduler does to the fibers and their contexts. -/
theorem sched_eq_next {a : Scheduler.Action C} (h : step workers s (.sched a) = .next t) :
    ∃ sched, Scheduler.step workers s.sched a = .next sched ∧ resumesEnded s a = false ∧ t.sched = sched ∧
      t.context = contextAfter s a := by
  simp only [step] at h
  split at h
  · split at h
    · cases h
    · rename_i hended
      split at h
      · rename_i sched hsched
        refine ⟨sched, hsched, by simpa using hended, ?_⟩
        simp only [State.release] at h
        split at h <;> cases h
        exact ⟨rfl, rfl⟩
      · cases h
      · cases h
  · cases h

end

/-- `SwapsIn`, with the workers of the run in the place of all threads. -/
def swapsInAmong (workers : Finset ThreadId) (s : State C) : Action C → Bool
  | .sched a => swapsInAloneAmong workers s.sched a
  | _ => true

theorem along_swapsIn {workers : Finset ThreadId} {idleCb : C} {acts : List (Action C)}
    (h : Along (step workers) (fun s a => swapsInAmong workers s a = true) (start workers idleCb) acts) :
    Along (step workers) SwapsIn (start workers idleCb) acts := by
  have hallowed : ∀ (s : State C) a, RefInv workers s → swapsInAmong workers s a = true → SwapsIn s a := by
    intro s a hs ha
    cases a with
    | sched a => exact swapsInAlone_of_among hs.atHead ha
    | copy f | drop i => trivial
  have hinv := (throughout_of_along (I := RefInv workers) (fun s a t hs ha ht =>
    ((step_refInv hs (hallowed s a hs ha)).2 t ht).1) (refInv_start workers idleCb) h).2
  exact hinv.mono fun s a hs => hallowed s a hs.1 hs.2

/-- In a run that swaps fibers in only while no other worker is concerned with them, whoever takes and gives up pointers to them: the destructor's assertion on the state holds, so no fiber is destroyed in the middle of its function, and nothing points to a fiber that has been destroyed. -/
theorem destroyed_outside_function (workers : Finset ThreadId) (idleCb : C) (acts : List (Action C))
    (h : Along (step workers) SwapsIn (start workers idleCb) acts) :
    run (step workers) (start workers idleCb) acts ≠ .abort .destroyLive ∧
      Throughout (step workers) (Sound workers) (start workers idleCb) acts := by
  obtain ⟨hall, halong⟩ := throughout_of_along (I := fun s : State C => RefInv workers s ∧ Sound workers s)
    (fun s a t hs ha ht => ⟨((step_refInv hs.1 ha).2 t ht).1, ((step_refInv hs.1 ha).2 t ht).2 hs.2⟩)
    ⟨refInv_start workers idleCb, start_sound workers idleCb⟩ h
  refine ⟨?_, hall.mono fun s hs => hs.2⟩
  rw [run_ne_abort_iff_along (P := fun s a => step workers s a ≠ .abort .destroyLive) (fun s a => by simp)]
  exact halong.mono fun s a hs => (step_refInv hs.1.1 hs.2).1

/-- Two workers. The program gives up its pointer to fiber 3 while worker 1 runs it; the fiber yields, is left to itself, is woken and returns on worker 2, and is destroyed. Worker 1 runs a callback meanwhile. -/
def leavingRun : List (Action Unit) :=
  [[.sched (.newFiber ()), .sched (.schedule ⟨some 3, none, none⟩)], List.replicate 5 (.sched (.run 1)),
    [.sched (.register 1), .drop 0, .sched (.exit 1 .yieldToHold)], List.replicate 4 (.sched (.run 1)),
    [.sched (.schedule ⟨none, some (), none⟩), .sched (.run 1), .sched (.trigger 0)], List.replicate 5 (.sched (.run 2)),
    List.replicate 4 (.sched (.run 1)), [.sched (.exit 2 .finish)], List.replicate 4 (.sched (.run 2))].flatten

theorem swapsIn_leavingRun : Along (step {1, 2}) SwapsIn (start {1, 2} ()) leavingRun :=
  along_swapsIn (by decide +kernel)

theorem destroyed_outside_function_leaving :
    (∃ t, run (step {1, 2}) (start {1, 2} ()) leavingRun = .next t ∧ t.alive 3 = false ∧ t.alive 4 = true ∧
      t.sched.pc 1 = .running .cb 4) ∧
    run (step {1, 2}) (start {1, 2} ()) leavingRun ≠ .abort .destroyLive ∧
      Throughout (step {1, 2}) (Sound {1, 2}) (start {1, 2} ()) leavingRun :=
  ⟨⟨_, rfl, by decide +kernel, by decide +kernel, by decide +kernel⟩,
    destroyed_outside_function {1, 2} () _ swapsIn_leavingRun⟩

end Awcotn.References
