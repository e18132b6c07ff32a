import Awcotn.Scheduler.Owners
import Awcotn.Shutdown.Custody

/-!
# The workers of a manager

The idle fibers stay with their workers: nobody queues one, registers one with an event or keeps one for a callback. Whatever else is queued or registered has been created later.
-/

namespace Awcotn.Shutdown

open Transition Scheduler

variable {C : Type*} {th : Threads} {procs : Finset ThreadId} {s t : State C}

/-- A step of the scheduler inside a step of the manager: fiber code that leaves its fiber is a task, or an idle fiber that yields or has finished. -/
structure Performs (s : State C) (a : Action C) (b : Scheduler.Action C) : Prop where
  run : ∀ w, b = .run w → a = .run w
  exit : ∀ w how, b = .exit w how →
    ∃ kind f, s.sched.pc w = .running kind f ∧ (kind ≠ .idle ∨ how = .swapOut ∨ s.idle w = .finished)

theorem Performs.leaves {a : Action C} {w : ThreadId} {how : Exit} {kind : Kind} {f : FiberId}
    (hpc : s.sched.pc w = .running kind f) (hkind : kind ≠ .idle ∨ how = .swapOut ∨ s.idle w = .finished) :
    Performs s a (.exit w how) := by
  refine ⟨nofun, fun v how' heq => ?_⟩
  cases heq
  exact ⟨kind, f, hpc, hkind⟩

/-- What becomes of the scheduler in a step. -/
theorem effect_sched {a : Action C} (h : Effect th s a t) :
    (∃ entries, t.sched = pushAll s.sched entries) ∨
      ∃ b, Scheduler.step th.workers s.sched b = .next t.sched ∧ Performs s a b := by
  have hop : ∀ {w fiber op}, OpEffect th.workers s w fiber op t → (∃ entries, t.sched = pushAll s.sched entries) ∨
      ∃ b, Scheduler.step th.workers s.sched b = .next t.sched ∧ Performs s a b := by
    intro w fiber op hop
    cases hop with
    | @schedule task thread htask => exact .inl ⟨[taskEntry task thread], rfl⟩
    | newFiber hu => exact .inr ⟨_, hu, nofun, nofun⟩
    | timer | addEvent | delEvent | cancelEvent | cancelAll => exact .inl ⟨[], rfl⟩
  cases h with
  | run hu =>
      refine .inr ⟨_, hu, fun w heq => ?_, nofun⟩
      cases heq
      rfl
  | exit hpc hkind hu => exact .inr ⟨_, hu, .leaves hpc (.inl hkind)⟩
  | idleExit hpc hidle hu => exact .inr ⟨_, hu, .leaves hpc (.inr (.inl rfl))⟩
  | idleFinish hpc hidle hu => exact .inr ⟨_, hu, .leaves hpc (.inr (.inr hidle))⟩
  | schedule hidle | push hcall | dispatch hidle hm | cancelAll hcall hr => exact .inl ⟨_, rfl⟩
  | task _ _ _ h | other _ _ h => exact hop h
  | @idleEval w now _ _ _ _ e | @earlyEval now e | @checkEval now e =>
      exact .inl ⟨[], (evaluate_work s now e).2.2.1⟩
  | _ => exact .inl ⟨[], rfl⟩

/-- Outside of `run`, a worker moves only where its fiber leaves. -/
theorem pc_of_effect {a : Action C} (h : Effect th s a t) (hrun : ∀ w, a ≠ .run w) (v : ThreadId) :
    t.sched.pc v = s.sched.pc v ∨ ∃ kind f, s.sched.pc v = .running kind f ∧ t.sched.pc v = .leaving kind f := by
  obtain ⟨entries, hsched⟩ | ⟨b, hstep, hperforms⟩ := effect_sched h
  · left
    rw [hsched, pushAll_eq]
  · cases b with
    | run w => exact absurd (hperforms.run w rfl) (hrun w)
    | exit w how =>
        obtain ⟨-, hstep⟩ := Scheduler.step_exit_eq_next hstep
        obtain ⟨kind, f, hpc, hgoto, -⟩ := exitStep_eq_next hstep
        rw [hgoto]
        by_cases hv : v = w
        · subst hv
          exact .inr ⟨kind, f, hpc, Function.update_self ..⟩
        · exact .inl (Function.update_of_ne hv ..)
    | _ => exact .inl (by rw [(step_eq_next_of_worker_eq_none hstep rfl).1])

/-! ### Facts about the scheduler alone -/

section

variable {workers : Finset ThreadId} {u v : Scheduler.State C} {b : Scheduler.Action C} {w : ThreadId} {f : FiberId}

/-- A worker handles what it has handled before, or an entry of the queue. -/
theorem handles_of_step (h : Scheduler.step workers u b = .next v) (hf : handles (v.pc w) = some f) :
    handles (u.pc w) = some f ∨ ∃ ft ∈ u.queue, ft.fiber = some f := by
  cases hworker : b.worker with
  | none =>
      rw [(step_eq_next_of_worker_eq_none h hworker).1] at hf
      exact .inl hf
  | some x =>
      cases b with
      | run y =>
          obtain ⟨-, h⟩ := Scheduler.step_run_eq_next h
          obtain ⟨point, hrun⟩ := runStep_eq_next h
          rw [hrun.pc] at hf
          by_cases hw : w = y
          · subst hw
            rw [Function.update_self] at hf
            by_cases hhead : u.pc w = .head
            · have hnext := hrun.next
              rw [hhead] at hnext
              cases hnext with
              | dequeue ft hmem hnonempty => exact .inr ⟨ft, hmem, hf⟩
              | noEntry => cases hf
            · exact .inl (next_handles hrun.next hhead hf)
          · rw [Function.update_of_ne hw] at hf
            exact .inl hf
      | exit y how =>
          obtain ⟨-, h⟩ := Scheduler.step_exit_eq_next h
          obtain ⟨kind, g, hpc, hgoto, -⟩ := exitStep_eq_next h
          rw [hgoto] at hf
          by_cases hw : w = y
          · subst hw
            rw [Function.update_self] at hf
            rw [hpc]
            cases kind with
            | fiber => exact .inl hf
            | cb | idle => cases hf
          · rw [Function.update_of_ne hw] at hf
            exact .inl hf
      | _ => cases hworker

/-- No idle fiber is queued again, and a worker leaves `run` when its idle fiber has finished. -/
theorem point_of_step (h : Scheduler.step workers u b = .next v) :
    (v.pc w = .requeue .idle f → u.pc w = .requeue .idle f) ∧
      (v.pc w = .exited → u.pc w = .exited ∨ (u.fibers (u.idleFiber w)).state = .TERM) := by
  cases hworker : b.worker with
  | none =>
      rw [(step_eq_next_of_worker_eq_none h hworker).1]
      exact ⟨id, .inl⟩
  | some x =>
      cases b with
      | run y =>
          obtain ⟨-, h⟩ := Scheduler.step_run_eq_next h
          obtain ⟨point, hrun⟩ := runStep_eq_next h
          by_cases hw : w = y
          · subst hw
            rw [hrun.pc, Function.update_self]
            exact ⟨fun heq => absurd heq (hrun.next.ne_requeue f), fun heq => .inr (hrun.next.of_exited heq)⟩
          · rw [hrun.pc, Function.update_of_ne hw]
            exact ⟨id, .inl⟩
      | exit y how =>
          obtain ⟨-, h⟩ := Scheduler.step_exit_eq_next h
          obtain ⟨kind, g, hpc, hgoto, -⟩ := exitStep_eq_next h
          rw [hgoto]
          by_cases hw : w = y
          · subst hw
            rw [Function.update_self]
            exact ⟨nofun, nofun⟩
          · rw [Function.update_of_ne hw]
            exact ⟨id, .inl⟩
      | _ => cases hworker

end

/-! ### The invariant -/

/-- The workers are in order, and no work is for an idle fiber. -/
structure WorkersInv (th : Threads) (procs : Finset ThreadId) (s : State C) : Prop where
  active : ActiveInv th.workers s.sched
  owners : Owners th.workers s.sched
  outside : ∀ w, w ∉ th.workers → s.sched.pc w = .head
  requeue : ∀ w f, s.sched.pc w ≠ .requeue .idle f
  handles : ∀ w f, handles (s.sched.pc w) = some f → th.workers.sup id < f
  work : ∀ f, Task.fiber f ∈ held procs s → th.workers.sup id < f

theorem queue_le_held (procs : Finset ThreadId) (s : State C) : queueWork s.sched.queue ≤ held procs s := by
  rw [held, add_assoc, add_comm (timerWork s.timers + s.io.stock), add_assoc]
  exact Multiset.le_add_right ..

theorem mem_queueWork {queue : List (FiberAndThread C)} {ft : FiberAndThread C} {f : FiberId} (hmem : ft ∈ queue)
    (hft : ft.fiber = some f) : Task.fiber f ∈ queueWork queue := by
  have hentry : Task.fiber f ∈ entryWork ft := by simp [entryWork, hft]
  obtain ⟨before, after, rfl⟩ := List.append_of_mem hmem
  rw [queueWork_append]
  refine Multiset.mem_add.2 (.inr ?_)
  rw [queueWork, List.map_cons, List.sum_cons]
  exact Multiset.mem_add.2 (.inl hentry)

/-- A fiber that runs outside of `idle` is none of the idle fibers. -/
theorem WorkersInv.running (hs : WorkersInv th procs s) {w : ThreadId} {kind : Kind} {f : FiberId}
    (hpc : s.sched.pc w = .running kind f) (hkind : kind ≠ .idle) : th.workers.sup id < f := by
  cases kind with
  | fiber => exact hs.handles w f (by rw [hpc]; rfl)
  | cb => exact (hs.owners.fresh w f (hs.owners.owner w f (by rw [hpc]; rfl))).1
  | idle => exact absurd rfl hkind

/-- No step brings work for an idle fiber. -/
theorem WorkersInv.accepts (hs : WorkersInv th procs s) {a : Action C} (h : Effect th s a t) {f : FiberId}
    (hmem : Task.fiber f ∈ a.accepts s t) : th.workers.sup id < f := by
  have hnoCb : ∀ cbs : Multiset C, Task.fiber f ∉ cbs.map Task.cb := by simp
  have hop : ∀ {w fiber op}, OpEffect th.workers s w fiber op t → Task.fiber f ∈ op.accepts s t fiber →
      (∀ g, fiber = some g → th.workers.sup id < g) → th.workers.sup id < f := by
    intro w fiber op hop hmem hfiber
    cases hop with
    | @schedule task thread htask => exact (htask f (Multiset.mem_singleton.1 hmem).symm).1
    | @timer op timers added =>
        cases op with
        | addTimer a ms cb recurring now =>
            simp only [Op.accepts, cbWork] at hmem
            exact absurd hmem (hnoCb _)
        | _ => simp [Op.accepts] at hmem
    | @addEvent fd event cb allow exec g r hg hr =>
        subst hg
        by_cases hok : r.1 = 0
        · simp only [Op.accepts, hok, if_true, Nat.succ_ne_self, if_false] at hmem
          cases cb with
          | some c => simp at hmem
          | none =>
              obtain rfl : f = g := by simpa using hmem
              exact hfiber f rfl
        · simp [Op.accepts, hok] at hmem
    | newFiber | delEvent | cancelEvent | cancelAll => simp [Op.accepts] at hmem
  cases h with
  | @run w u hu =>
      simp only [Action.accepts] at hmem
      split at hmem
      · rename_i kind g hpc
        obtain rfl : f = g := by simpa using hmem
        cases kind with
        | fiber => exact hs.handles w f (by rw [hpc]; rfl)
        | cb => exact (hs.owners.fresh w f (hs.owners.owner w f (by rw [hpc]; rfl))).1
        | idle => exact absurd hpc (hs.requeue w f)
      · simp at hmem
  | @task w op kind g t hpc hkind hcall h =>
      simp only [Action.accepts, hpc] at hmem
      refine hop h hmem fun g' hg' => ?_
      cases hg'
      exact hs.running hpc hkind
  | other hstop hcall h => exact hop h hmem (by simp)
  | idleEval | wait | schedule | dispatch | idleCount | idleExit | idleFinish | expire =>
      simp only [Action.accepts] at hmem
      split at hmem
      · exact absurd hmem (hnoCb _)
      · simp at hmem
  | _ => simp [Action.accepts] at hmem

theorem step_workersInv (htables : TablesInv s) (hs : WorkersInv th procs s) {a : Action C}
    (hprocs : ∀ w, a.thread = some w → w ∈ procs) (h : Effect th s a t) : WorkersInv th procs t := by
  have hwork : ∀ f, Task.fiber f ∈ held procs t → th.workers.sup id < f := by
    intro f hmem
    have hheld : Task.fiber f ∈ held procs s + a.accepts s t := by
      rw [← step_held htables hprocs h]
      exact Multiset.mem_add.2 (.inl hmem)
    rcases Multiset.mem_add.1 hheld with hbefore | hnew
    · exact hs.work f hbefore
    · exact hs.accepts h hnew
  obtain ⟨entries, hsched⟩ | ⟨b, hstep, -⟩ := effect_sched h
  · rw [pushAll_eq] at hsched
    refine ⟨⟨?_, ?_⟩, ?_, ?_, ?_, ?_, hwork⟩
    · rw [hsched]
      exact hs.active.le
    · rw [hsched]
      exact hs.active.picked
    · rw [hsched]
      exact hs.owners.move rfl rfl le_rfl (fun _ _ => id) fun _ _ => id
    · rw [hsched]
      exact hs.outside
    · rw [hsched]
      exact hs.requeue
    · rw [hsched]
      exact hs.handles
  · refine ⟨step_activeInv hs.active hstep, (hs.owners.step hstep).1, fun w hw => ?_, fun w f hpc => ?_, fun w f hf => ?_,
      hwork⟩
    · exact (step_pc_of_notMem hstep hw).trans (hs.outside w hw)
    · exact hs.requeue w f ((point_of_step hstep).1 hpc)
    · obtain hbefore | ⟨ft, hmem, hft⟩ := handles_of_step hstep hf
      · exact hs.handles w f hbefore
      · exact hs.work f (Multiset.mem_of_le (queue_le_held procs s) (mem_queueWork hmem hft))

end Awcotn.Shutdown
