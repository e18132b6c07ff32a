import Awcotn.Scheduler.Drained
import Awcotn.Shutdown.Custody

/-!
# A manager with nothing left

Once nothing is left and `stop` has been called, nobody can bring anything: the workers have only their idle fibers, these find no timer and no event, and no other thread begins anything.
-/

namespace Awcotn.Shutdown

open Transition Scheduler

variable {C : Type*} {th : Threads} {s t : State C}

/-- Nothing is left, and nobody outside brings anything new. -/
structure Dead (th : Threads) (s : State C) : Prop where
  nothing : NothingLeft th s
  called : s.stop ≠ .notCalled

theorem NothingLeft.drained (hs : NothingLeft th s) : Drained th.workers s.sched :=
  ⟨hs.queue, hs.active, hs.tasks, hs.handOver.ready, hs.handOver.requeued⟩

theorem NothingLeft.clear (hs : NothingLeft th s) (cell : ℕ × Event) : (s.io.cells cell).1 = false :=
  hs.events cell.1 cell.2

/-- Nothing is brought into any place. -/
theorem NothingLeft.frame (hs : NothingLeft th s) (htimers : t.timers.timers = []) (hcells : t.io.cells = s.io.cells)
    (hsched : Drained th.workers t.sched)
    (hidle : ∀ w cbs reports, t.idle w = .scheduling cbs reports → s.idle w = .scheduling cbs reports ∨ cbs = [])
    (hcall : ∀ w entries, t.call w = .pushing entries → s.call w = .pushing entries ∨ entries = []) :
    NothingLeft th t := by
  refine ⟨htimers, fun fd event => ?_, hsched.queue, hsched.active, hsched.tasks, fun w cbs reports h c hc => ?_,
    fun w entries h => ?_, hsched.ready, hsched.requeued⟩
  · have hclear := hs.clear (fd, event)
    rwa [← hcells] at hclear
  · obtain hbefore | rfl := hidle w cbs reports h
    · exact hs.handOver.expired w cbs reports hbefore c hc
    · cases hc
  · obtain hbefore | hnil := hcall w entries h
    · exact hs.handOver.cancelled w entries hbefore
    · exact hnil

/-- A worker moves inside `idle`. -/
theorem NothingLeft.setIdle (hs : NothingLeft th s) {w : ThreadId} {pc : IdlePc C}
    (hpc : ∀ cbs reports, pc = .scheduling cbs reports → cbs = []) : NothingLeft th (s.setIdle w pc) := by
  refine hs.frame hs.timers rfl hs.drained (fun v cbs reports h => ?_) fun _ _ => .inl
  by_cases hv : v = w
  · subst hv
    simp only [State.setIdle, Function.update_self] at h
    exact .inr (hpc cbs reports h)
  · simp only [State.setIdle, Function.update_of_ne hv] at h
    exact .inl h

/-- A thread moves inside a cancelling call. -/
theorem NothingLeft.setCall (hs : NothingLeft th s) {w : ThreadId} {pc : CallPc C}
    (hpc : ∀ entries, pc = .pushing entries → entries = []) : NothingLeft th (s.setCall w pc) := by
  refine hs.frame hs.timers rfl hs.drained (fun _ _ _ => .inl) fun v entries h => ?_
  by_cases hv : v = w
  · subst hv
    simp only [State.setCall, Function.update_self] at h
    exact .inr (hpc entries h)
  · simp only [State.setCall, Function.update_of_ne hv] at h
    exact .inl h

theorem NothingLeft.evaluate (hs : NothingLeft th s) (now : UInt64) (e : EvalPc) :
    NothingLeft th (evaluate s now e).1 := by
  rcases evaluate_fst s now e with heq | heq <;> rw [heq]
  · exact hs
  · exact hs.frame hs.timers rfl hs.drained (fun _ _ _ => .inl) fun _ _ => .inl

/-- An operation of the event table finds nothing to take. -/
theorem NothingLeft.setIo (hs : NothingLeft th s) {m : IOManager FiberId C} (h : IOManager.Sheds s.io m) :
    NothingLeft th (s.setIo m) := by
  have hcells : (s.setIo m).io.cells = s.io.cells := (h.of_clear hs.clear).1
  exact hs.frame hs.timers hcells hs.drained (fun _ _ _ => .inl) fun _ _ => .inl

theorem NothingLeft.triggered (hs : NothingLeft th s) (htables : TablesInv s) {m : IOManager FiberId C}
    (h : IOManager.Sheds s.io m) : triggered m = [] := by
  rw [Shutdown.triggered, (h.of_clear hs.clear).2, htables.outbox]
  rfl

theorem NothingLeft.fired (hs : NothingLeft th s) (htables : TablesInv s) {m : IOManager FiberId C}
    (h : IOManager.Sheds s.io m) : NothingLeft th (s.fired m) := by
  have hsched : (s.fired m).sched = s.sched := congrArg (pushAll s.sched) (hs.triggered htables h)
  have hcells : (s.fired m).io.cells = s.io.cells := (h.of_clear hs.clear).1
  exact hs.frame hs.timers hcells (hsched ▸ hs.drained) (fun _ _ _ => .inl) fun _ _ => .inl

/-- Empty callbacks are not pushed. -/
theorem pushAll_expired (u : Scheduler.State C) {cbs : List (Option C)} (h : ∀ c, some c ∉ cbs) :
    pushAll u (cbs.map fun cb => ⟨none, cb, none⟩) = u := by
  have hempty : (cbs.map fun cb => (⟨none, cb, none⟩ : FiberAndThread C)).filter FiberAndThread.isTask = [] := by
    rw [List.filter_eq_nil_iff]
    intro ft hft
    obtain ⟨cb, hcb, rfl⟩ := List.mem_map.1 hft
    cases cb with
    | none => simp [FiberAndThread.isTask]
    | some c => exact absurd hcb (h c)
  rw [pushAll_eq, hempty, List.append_nil]

theorem earlyAfter_ne_notCalled (r : EvalPc ⊕ Bool) : earlyAfter r ≠ .notCalled := by
  rcases r with e | _ | _ <;> nofun

theorem checkAfter_ne_notCalled (r : EvalPc ⊕ Bool) : checkAfter r ≠ .notCalled := by
  rcases r with e | _ | _ <;> nofun

/-- While nothing is left, only idle fibers run. -/
theorem NothingLeft.running (hs : NothingLeft th s) (houtside : ∀ w, w ∉ th.workers → s.sched.pc w = .head)
    {w : ThreadId} {kind : Kind} {f : FiberId} (hpc : s.sched.pc w = .running kind f) : kind = .idle := by
  have hw : w ∈ th.workers := by
    by_contra hw
    rw [houtside w hw] at hpc
    cases hpc
  have htask := hs.tasks w hw
  rw [hpc] at htask
  simpa [Pc.inTask] using htask

/-- Nothing left stays nothing. -/
theorem step_dead (htables : TablesInv s) (houtside : ∀ w, w ∉ th.workers → s.sched.pc w = .head) (hs : Dead th s)
    {a : Action C} (h : Effect th s a t) : Dead th t := by
  obtain ⟨hnothing, hcalled⟩ := hs
  have hdrained := hnothing.drained
  cases h with
  | run hu =>
      exact ⟨hnothing.frame hnothing.timers rfl (hdrained.run hu) (fun _ _ _ => .inl) fun _ _ => .inl, hcalled⟩
  | exit hpc hkind hu => exact absurd (hnothing.running houtside hpc) hkind
  | @idleEval w now probe reports allow f e hpc hidle =>
      refine ⟨(hnothing.evaluate now e).setIdle ?_, by rwa [← (evaluate_idle s now e).2] at hcalled⟩
      intro cbs reports hpc
      cases hr : (evaluate s now e).2 with
      | inl e' =>
          rw [hr] at hpc
          cases hpc
      | inr b =>
          rw [hr] at hpc
          cases b <;> cases hpc
  | wait hidle => exact ⟨hnothing.setIdle (by simp), hcalled⟩
  | @expire w now probe reports reports' allow r hidle hr =>
      have hempty : r = ([], s.timers) := by
        simp only [TimerManager.listExpiredCb, hnothing.timers, List.isEmpty_nil, if_true] at hr
        exact (Option.some.inj hr).symm
      subst hempty
      refine ⟨hnothing.setIdle fun cbs reports hpc => ?_, hcalled⟩
      cases hpc
      rfl
  | @schedule w now probe reports reports' allow cbs hidle =>
      refine ⟨?_, hcalled⟩
      rw [pushAll_expired s.sched (hnothing.handOver.expired w cbs reports hidle)]
      exact hnothing.setIdle (by simp)
  | dispatch hidle hm =>
      exact ⟨(hnothing.fired htables (IOManager.dispatch_sheds hm)).setIdle (by simp), hcalled⟩
  | @idleCount w now probe reports rest allow n late pc hidle hpc =>
      have hlate : NothingLeft th { s with late := late } :=
        hnothing.frame hnothing.timers rfl hdrained (fun _ _ _ => .inl) fun _ _ => .inl
      refine ⟨hlate.setIdle fun cbs reports heq => ?_, hcalled⟩
      rcases hpc with rfl | ⟨n', rfl⟩ <;> cases heq
  | @idleExit w now probe reports allow f u hpc hidle hu =>
      have hu' := hdrained.exit (by simp [Exit.state]) hu
      have hset : NothingLeft th (s.setIdle w (.stopping .readTimers)) := hnothing.setIdle (by simp)
      exact ⟨hset.frame hset.timers rfl hu' (fun _ _ _ => .inl) fun _ _ => .inl, hcalled⟩
  | idleFinish hpc hidle hu =>
      have hu' := hdrained.exit (by simp [Exit.state]) hu
      exact ⟨hnothing.frame hnothing.timers rfl hu' (fun _ _ _ => .inl) fun _ _ => .inl, hcalled⟩
  | task hpc hkind hcall hop => exact absurd (hnothing.running houtside hpc) hkind
  | other hstop hcall hop => exact absurd hstop hcalled
  | @cancelEvent w allow fd event r hcall hr =>
      have hsheds := IOManager.cancelEvent_sheds hr
      rw [hnothing.triggered htables hsheds]
      refine ⟨(hnothing.setIo hsheds).setCall fun entries hpc => ?_, hcalled⟩
      cases hpc
      rfl
  | @push w allow entries hcall =>
      obtain rfl := hnothing.handOver.cancelled w entries hcall
      exact ⟨hnothing.setCall (by simp), hcalled⟩
  | cancelAll hcall hr =>
      exact ⟨(hnothing.fired htables (IOManager.cancelAll_sheds hr)).setCall (by simp), hcalled⟩
  | @callCount w allow n late pc hcall hpc =>
      have hlate : NothingLeft th { s with late := late } :=
        hnothing.frame hnothing.timers rfl hdrained (fun _ _ _ => .inl) fun _ _ => .inl
      refine ⟨hlate.setCall fun entries heq => ?_, hcalled⟩
      rcases hpc with rfl | ⟨n', rfl⟩ <;> cases heq
  | callStop hstop => exact absurd hstop hcalled
  | mark hmark =>
      refine ⟨hnothing.frame hnothing.timers rfl hdrained (fun _ _ _ => .inl) fun _ _ => .inl, ?_⟩
      rcases hmark with ⟨-, -, rfl | rfl⟩ | ⟨-, ⟨-, rfl⟩ | ⟨-, rfl | ⟨rfl, -⟩⟩⟩ <;> simp
  | @earlyEval now e hstop =>
      have heval := hnothing.evaluate now e
      refine ⟨heval.frame heval.timers rfl heval.drained (fun _ _ _ => .inl) fun _ _ => .inl, ?_⟩
      exact earlyAfter_ne_notCalled _
  | @checkEval now e hstop =>
      have heval := hnothing.evaluate now e
      refine ⟨heval.frame heval.timers rfl heval.drained (fun _ _ _ => .inl) fun _ _ => .inl, ?_⟩
      exact checkAfter_ne_notCalled _
  | rootDone | joined =>
      exact ⟨hnothing.frame hnothing.timers rfl hdrained (fun _ _ _ => .inl) fun _ _ => .inl, by simp⟩

end Awcotn.Shutdown
