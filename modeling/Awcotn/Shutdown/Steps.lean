import Awcotn.Shutdown.Program

/-!
# What a step of a manager can do

One inversion lemma: every step is one of the effects below, each with what it writes and where its thread stood.
-/

namespace Awcotn.Shutdown

open Transition

variable {C : Type*}

/-- Where `idle` goes on after a read of `stopping`. -/
def idleAfter : EvalPc ⊕ Bool → IdlePc C
  | .inl e => .stopping e
  | .inr true => .finished
  | .inr false => .waiting

/-- Where `stop` goes on after a read of `stopping`. -/
def earlyAfter : EvalPc ⊕ Bool → StopPc
  | .inl e => .earlyCheck e
  | .inr true => .returned
  | .inr false => .marking

def checkAfter : EvalPc ⊕ Bool → StopPc
  | .inl e => .check e
  | .inr true => .joining
  | .inr false => .rootRunning

/-- What an operation does. `w` is the thread, `fiber` the fiber that runs in it. -/
inductive OpEffect (workers : Finset ThreadId) (s : State C) (w : ThreadId) (fiber : Option FiberId) :
    Op C → State C → Prop
  | schedule {task : Task FiberId C} {thread : Option ThreadId} :
      (∀ f, task = .fiber f → workers.sup id < f ∧ f < s.sched.nextFiber) →
      OpEffect workers s w fiber (.schedule task thread) { s with sched := s.sched.schedule (taskEntry task thread) }
  | newFiber {cb : C} {u : Scheduler.State C} : Scheduler.step workers s.sched (.newFiber cb) = .next u →
      OpEffect workers s w fiber (.newFiber cb) { s with sched := u }
  | timer {op : TimerManager.Action C} {timers : TimerManager C} {added : ℕ} :
      (∀ now probe, op ≠ .listExpiredCb now probe) → TimerManager.step s.timers op = .next timers →
      (added = 0 → ∀ a ms cb recurring now, op ≠ .addTimer a ms cb recurring now) →
      OpEffect workers s w fiber (.timer op) { s with timers := timers, timersAdded := s.timersAdded + added }
  | addEvent {fd : ℕ} {event : Event} {cb : Option C} {allow exec : Bool} {f : FiberId}
      {r : ℤ × IOManager FiberId C} :
      fiber = some f → s.io.addEvent fd event cb ⟨some self, f, exec⟩ allow = .ok r →
      OpEffect workers s w fiber (.addEvent fd event cb allow)
        { s.setIo r.2 with eventsAdded := s.eventsAdded + (if r.1 = 0 then 1 else 0) }
  | delEvent {fd : ℕ} {event : Event} {allow : Bool} {r : Bool × IOManager FiberId C} :
      s.io.delEvent fd event allow = .ok r → OpEffect workers s w fiber (.delEvent fd event allow) (s.setIo r.2)
  | cancelEvent {fd : ℕ} {event : Event} :
      OpEffect workers s w fiber (.cancelEvent fd event) (s.setCall w (.cancelEvent fd event))
  | cancelAll {fd : ℕ} : OpEffect workers s w fiber (.cancelAll fd) (s.setCall w (.cancelAll fd))

/-- What a step does. -/
inductive Effect (th : Threads) (s : State C) : Action C → State C → Prop
  | run {w : ThreadId} {u : Scheduler.State C} : Scheduler.step th.workers s.sched (.run w) = .next u →
      Effect th s (.run w) { s with sched := u }
  | exit {w : ThreadId} {how : Scheduler.Exit} {kind : Scheduler.Kind} {f : FiberId} {u : Scheduler.State C} :
      s.sched.pc w = .running kind f → kind ≠ .idle → Scheduler.step th.workers s.sched (.exit w how) = .next u →
      Effect th s (.exit w how) { s with sched := u }
  | idleEval {w : ThreadId} {now : UInt64} {probe : Addr} {reports : List (ℕ × Report)} {allow : Bool} {f : FiberId}
      {e : EvalPc} : s.sched.pc w = .running .idle f → s.idle w = .stopping e →
      Effect th s (.idle w now probe reports allow)
        ((evaluate s now e).1.setIdle w (idleAfter (evaluate s now e).2))
  | wait {w : ThreadId} {now : UInt64} {probe : Addr} {reports : List (ℕ × Report)} {allow : Bool} :
      s.idle w = .waiting → Effect th s (.idle w now probe reports allow) (s.setIdle w (.expiring reports))
  | expire {w : ThreadId} {now : UInt64} {probe : Addr} {reports reports' : List (ℕ × Report)} {allow : Bool}
      {r : List (Option C) × TimerManager C} :
      s.idle w = .expiring reports → s.timers.listExpiredCb now probe = some r →
      Effect th s (.idle w now probe reports' allow) ({ s with timers := r.2 }.setIdle w (.scheduling r.1 reports))
  | schedule {w : ThreadId} {now : UInt64} {probe : Addr} {reports reports' : List (ℕ × Report)} {allow : Bool}
      {cbs : List (Option C)} : s.idle w = .scheduling cbs reports →
      Effect th s (.idle w now probe reports' allow)
        ({ s with sched := pushAll s.sched (cbs.map fun cb => ⟨none, cb, none⟩) }.setIdle w (.dispatching reports))
  | dispatch {w : ThreadId} {now : UInt64} {probe : Addr} {reports rest : List (ℕ × Report)} {allow : Bool} {fd n : ℕ}
      {report : Report} {m : IOManager FiberId C} :
      s.idle w = .dispatching ((fd, report) :: rest) → s.io.dispatch fd report allow = .ok m →
      Effect th s (.idle w now probe reports allow) ((s.fired m).setIdle w (.decrementing n rest))
  | idleCount {w : ThreadId} {now : UInt64} {probe : Addr} {reports rest : List (ℕ × Report)} {allow : Bool}
      {n late : ℕ} {pc : IdlePc C} : s.idle w = .decrementing n rest →
      pc = .dispatching rest ∨ (∃ n', pc = .decrementing n' rest) →
      Effect th s (.idle w now probe reports allow) ({ s with late := late }.setIdle w pc)
  | idleExit {w : ThreadId} {now : UInt64} {probe : Addr} {reports : List (ℕ × Report)} {allow : Bool} {f : FiberId}
      {u : Scheduler.State C} : s.sched.pc w = .running .idle f → s.idle w = .dispatching [] →
      Scheduler.step th.workers s.sched (.exit w .swapOut) = .next u →
      Effect th s (.idle w now probe reports allow) { s.setIdle w (.stopping .readTimers) with sched := u }
  | idleFinish {w : ThreadId} {now : UInt64} {probe : Addr} {reports : List (ℕ × Report)} {allow : Bool} {f : FiberId}
      {u : Scheduler.State C} : s.sched.pc w = .running .idle f → s.idle w = .finished →
      Scheduler.step th.workers s.sched (.exit w .finish) = .next u →
      Effect th s (.idle w now probe reports allow) { s with sched := u }
  | task {w : ThreadId} {op : Op C} {kind : Scheduler.Kind} {f : FiberId} {t : State C} :
      s.sched.pc w = .running kind f → kind ≠ .idle → s.call w = .none →
      OpEffect th.workers s w (some f) op t → Effect th s (.task w op) t
  | other {w : ThreadId} {op : Op C} {t : State C} : s.stop = .notCalled → s.call w = .none →
      OpEffect th.workers s w none op t → Effect th s (.other w op) t
  | cancelEvent {w : ThreadId} {allow : Bool} {fd : ℕ} {event : Event} {r : Bool × IOManager FiberId C} :
      s.call w = .cancelEvent fd event → s.io.cancelEvent fd event allow = .ok r →
      Effect th s (.call w allow) ((s.setIo r.2).setCall w (.pushing (triggered r.2)))
  | push {w : ThreadId} {allow : Bool} {entries : List (FiberAndThread C)} : s.call w = .pushing entries →
      Effect th s (.call w allow) ({ s with sched := pushAll s.sched entries }.setCall w .none)
  | cancelAll {w : ThreadId} {allow : Bool} {fd n : ℕ} {r : Bool × IOManager FiberId C} : s.call w = .cancelAll fd →
      s.io.cancelAll fd allow = .ok r →
      Effect th s (.call w allow) ((s.fired r.2).setCall w (.decrementing n))
  | callCount {w : ThreadId} {allow : Bool} {n late : ℕ} {pc : CallPc C} : s.call w = .decrementing n →
      pc = .none ∨ (∃ n', pc = .decrementing n') →
      Effect th s (.call w allow) ({ s with late := late }.setCall w pc)
  | callStop : s.stop = .notCalled → Effect th s .callStop { s with stop := .called }
  | mark {now : UInt64} {autoStop stopping : Bool} {pc : StopPc} :
      s.stop = .called ∧ autoStop = true ∧ (pc = .early ∨ pc = .marking) ∨
        s.autoStop = autoStop ∧ (s.stop = .early ∧ pc = .earlyCheck .readTimers ∨
          s.stop = .marking ∧ (pc = .check .readTimers ∨ pc = .joining ∧ th.root = none)) →
      Effect th s (.stop now) { s with autoStop := autoStop, stopping := stopping, stop := pc }
  | earlyEval {now : UInt64} {e : EvalPc} : s.stop = .earlyCheck e →
      Effect th s (.stop now) { (evaluate s now e).1 with stop := earlyAfter (evaluate s now e).2 }
  | checkEval {now : UInt64} {e : EvalPc} : s.stop = .check e →
      Effect th s (.stop now) { (evaluate s now e).1 with stop := checkAfter (evaluate s now e).2 }
  | rootDone {now : UInt64} : s.stop = .rootRunning → (∀ w, th.root = some w → hasExited (s.sched.pc w)) →
      Effect th s (.stop now) { s with stop := .joining }
  | joined {now : UInt64} : s.stop = .joining → (∀ w ∈ th.started, hasExited (s.sched.pc w)) →
      Effect th s (.stop now) { s with stop := .returned }

variable {th : Threads} {s t : State C}

theorem ofSched_eq_next {s' : State C} {r : Outcome Scheduler.Fault (Scheduler.State C)} (h : ofSched s' r = .next t) :
    ∃ u, r = .next u ∧ t = { s' with sched := u } := by
  cases r with
  | next u => exact ⟨u, rfl, (Outcome.next.inj h).symm⟩
  | abort e => cases h
  | disabled => cases h

theorem ofIo_eq_next {β : Type*} {r : Except Awcotn.Fault β} {next : β → State C} (h : ofIo r next = .next t) :
    ∃ b, r = .ok b ∧ t = next b := by
  cases r with
  | error e => cases h
  | ok b => exact ⟨b, rfl, (Outcome.next.inj h).symm⟩

theorem opStep_effect {workers : Finset ThreadId} {w : ThreadId} {fiber : Option FiberId} {op : Op C}
    (h : opStep workers s w fiber op = .next t) : OpEffect workers s w fiber op t := by
  cases op with
  | schedule task thread =>
      cases task with
      | cb c =>
          cases h
          exact .schedule (by simp)
      | fiber f =>
          simp only [opStep] at h
          split at h
          · rename_i hf
            cases h
            refine .schedule fun g hg => ?_
            cases hg
            exact hf
          · cases h
  | newFiber cb =>
      simp only [opStep] at h
      obtain ⟨u, hu, rfl⟩ := ofSched_eq_next h
      exact .newFiber hu
  | timer op =>
      cases op with
      | listExpiredCb now probe => cases h
      | _ =>
          simp only [opStep] at h
          split at h
          · rename_i timers htimers
            cases h
            exact .timer (by simp) htimers (by simp)
          · cases h
          · cases h
  | addEvent fd event cb allow =>
      cases fiber with
      | none => cases h
      | some f =>
          obtain ⟨r, hr, rfl⟩ := ofIo_eq_next h
          exact .addEvent rfl hr
  | delEvent fd event allow =>
      obtain ⟨r, hr, rfl⟩ := ofIo_eq_next h
      exact .delEvent hr
  | cancelEvent fd event =>
      cases h
      exact .cancelEvent
  | cancelAll fd =>
      cases h
      exact .cancelAll

theorem idleStep_effect {w : ThreadId} {f : FiberId} {now : UInt64} {probe : Addr} {reports : List (ℕ × Report)}
    {allow : Bool} (hpc : s.sched.pc w = .running .idle f)
    (h : idleStep th.workers s w now probe reports allow = .next t) : Effect th s (.idle w now probe reports allow) t := by
  simp only [idleStep] at h
  split at h
  · rename_i e hidle
    cases h
    exact .idleEval hpc hidle
  · rename_i hidle
    split at h
    · cases h
      exact .wait hidle
    · cases h
  · rename_i reports' hidle
    split at h
    · split at h
      · cases h
      · rename_i cbs timers hexpired
        cases h
        exact .expire hidle hexpired
    · cases h
  · rename_i cbs reports' hidle
    cases h
    exact .schedule hidle
  · rename_i hidle
    obtain ⟨u, hu, rfl⟩ := ofSched_eq_next h
    exact .idleExit hpc hidle hu
  · rename_i fd report rest hidle
    obtain ⟨m, hm, rfl⟩ := ofIo_eq_next h
    exact .dispatch hidle hm
  · rename_i rest hidle
    cases h
    exact Effect.idleCount hidle (.inl rfl)
  · rename_i n rest hidle
    cases h
    exact .idleCount hidle (.inr ⟨n, rfl⟩)
  · rename_i hidle
    obtain ⟨u, hu, rfl⟩ := ofSched_eq_next h
    exact .idleFinish hpc hidle hu

theorem callStep_effect {w : ThreadId} {allow : Bool} (h : callStep s w allow = .next t) :
    Effect th s (.call w allow) t := by
  simp only [callStep] at h
  split at h
  · cases h
  · rename_i fd event hcall
    obtain ⟨r, hr, rfl⟩ := ofIo_eq_next h
    exact .cancelEvent hcall hr
  · rename_i entries hcall
    cases h
    exact .push hcall
  · rename_i fd hcall
    obtain ⟨r, hr, rfl⟩ := ofIo_eq_next h
    exact .cancelAll hcall hr
  · rename_i hcall
    cases h
    exact Effect.callCount hcall (.inl rfl)
  · rename_i n hcall
    cases h
    exact .callCount hcall (.inr ⟨n, rfl⟩)

theorem stopStep_effect {now : UInt64} (h : stopStep th s now = .next t) : Effect th s (.stop now) t := by
  simp only [stopStep] at h
  split at h
  · rename_i hstop
    cases h
    refine Effect.mark (.inl ⟨hstop, rfl, ?_⟩)
    split
    · exact .inl rfl
    · exact .inr rfl
  · rename_i hstop
    cases h
    exact .mark (.inr ⟨rfl, .inl ⟨hstop, rfl⟩⟩)
  · rename_i e hstop
    cases h
    exact .earlyEval hstop
  · rename_i hstop
    cases h
    refine .mark (.inr ⟨rfl, .inr ⟨hstop, ?_⟩⟩)
    split
    · exact .inl rfl
    · rename_i hroot
      exact .inr ⟨rfl, by simpa using hroot⟩
  · rename_i e hstop
    cases h
    exact .checkEval hstop
  · rename_i hstop
    split at h
    · rename_i hroot
      cases h
      refine .rootDone hstop fun w hw => ?_
      simpa [hw] using hroot
    · cases h
  · rename_i hstop
    split at h
    · rename_i hexited
      cases h
      exact .joined hstop hexited
    · cases h
  · cases h
  · cases h

/-- Every step is one of the effects. -/
theorem step_effect {a : Action C} (h : step th s a = .next t) : Effect th s a t := by
  cases a with
  | run w =>
      simp only [step] at h
      split at h
      · obtain ⟨u, hu, rfl⟩ := ofSched_eq_next h
        exact .run hu
      · cases h
  | idle w now probe reports allow =>
      simp only [step] at h
      split at h
      · rename_i f hpc
        exact idleStep_effect hpc h
      · cases h
  | task w op =>
      simp only [step] at h
      split at h
      · cases h
      · rename_i kind f hidle hpc hcall
        exact .task hpc hidle hcall (opStep_effect h)
      · cases h
  | exit w how =>
      simp only [step] at h
      split at h
      · cases h
      · rename_i kind f hidle hpc hcall
        obtain ⟨u, hu, rfl⟩ := ofSched_eq_next h
        exact .exit hpc hidle hu
      · cases h
  | other w op =>
      simp only [step] at h
      split at h
      · rename_i hstop hcall
        split at h
        · cases h
        · exact .other hstop hcall (opStep_effect h)
      · cases h
  | call w allow => exact callStep_effect h
  | callStop =>
      simp only [step] at h
      split at h
      · rename_i hstop
        cases h
        exact .callStop hstop
      · cases h
  | stop now => exact stopStep_effect h

end Awcotn.Shutdown
