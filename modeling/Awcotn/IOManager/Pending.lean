import Awcotn.IOManager.Effects
import Mathlib.Tactic.Linarith

/-!
# The pending count

`m_pendingEventCount` moves by one whenever a bit does, so the two agree in every state of every run. What can go wrong is the dispatch: having found that the reported and the registered events meet, it triggers every reported event, and a report is widened to both directions by an error flag and may be older than a deletion. A run that never dispatches more than is registered is exactly a run in which the assertion of `triggerEvent` never fails.
-/

namespace Awcotn.IOManager

open Transition

variable {F C : Type*}

/-- The pending count is the number of events registered. -/
def CountExact (s : State F C) : Prop := s.io.pendingEventCount = s.io.bits

/-- A report that the dispatch can carry out: it meets no registered event, or `epoll_ctl` fails, or every reported direction is registered. The last case is that of a `READ` registered from a thread without a scheduler, where the process ends on a null pointer before `WRITE` is reached. -/
def ReportCovered (m : IOManager F C) (fd : ℕ) (report : Report) (allow : Bool) : Prop :=
  let ctx := m.ctxAt fd
  let leftEvents := ctx.events.diff report.realEvents
  (ctx.events.inter report.realEvents).any = false ∨ m.epoll.ctl (leaveOp leftEvents) ctx.fd leftEvents allow = none ∨
    report.realEvents.Subset ctx.events ∨
    (report.realEvents.read ∧ ctx.events.read ∧ ctx.read.scheduler = none)

/-- `ReportCovered` at the steps that dispatch a report. -/
def NeverOverreports (s : State F C) : Action F C → Prop
  | .dispatch i allow => ∀ fd report, s.ready[i]? = some (fd, report) → ReportCovered s.io fd report allow
  | _ => True

/-! ### The count -/

/-- The count and the number of bits differ by the same amount in two tables. -/
def SameExcess (m m' : IOManager F C) : Prop := m'.pendingEventCount - m'.bits = m.pendingEventCount - m.bits

variable {m m' : IOManager F C}

theorem Same.sameExcess (h : Same m m') : SameExcess m m' := by rw [SameExcess, h.pending, h.bits]

theorem Moves.sameExcess {fd : ℕ} {event : Event} {cell : Bool × EventContext F C} {δ : ℤ}
    {entries : List (SchedulerId × Task F C)} (h : Moves m m' fd event cell δ entries) : SameExcess m m' := by
  have hpending := h.pending
  have hbits := h.bits
  rw [SameExcess]
  linarith

theorem TakesIf.sameExcess {cond : Bool} {fd : ℕ} {event : Event} (h : TakesIf cond m m' fd event) : SameExcess m m' := by
  rcases h with ⟨-, rfl⟩ | ⟨-, -, scheduler, -, hmoves⟩
  · rfl
  · exact hmoves.sameExcess

theorem TakesMask.sameExcess {mask : Events} {fd : ℕ} (h : TakesMask mask m m' fd) : SameExcess m m' := by
  obtain ⟨m₁, hread, hwrite⟩ := h
  exact hwrite.sameExcess.trans hread.sameExcess

/-- Every operation moves the count and the bits together. -/
theorem step_sameExcess {s t : State F C} {a : Action F C} (h : step s a = .next t) : SameExcess s.io t.io := by
  cases a with
  | addEvent fd event cb caller allow =>
      obtain ⟨r, hr, rfl⟩ := map_eq_ok (Outcome.ofExcept_eq_next.1 h)
      rcases addEvent_eq_ok hr with ⟨-, hsame, -⟩ | ⟨-, -, -, -, -, hmoves⟩
      · exact hsame.sameExcess
      · exact hmoves.sameExcess
  | delEvent fd event allow =>
      obtain ⟨r, hr, rfl⟩ := map_eq_ok (Outcome.ofExcept_eq_next.1 h)
      rcases delEvent_eq_ok hr with ⟨rfl, -⟩ | ⟨-, -, -, hmoves⟩
      · rfl
      · exact hmoves.sameExcess
  | cancelEvent fd event allow =>
      obtain ⟨r, hr, rfl⟩ := map_eq_ok (Outcome.ofExcept_eq_next.1 h)
      rcases cancelEvent_eq_ok hr with ⟨rfl, -⟩ | ⟨-, -, -, scheduler, -, hmoves⟩
      · rfl
      · exact hmoves.sameExcess
  | cancelAll fd allow =>
      obtain ⟨r, hr, rfl⟩ := map_eq_ok (Outcome.ofExcept_eq_next.1 h)
      rcases cancelAll_eq_ok hr with ⟨rfl, -⟩ | ⟨-, -, -, htakes⟩
      · rfl
      · exact htakes.sameExcess
  | wait reports =>
      simp only [step] at h
      split at h
      · cases h
        rfl
      · cases h
  | dispatch i allow =>
      simp only [step] at h
      split at h
      · cases h
      obtain ⟨io, hio, rfl⟩ := map_eq_ok (Outcome.ofExcept_eq_next.1 h)
      rcases dispatch_eq_ok hio with ⟨rfl, -⟩ | ⟨-, -, htakes⟩
      · rfl
      · exact htakes.sameExcess

theorem step_countExact {s t : State F C} {a : Action F C} (hs : CountExact s) (h : step s a = .next t) :
    CountExact t := by
  have hsame := step_sameExcess h
  rw [SameExcess] at hsame
  rw [CountExact] at *
  linarith

theorem countExact_start : CountExact (start : State F C) := by
  simp [CountExact, start, init, bits, contextResize, Function.comp_def, FdContext.new, Events.empty, Events.count]

/-! ### The assertion -/

theorem addEvent_ne_triggerEvent (fd : ℕ) (event : Event) (cb : Option C) (caller : Caller F) (allow : Bool) :
    m.addEvent fd event cb caller allow ≠ .error .triggerEvent := by
  intro h
  rcases addEvent_eq_error h with ⟨h, -⟩ | ⟨h, -⟩ | ⟨h, -⟩ | ⟨h, -⟩ | ⟨h, -⟩ <;> cases h

theorem delEvent_ne_triggerEvent (fd : ℕ) (event : Event) (allow : Bool) :
    m.delEvent fd event allow ≠ .error .triggerEvent := by
  intro h
  simp only [delEvent] at h
  split at h
  · cases h
  split at h
  · cases h
  split at h
  · cases h
  split at h
  · rename_i hget
    cases h
    cases event <;> cases hget
  · cases h

/-- `cancelEvent` has checked the bit when it triggers. -/
theorem cancelEvent_ne_triggerEvent (fd : ℕ) (event : Event) (allow : Bool) :
    m.cancelEvent fd event allow ≠ .error .triggerEvent := by
  intro h
  simp only [cancelEvent] at h
  split at h
  · cases h
  split at h
  · cases h
  rename_i ctx hctx hset
  have hhas : ctx.events.has event := by simpa using hset
  split at h
  · cases h
  split at h
  · rename_i htrigger
    cases h
    exact FdContext.triggerEvent_ne_of_has hhas htrigger
  · cases h

/-- `cancelAll` checks each bit right before it triggers. -/
theorem cancelAll_ne_triggerEvent (fd : ℕ) (allow : Bool) : m.cancelAll fd allow ≠ .error .triggerEvent := by
  intro h
  simp only [cancelAll] at h
  split at h
  · cases h
  split at h
  · cases h
  split at h
  · cases h
  rcases bind_eq_error.1 h with hread | ⟨m₁, hread, h⟩
  · obtain ⟨hset, -, hclear⟩ := fireIf_eq_triggerEvent.1 hread
    rw [registered_eq] at hset
    simp_all [cells]
  rcases bind_eq_error.1 h with hwrite | ⟨m₂, hwrite, h⟩
  · obtain ⟨hset, -, hclear⟩ := fireIf_eq_triggerEvent.1 hwrite
    rw [registered_eq] at hset
    simp_all [cells]
  split at h <;> cases h

/-- The two conditional triggers of a dispatch fail the assertion exactly when one of them reaches an event that is not registered. -/
theorem fireIf_bind_eq_triggerEvent {fd : ℕ} {ctx : FdContext F C} (hctx : m.fdContexts[fd]? = some ctx)
    (realEvents : Events) :
    ((m.fireIf realEvents.read fd .READ).bind fun m => m.fireIf realEvents.write fd .WRITE) = .error .triggerEvent ↔
      ¬ (realEvents.Subset ctx.events ∨ (realEvents.read ∧ ctx.events.read ∧ ctx.read.scheduler = none)) := by
  have hold := ctxAt_of_getElem? hctx
  have hin : fd < m.fdContexts.length := (List.getElem?_eq_some_iff.1 hctx).1
  have hread : m.fireIf realEvents.read fd .READ = .error .triggerEvent ↔
      realEvents.read ∧ ctx.events.read = false := by
    rw [fireIf_eq_triggerEvent, hold]
    simp [hin, Events.has]
  have hwrite : ∀ m₁, m.fireIf realEvents.read fd .READ = .ok m₁ →
      (m₁.fireIf realEvents.write fd .WRITE = .error .triggerEvent ↔
        realEvents.write ∧ ctx.events.write = false) := by
    intro m₁ h
    have htakes := (fireIf_eq_ok h).2
    have hbit := congrArg Prod.fst (htakes.cells_of_ne (show (fd, Event.WRITE) ≠ (fd, .READ) by simp))
    have hin₁ := hin.trans_le htakes.length
    simp only [cells, hold] at hbit
    rw [fireIf_eq_triggerEvent, hbit]
    simp [hin₁, Events.has]
  have hok := m.fireIf_isOk_iff realEvents.read fd .READ
  rw [hold] at hok
  have hrest : (∃ m₁, m.fireIf realEvents.read fd .READ = .ok m₁ ∧
      m₁.fireIf realEvents.write fd .WRITE = .error .triggerEvent) ↔
      (realEvents.read → ctx.events.read ∧ ctx.read.scheduler.isSome) ∧
        realEvents.write ∧ ctx.events.write = false := by
    constructor
    · rintro ⟨m₁, h, hfail⟩
      exact ⟨hok.1 ⟨m₁, h⟩, (hwrite m₁ h).1 hfail⟩
    · rintro ⟨hfirst, hsecond⟩
      obtain ⟨m₁, h⟩ := hok.2 hfirst
      exact ⟨m₁, h, (hwrite m₁ h).2 hsecond⟩
  rw [bind_eq_error, hread, hrest]
  cases hr : realEvents.read <;> cases hw : realEvents.write <;> cases hr' : ctx.events.read <;>
    cases hw' : ctx.events.write <;> cases hs : ctx.read.scheduler <;> simp [Events.Subset, hr, hw, hr', hw']

/-- A dispatch fails the assertion exactly when it triggers an event that is not registered. -/
theorem dispatch_eq_triggerEvent (fd : ℕ) (report : Report) (allow : Bool) :
    m.dispatch fd report allow = .error .triggerEvent ↔ ¬ ReportCovered m fd report allow := by
  simp only [dispatch, ReportCovered]
  cases hctx : m.fdContexts[fd]? with
  | none =>
      have hnew : m.ctxAt fd = .new fd := by simp [ctxAt, hctx]
      simp [hnew, FdContext.new, Events.inter, Events.empty, Events.any]
  | some ctx =>
      rw [ctxAt_of_getElem? hctx]
      by_cases hany : (ctx.events.inter report.realEvents).any = false
      · simp only [hany, Bool.not_false, if_true, true_or, not_true, reduceCtorEq]
      dsimp only
      rw [if_neg (by simpa only [Bool.not_eq_true'] using hany)]
      cases hctl : m.epoll.ctl (leaveOp (ctx.events.diff report.realEvents)) ctx.fd
          (ctx.events.diff report.realEvents) allow with
      | none => simp
      | some epoll =>
          simp only [hany, reduceCtorEq, false_or]
          exact fireIf_bind_eq_triggerEvent (m := { m with epoll := epoll }) hctx report.realEvents

theorem step_eq_triggerEvent (s : State F C) (a : Action F C) :
    step s a = .abort .triggerEvent ↔ ¬ NeverOverreports s a := by
  cases a with
  | addEvent fd event cb caller allow =>
      simp [step, NeverOverreports, ofExcept_map_eq_abort, addEvent_ne_triggerEvent]
  | delEvent fd event allow => simp [step, NeverOverreports, ofExcept_map_eq_abort, delEvent_ne_triggerEvent]
  | cancelEvent fd event allow => simp [step, NeverOverreports, ofExcept_map_eq_abort, cancelEvent_ne_triggerEvent]
  | cancelAll fd allow => simp [step, NeverOverreports, ofExcept_map_eq_abort, cancelAll_ne_triggerEvent]
  | wait reports =>
      simp only [step, NeverOverreports, not_true, iff_false]
      split <;> simp
  | dispatch i allow =>
      simp only [step, NeverOverreports]
      cases hready : s.ready[i]? with
      | none => simp
      | some r =>
          obtain ⟨fd, report⟩ := r
          simp [ofExcept_map_eq_abort, dispatch_eq_triggerEvent]

/-- The pending count is exact and the assertion of `triggerEvent` holds throughout a run if and only if every dispatch of the run triggers registered events only. -/
theorem pending_exact_iff_neverOverreports (acts : List (Action F C)) :
    (Throughout step (fun s => CountExact s ∧ 0 ≤ s.io.pendingEventCount) start acts ∧
        run step start acts ≠ .abort .triggerEvent) ↔
      Along step NeverOverreports start acts := by
  rw [run_ne_abort_iff_along step_eq_triggerEvent]
  refine and_iff_right ?_
  refine throughout_of_step (fun s a t hs h => ?_) ⟨countExact_start, le_rfl⟩ acts
  have hexact := step_countExact hs.1 h
  exact ⟨hexact, by rw [hexact]; positivity⟩

/-- A descriptor registered for reading that reports an error: the dispatch goes on to trigger `WRITE`. -/
theorem error_report_triggers_unregistered :
    ¬ ∀ acts : List (Action ℕ ℕ), Throughout step (fun s => CountExact s ∧ 0 ≤ s.io.pendingEventCount) start acts ∧
      run step start acts ≠ .abort .triggerEvent := by
  intro h
  refine (h [.addEvent 5 .READ (some 0) ⟨some 0, 0, true⟩ true, .wait [(5, ⟨false, false, true, false⟩)],
    .dispatch 0 true]).2 ?_
  rfl

end Awcotn.IOManager
