import Awcotn.IOManager.Handover
import Awcotn.IOManager.Pending
import Awcotn.Scheduler.Active
import Awcotn.Shutdown.Steps
import Awcotn.Timer.Callbacks
import Mathlib.Algebra.Order.BigOperators.Group.List

/-!
# The three reads of `stopping`

`stopping` returns true if it finds the timer set empty, then the pending count zero, then the scheduler stopped with its queue empty and no worker active. At the last read the first two may be out of date, and work that is on its way between two places is seen in neither. If no timer and no event has been added since they were read, and nothing is on its way, then nothing is left.
-/

namespace Awcotn.Shutdown

open Transition

variable {C : Type*} {th : Threads} {s t : State C}

/-- Nothing is on its way into the queue: no expired callback that is not scheduled yet, no event that has been counted down and not been pushed, no fiber that has yielded and is to be queued again. -/
structure NoHandOver (th : Threads) (s : State C) : Prop where
  expired : ∀ w cbs reports, s.idle w = .scheduling cbs reports → ∀ c, some c ∉ cbs
  cancelled : ∀ w entries, s.call w = .pushing entries → entries = []
  ready : ∀ w ∈ th.workers, ∀ kind f, s.sched.pc w = .counted kind f → kind ≠ .idle → (s.sched.fibers f).state ≠ .READY
  requeued : ∀ w ∈ th.workers, ∀ kind f, s.sched.pc w ≠ .requeue kind f

/-- No timer, no registered event, no queued entry, no executing task, and nothing on its way. -/
structure NothingLeft (th : Threads) (s : State C) : Prop where
  timers : s.timers.timers = []
  events : ∀ fd event, (s.io.ctxAt fd).events.has event = false
  queue : s.sched.queue = []
  active : s.sched.activeThreadCount = 0
  tasks : ∀ w ∈ th.workers, (s.sched.pc w).inTask = false
  handOver : NoHandOver th s

/-- The read of `stopping` that an action makes, with the clock reading it would use. -/
def Action.evaluates (s : State C) : Action C → Option (UInt64 × EvalPc)
  | .idle w now _ _ _ =>
    match s.sched.pc w, s.idle w with
    | .running .idle _, .stopping e => some (now, e)
    | _, _ => none
  | .stop now =>
    match s.stop with
    | .earlyCheck e | .check e => some (now, e)
    | _ => none
  | _ => none

/-- What keeps a read in line with the others: the clock does not read zero while the first timer is due at the largest time, whose distance is the value for no timer, and at a last read that finds the scheduler stopped no timer and no event has been added since the earlier ones, and nothing is on its way. -/
def EvalUndisturbed (th : Threads) (s : State C) (now : UInt64) : EvalPc → Prop
  | .readTimers => now = 0 → ∀ a ∈ s.timers.timers.head?, s.timers.next a ≠ ~~~0
  | .readPending _ => True
  | .readQueue timersSeen eventsSeen =>
    s.schedulerStopping → s.timersAdded = timersSeen ∧ s.eventsAdded = eventsSeen ∧ NoHandOver th s

def Undisturbed (th : Threads) (s : State C) (a : Action C) : Prop :=
  ∀ now e, a.evaluates s = some (now, e) → EvalUndisturbed th s now e

/-- Where `stopping` returns true, nothing is left. -/
def StoppingMeansIdle (th : Threads) (s : State C) (a : Action C) : Prop :=
  ∀ now timersSeen eventsSeen, a.evaluates s = some (now, .readQueue timersSeen eventsSeen) → s.schedulerStopping →
    NothingLeft th s

/-! ### Tables -/

structure TablesInv (s : State C) : Prop where
  io : IOManager.Wf s.io
  exact : s.io.pendingEventCount = s.io.bits
  outbox : s.io.scheduled = []
  timers : TimerManager.Wf s.timers

/-- What is added is counted. -/
structure Grows (s t : State C) : Prop where
  timersAdded : s.timersAdded ≤ t.timersAdded
  timers : t.timersAdded = s.timersAdded → s.timers.timers = [] → t.timers.timers = []
  eventsAdded : s.eventsAdded ≤ t.eventsAdded
  bits : t.eventsAdded = s.eventsAdded → t.io.bits ≤ s.io.bits

/-- The pending count and the bits go down together, or stay. -/
def CountsDown (m m' : IOManager FiberId C) : Prop := IOManager.SameExcess m m' ∧ m'.bits ≤ m.bits

theorem CountsDown.refl (m : IOManager FiberId C) : CountsDown m m := ⟨rfl, le_rfl⟩

theorem countsDown_of_moves {m m' : IOManager FiberId C} {fd : ℕ} {event : Event}
    {cell : Bool × EventContext FiberId C} {entries : List (SchedulerId × Task FiberId C)}
    (h : IOManager.Moves m m' fd event cell (-1) entries) : CountsDown m m' := by
  have := h.bits
  exact ⟨h.sameExcess, by omega⟩

theorem countsDown_of_takesIf {cond : Bool} {m m' : IOManager FiberId C} {fd : ℕ} {event : Event}
    (h : IOManager.TakesIf cond m m' fd event) : CountsDown m m' := by
  rcases h with ⟨-, rfl⟩ | ⟨-, -, scheduler, -, hmoves⟩
  · exact .refl _
  · exact countsDown_of_moves hmoves

theorem countsDown_of_takesMask {mask : Events} {m m' : IOManager FiberId C} {fd : ℕ}
    (h : IOManager.TakesMask mask { m with epoll := m'.epoll } m' fd) : CountsDown m m' := by
  obtain ⟨m₁, hread, hwrite⟩ := h
  obtain ⟨hread, hreadBits⟩ := countsDown_of_takesIf hread
  obtain ⟨hwrite, hwriteBits⟩ := countsDown_of_takesIf hwrite
  exact ⟨hwrite.trans hread, hwriteBits.trans hreadBits⟩

/-- An operation of the event table that registers nothing. -/
structure Unregisters (m m' : IOManager FiberId C) : Prop where
  wf : IOManager.Wf m → IOManager.Wf m'
  counts : CountsDown m m'

theorem delEvent_unregisters {m : IOManager FiberId C} {fd : ℕ} {event : Event} {allow : Bool}
    {r : Bool × IOManager FiberId C} (h : m.delEvent fd event allow = .ok r) : Unregisters m r.2 := by
  refine ⟨fun hm => hm.delEvent h, ?_⟩
  rcases IOManager.delEvent_eq_ok h with ⟨rfl, -⟩ | ⟨-, -, -, hmoves⟩
  · exact .refl m
  · exact countsDown_of_moves hmoves

theorem cancelEvent_unregisters {m : IOManager FiberId C} {fd : ℕ} {event : Event} {allow : Bool}
    {r : Bool × IOManager FiberId C} (h : m.cancelEvent fd event allow = .ok r) : Unregisters m r.2 := by
  refine ⟨fun hm => hm.cancelEvent h, ?_⟩
  rcases IOManager.cancelEvent_eq_ok h with ⟨rfl, -⟩ | ⟨-, -, -, scheduler, -, hmoves⟩
  · exact .refl m
  · exact countsDown_of_moves hmoves

theorem cancelAll_unregisters {m : IOManager FiberId C} {fd : ℕ} {allow : Bool} {r : Bool × IOManager FiberId C}
    (h : m.cancelAll fd allow = .ok r) : Unregisters m r.2 := by
  refine ⟨fun hm => hm.cancelAll h, ?_⟩
  rcases IOManager.cancelAll_eq_ok h with ⟨rfl, -⟩ | ⟨-, -, -, htakes⟩
  · exact .refl m
  · exact countsDown_of_takesMask htakes

theorem dispatch_unregisters {m m' : IOManager FiberId C} {fd : ℕ} {report : Report} {allow : Bool}
    (h : m.dispatch fd report allow = .ok m') : Unregisters m m' := by
  refine ⟨fun hm => hm.dispatch h, ?_⟩
  rcases IOManager.dispatch_eq_ok h with ⟨rfl, -⟩ | ⟨-, -, htakes⟩
  · exact .refl m'
  · exact countsDown_of_takesMask htakes

/-- An event table whose outbox has been emptied. -/
theorem wf_of_outbox {m : IOManager FiberId C} (hm : IOManager.Wf m) :
    IOManager.Wf ({ m with scheduled := [] } : IOManager FiberId C) :=
  ⟨hm.cell, hm.kernel, hm.indexed, hm.length⟩

/-- In an empty set nothing is found. -/
theorem find_of_nil {m : TimerManager C} (hnil : m.timers = []) (k : UInt64 × Addr) :
    OrderedSet.find TimerManager.Before m.key k m.timers = m.timers.length := by
  simp [hnil, OrderedSet.find]

/-- The operations of the timer set that add no timer leave an empty set empty. -/
theorem timers_eq_nil_of_step {m m' : TimerManager C} {op : TimerManager.Action C}
    (h : TimerManager.step m op = .next m') (hop : ∀ a ms cb recurring now, op ≠ .addTimer a ms cb recurring now)
    (hnil : m.timers = []) : m'.timers = [] := by
  have hsettle : ∀ {β : Type _} {manager : β → TimerManager C} {r : Option β},
      TimerManager.settle manager r = .next m' → ∃ b, r = some b ∧ m' = manager b := by
    intro β manager r hr
    cases r with
    | none => cases hr
    | some b => exact ⟨b, rfl, (Outcome.next.inj hr).symm⟩
  cases op with
  | addTimer a ms cb recurring now => exact absurd rfl (hop a ms cb recurring now)
  | cancel a =>
      simp only [TimerManager.step] at h
      split at h
      · obtain ⟨r, hr, rfl⟩ := hsettle h
        simp only [TimerManager.cancel] at hr
        split at hr
        · cases hr
        split at hr
        · split at hr
          · cases hr
            simp [hnil]
          · cases hr
        · cases hr
          exact hnil
      · cases h
  | refresh a now =>
      simp only [TimerManager.step] at h
      split at h
      · obtain ⟨r, hr, rfl⟩ := hsettle h
        simp only [TimerManager.refresh, find_of_nil hnil] at hr
        split at hr
        · cases hr
        split at hr
        · cases hr
          exact hnil
        · cases hr
          exact hnil
      · cases h
  | reset a ms fromNow now =>
      simp only [TimerManager.step] at h
      split at h
      · obtain ⟨r, hr, rfl⟩ := hsettle h
        simp only [TimerManager.reset, find_of_nil hnil] at hr
        split at hr
        · cases hr
        split at hr
        · cases hr
          exact hnil
        split at hr
        · cases hr
          exact hnil
        · cases hr
          exact hnil
      · cases h
  | getNextTimer now =>
      cases h
      simp [TimerManager.getNextTimer, hnil]
  | listExpiredCb now probe =>
      simp only [TimerManager.step] at h
      split at h
      · obtain ⟨r, hr, rfl⟩ := hsettle h
        simp only [TimerManager.listExpiredCb, hnil, List.isEmpty_nil, if_true] at hr
        cases hr
        exact hnil
      · cases h
  | release a =>
      simp only [TimerManager.step] at h
      split at h
      · cases h
      · cases h
        exact hnil

/-! ### One read -/

theorem getNextTimer_eq (m : TimerManager C) (now : UInt64) :
    (m.getNextTimer now).2 = { m with tickled := false } := by
  simp only [TimerManager.getNextTimer]
  split <;> rfl

/-- The value that stands for no timer is read of no set that has one, unless its first timer is that far away. -/
theorem timers_eq_nil_of_getNextTimer {m : TimerManager C} {now : UInt64}
    (hnow : now = 0 → ∀ a ∈ m.timers.head?, m.next a ≠ ~~~0) (h : (m.getNextTimer now).1 = ~~~0) : m.timers = [] := by
  simp only [TimerManager.getNextTimer] at h
  split at h
  · rename_i hnil
    exact hnil
  · rename_i front rest hcons
    exfalso
    dsimp only at h
    split at h
    · cases h
    · rename_i hlate
      have hle : now ≤ m.next front := UInt64.le_of_lt (UInt64.not_le.1 hlate)
      have hsub := UInt64.toNat_sub_of_le (m.next front) now hle
      have hmax : (m.next front - now).toNat = 2 ^ 64 - 1 := by
        change (m.next front - now : UInt64) = ~~~0 at h
        rw [h]
        rfl
      have hbound := (m.next front).toNat_lt
      have hzero : now = 0 := UInt64.toNat_inj.1 (by rw [UInt64.toNat_zero]; omega)
      refine hnow hzero front (by rw [hcons]; rfl) ?_
      subst hzero
      rwa [UInt64.sub_zero] at h

/-- A read changes nothing but the flag of the timer set. -/
theorem evaluate_fst (s : State C) (now : UInt64) (e : EvalPc) :
    (evaluate s now e).1 = s ∨ (evaluate s now e).1 = { s with timers := { s.timers with tickled := false } } := by
  cases e with
  | readTimers => exact .inr (by simp only [evaluate, getNextTimer_eq])
  | readPending n => exact .inl rfl
  | readQueue n k => exact .inl rfl

/-! ### What a step does to the tables -/

theorem TablesInv.same (hs : TablesInv s) (hio : t.io = s.io)
    (htimers : t.timers = s.timers ∨ t.timers = { s.timers with tickled := false })
    (hadded : t.timersAdded = s.timersAdded) (hevents : t.eventsAdded = s.eventsAdded) : TablesInv t ∧ Grows s t := by
  have hset : t.timers.timers = s.timers.timers := by rcases htimers with heq | heq <;> rw [heq]
  refine ⟨⟨by rw [hio]; exact hs.io, by rw [hio]; exact hs.exact, by rw [hio]; exact hs.outbox, ?_⟩,
    ⟨hadded.ge, fun _ hnil => by rw [hset, hnil], hevents.ge, fun _ => by rw [hio]⟩⟩
  rcases htimers with heq | heq
  · exact heq ▸ hs.timers
  · exact heq ▸ hs.timers.congr rfl rfl

theorem TablesInv.unregisters (hs : TablesInv s) {m : IOManager FiberId C} (h : Unregisters s.io m)
    (hio : t.io = { m with scheduled := [] }) (htimers : t.timers = s.timers) (hadded : t.timersAdded = s.timersAdded)
    (hevents : t.eventsAdded = s.eventsAdded) : TablesInv t ∧ Grows s t := by
  obtain ⟨hexcess, hbits⟩ := h.counts
  have hexact := hs.exact
  refine ⟨⟨by rw [hio]; exact wf_of_outbox (h.wf hs.io), ?_, by rw [hio], htimers ▸ hs.timers⟩,
    ⟨hadded.ge, fun _ hnil => by rw [htimers, hnil], hevents.ge, fun _ => by rw [hio]; exact hbits⟩⟩
  rw [hio]
  change m.pendingEventCount = m.bits
  rw [IOManager.SameExcess] at hexcess
  omega

theorem TablesInv.op (hs : TablesInv s) {workers : Finset ThreadId} {w : ThreadId} {fiber : Option FiberId} {op : Op C}
    (h : OpEffect workers s w fiber op t) : TablesInv t ∧ Grows s t := by
  cases h with
  | schedule | newFiber | cancelEvent | cancelAll => exact hs.same rfl (.inl rfl) rfl rfl
  | @timer op timers added hexpired hstep hadded =>
      refine ⟨⟨hs.io, hs.exact, hs.outbox, TimerManager.step_wf _ _ _ hs.timers hstep⟩,
        ⟨Nat.le_add_right .., fun hsame hnil => ?_, le_rfl, fun _ => le_rfl⟩⟩
      exact timers_eq_nil_of_step hstep (hadded (by simpa using hsame)) hnil
  | @addEvent fd event cb allow exec f r hf hr =>
      have hwf := hs.io.addEvent rfl hr
      have hexact := hs.exact
      rcases IOManager.addEvent_eq_ok hr with ⟨hfail, hsame, -⟩ | ⟨hok, -, -, -, -, hmoves⟩
      · refine ⟨⟨wf_of_outbox hwf, ?_, rfl, hs.timers⟩, ⟨le_rfl, fun _ hnil => hnil, Nat.le_add_right .., fun _ => ?_⟩⟩
        · exact hsame.pending.trans (hexact.trans (congrArg _ hsame.bits.symm))
        · exact hsame.bits.le
      · refine ⟨⟨wf_of_outbox hwf, ?_, rfl, hs.timers⟩, ⟨le_rfl, fun _ hnil => hnil, Nat.le_add_right .., fun h => ?_⟩⟩
        · change r.2.pendingEventCount = r.2.bits
          rw [hmoves.pending, hmoves.bits, hexact]
        · simp [hok] at h
  | delEvent hr => exact hs.unregisters (delEvent_unregisters hr) rfl rfl rfl rfl

theorem TablesInv.evaluate (hs : TablesInv s) {now : UInt64} {e : EvalPc} (hio : t.io = (evaluate s now e).1.io)
    (htimers : t.timers = (Shutdown.evaluate s now e).1.timers)
    (hadded : t.timersAdded = (Shutdown.evaluate s now e).1.timersAdded)
    (hevents : t.eventsAdded = (Shutdown.evaluate s now e).1.eventsAdded) : TablesInv t ∧ Grows s t := by
  rcases evaluate_fst s now e with heq | heq <;> rw [heq] at hio htimers hadded hevents
  · exact hs.same hio (.inl htimers) hadded hevents
  · exact hs.same hio (.inr htimers) hadded hevents

theorem step_tables (hs : TablesInv s) {a : Action C} (h : Effect th s a t) : TablesInv t ∧ Grows s t := by
  cases h with
  | run | exit | wait | schedule | idleCount | idleExit | idleFinish | push | callCount | callStop | mark | rootDone
  | joined => exact hs.same rfl (.inl rfl) rfl rfl
  | idleEval | earlyEval | checkEval => exact hs.evaluate rfl rfl rfl rfl
  | @expire w now probe reports reports' allow r hidle hr =>
      refine ⟨⟨hs.io, hs.exact, hs.outbox, TimerManager.listExpiredCb_wf hs.timers hr⟩,
        ⟨le_rfl, fun _ hnil => ?_, le_rfl, fun _ => le_rfl⟩⟩
      simp only [TimerManager.listExpiredCb, hnil, List.isEmpty_nil, if_true] at hr
      cases hr
      exact hnil
  | dispatch _ hm => exact hs.unregisters (dispatch_unregisters hm) rfl rfl rfl rfl
  | task _ _ _ hop | other _ _ hop => exact hs.op hop
  | cancelEvent _ hr => exact hs.unregisters (cancelEvent_unregisters hr) rfl rfl rfl rfl
  | cancelAll _ hr => exact hs.unregisters (cancelAll_unregisters hr) rfl rfl rfl rfl

/-! ### What earlier reads still say -/

/-- What a thread inside `stopping` knows. -/
def Seen (s : State C) : EvalPc → Prop
  | .readTimers => True
  | .readPending timersSeen => timersSeen ≤ s.timersAdded ∧ (timersSeen = s.timersAdded → s.timers.timers = [])
  | .readQueue timersSeen eventsSeen =>
    (timersSeen ≤ s.timersAdded ∧ (timersSeen = s.timersAdded → s.timers.timers = [])) ∧
      eventsSeen ≤ s.eventsAdded ∧ (eventsSeen = s.eventsAdded → s.io.bits = 0)

theorem Grows.seen (h : Grows s t) {e : EvalPc} (hs : Seen s e) : Seen t e := by
  have htimers : ∀ n, n ≤ s.timersAdded ∧ (n = s.timersAdded → s.timers.timers = []) →
      n ≤ t.timersAdded ∧ (n = t.timersAdded → t.timers.timers = []) := by
    rintro n ⟨hle, hnil⟩
    have hgrow := h.timersAdded
    refine ⟨hle.trans hgrow, fun heq => h.timers (by omega) (hnil (by omega))⟩
  cases e with
  | readTimers => trivial
  | readPending n => exact htimers n hs
  | readQueue n k =>
      obtain ⟨hseen, hle, hbits⟩ := hs
      have hgrow := h.eventsAdded
      refine ⟨htimers n hseen, hle.trans hgrow, fun heq => ?_⟩
      have := h.bits (by omega)
      have := hbits (by omega)
      omega

/-- A read that goes on has seen what the next one relies on. -/
theorem TablesInv.evaluate_seen (hs : TablesInv s) {now : UInt64} {e e' : EvalPc} (hnow : EvalUndisturbed th s now e)
    (hseen : Seen s e) (h : (Shutdown.evaluate s now e).2 = .inl e') : Seen s e' := by
  cases e with
  | readTimers =>
      simp only [Shutdown.evaluate] at h
      split at h
      · rename_i hmax
        cases h
        exact ⟨le_rfl, fun _ => timers_eq_nil_of_getNextTimer hnow hmax⟩
      · cases h
  | readPending n =>
      simp only [Shutdown.evaluate] at h
      split at h
      · rename_i hzero
        cases h
        refine ⟨hseen, le_rfl, fun _ => ?_⟩
        have hexact := hs.exact
        rw [State.pending] at hzero
        omega
      · cases h
  | readQueue n k => cases h

/-- Every read in progress is up to date but for what has been added since. -/
structure ReadsInv (s : State C) : Prop where
  idle : ∀ w e, s.idle w = .stopping e → Seen s e
  early : ∀ e, s.stop = .earlyCheck e → Seen s e
  check : ∀ e, s.stop = .check e → Seen s e

theorem ReadsInv.grows (hs : ReadsInv s) (h : Grows s t) (hidle : ∀ w e, t.idle w = .stopping e → s.idle w = .stopping e)
    (hstop : t.stop = s.stop) : ReadsInv t :=
  ⟨fun w e he => h.seen (hs.idle w e (hidle w e he)), fun e he => h.seen (hs.early e (hstop ▸ he)),
    fun e he => h.seen (hs.check e (hstop ▸ he))⟩

theorem ReadsInv.update (hs : ReadsInv s) (h : Grows s t) {w : ThreadId} {pc : IdlePc C}
    (hidle : t.idle = Function.update s.idle w pc) (hpc : ∀ e, pc = .stopping e → Seen t e) (hstop : t.stop = s.stop) :
    ReadsInv t := by
  refine ⟨fun v e he => ?_, fun e he => h.seen (hs.early e (hstop ▸ he)), fun e he => h.seen (hs.check e (hstop ▸ he))⟩
  rw [hidle] at he
  by_cases hv : v = w
  · subst hv
    rw [Function.update_self] at he
    exact hpc e he
  · rw [Function.update_of_ne hv] at he
    exact h.seen (hs.idle v e he)

theorem OpEffect.pcs {workers : Finset ThreadId} {w : ThreadId} {fiber : Option FiberId} {op : Op C}
    (h : OpEffect workers s w fiber op t) : t.idle = s.idle ∧ t.stop = s.stop := by
  cases h <;> exact ⟨rfl, rfl⟩

theorem evaluate_idle (s : State C) (now : UInt64) (e : EvalPc) :
    (evaluate s now e).1.idle = s.idle ∧ (evaluate s now e).1.stop = s.stop := by
  rcases evaluate_fst s now e with heq | heq <;> rw [heq] <;> exact ⟨rfl, rfl⟩

/-- The worker goes on after its evaluation. -/
theorem evaluate_setIdle (s : State C) (now : UInt64) (e : EvalPc) (w : ThreadId) (pc : IdlePc C) :
    ((evaluate s now e).1.setIdle w pc).idle = Function.update s.idle w pc := by
  simp only [State.setIdle, (evaluate_idle s now e).1]

/-- Undisturbed steps keep every read in progress up to date but for what is added. -/
theorem step_readsInv (htables : TablesInv s) (hs : ReadsInv s) {a : Action C} (ha : Undisturbed th s a)
    (h : Effect th s a t) : ReadsInv t := by
  have hgrow := (step_tables htables h).2
  cases h with
  | run | exit | idleFinish | cancelEvent | push | cancelAll | callCount => exact hs.grows hgrow (fun _ _ he => he) rfl
  | @idleEval w now probe reports allow f e hpc hidle =>
      refine hs.update hgrow (evaluate_setIdle ..) (fun e' he' => ?_) (evaluate_idle s now e).2
      have hread : (evaluate s now e).2 = .inl e' := by
        cases hr : (evaluate s now e).2 with
        | inl e'' =>
            rw [hr] at he'
            cases he'
            rfl
        | inr b =>
            rw [hr] at he'
            cases b <;> cases he'
      have hundisturbed := ha now e (by simp [Action.evaluates, hpc, hidle])
      exact hgrow.seen (htables.evaluate_seen hundisturbed (hs.idle w e hidle) hread)
  | wait | expire | schedule | dispatch => exact hs.update hgrow rfl (fun e he => by cases he) rfl
  | idleCount _ hpc =>
      refine hs.update hgrow rfl (fun e he => ?_) rfl
      rcases hpc with rfl | ⟨n', rfl⟩ <;> cases he
  | idleExit => exact hs.update hgrow rfl (fun e he => by cases he; trivial) rfl
  | task _ _ _ hop | other _ _ hop => exact hs.grows hgrow (fun _ _ he => hop.pcs.1 ▸ he) hop.pcs.2
  | callStop => exact ⟨fun w e he => hgrow.seen (hs.idle w e he), fun e he => (by cases he), fun e he => (by cases he)⟩
  | mark hmark =>
      refine ⟨fun w e he => hgrow.seen (hs.idle w e he), fun e he => ?_, fun e he => ?_⟩ <;>
        rcases hmark with ⟨-, -, rfl | rfl⟩ | ⟨-, ⟨-, rfl⟩ | ⟨-, rfl | ⟨rfl, -⟩⟩⟩ <;> cases he <;> trivial
  | @earlyEval now e hstop =>
      refine ⟨fun w e' he => hgrow.seen (hs.idle w e' ((evaluate_idle s now e).1 ▸ he)), fun e' he => ?_, fun e' he => ?_⟩
      · have hundisturbed := ha now e (by simp [Action.evaluates, hstop])
        cases hr : (evaluate s now e).2 with
        | inl e'' =>
            simp only [hr, earlyAfter, StopPc.earlyCheck.injEq] at he
            subst he
            exact hgrow.seen (htables.evaluate_seen hundisturbed (hs.early e hstop) hr)
        | inr b => cases b <;> simp [hr, earlyAfter] at he
      · rcases hr : (evaluate s now e).2 with e'' | b
        · simp [hr, earlyAfter] at he
        · cases b <;> simp [hr, earlyAfter] at he
  | @checkEval now e hstop =>
      refine ⟨fun w e' he => hgrow.seen (hs.idle w e' ((evaluate_idle s now e).1 ▸ he)), fun e' he => ?_, fun e' he => ?_⟩
      · rcases hr : (evaluate s now e).2 with e'' | b
        · simp [hr, checkAfter] at he
        · cases b <;> simp [hr, checkAfter] at he
      · have hundisturbed := ha now e (by simp [Action.evaluates, hstop])
        cases hr : (evaluate s now e).2 with
        | inl e'' =>
            simp only [hr, checkAfter, StopPc.check.injEq] at he
            subst he
            exact hgrow.seen (htables.evaluate_seen hundisturbed (hs.check e hstop) hr)
        | inr b => cases b <;> simp [hr, checkAfter] at he
  | rootDone | joined =>
      exact ⟨fun w e he => hgrow.seen (hs.idle w e he), fun e he => (by cases he), fun e he => (by cases he)⟩

/-! ### The last read -/

theorem ReadsInv.seen_of_evaluates (hs : ReadsInv s) {a : Action C} {now : UInt64} {e : EvalPc}
    (h : a.evaluates s = some (now, e)) : Seen s e := by
  cases a with
  | idle w now' probe reports allow =>
      simp only [Action.evaluates] at h
      split at h
      · rename_i hidle
        cases h
        exact hs.idle w _ hidle
      · cases h
  | stop now' =>
      simp only [Action.evaluates] at h
      split at h
      · rename_i hstop
        cases h
        exact hs.early _ hstop
      · rename_i hstop
        cases h
        exact hs.check _ hstop
      · cases h
  | _ => cases h

/-- No bit is set where there are none to count. -/
theorem has_eq_false_of_bits {m : IOManager FiberId C} (h : m.bits = 0) (fd : ℕ) (event : Event) :
    (m.ctxAt fd).events.has event = false := by
  have hcount : ∀ {events : Events}, events.count = 0 → events.has event = false := by
    rintro ⟨_ | _, _ | _⟩ hzero <;> cases event <;> simp_all [Events.count, Events.has]
  simp only [IOManager.ctxAt]
  cases hctx : m.fdContexts[fd]? with
  | none => exact Events.has_empty event
  | some ctx =>
      rw [IOManager.bits, List.sum_eq_zero_iff] at h
      exact hcount (h _ (List.mem_map_of_mem (List.mem_of_getElem? hctx)))

/-- At an undisturbed last read that finds the scheduler stopped, nothing is left. -/
theorem stoppingMeansIdle (hactive : Scheduler.ActiveInv th.workers s.sched) (hs : ReadsInv s)
    {a : Action C} (ha : Undisturbed th s a) : StoppingMeansIdle th s a := by
  intro now n k hevaluates hstopping
  obtain ⟨⟨-, htimers⟩, -, hbits⟩ := hs.seen_of_evaluates hevaluates
  obtain ⟨htimersAdded, heventsAdded, hhandOver⟩ := ha now _ hevaluates hstopping
  simp only [State.schedulerStopping, Bool.and_eq_true, List.isEmpty_iff, beq_iff_eq] at hstopping
  obtain ⟨⟨-, hqueue⟩, hzero⟩ := hstopping
  refine ⟨htimers htimersAdded.symm, has_eq_false_of_bits (hbits heventsAdded.symm), hqueue, hzero, ?_, hhandOver⟩
  have hle := hactive.le
  exact Process.tally_eq_zero_iff.1 (by rw [hzero] at hle; exact_mod_cast le_antisymm hle (Int.natCast_nonneg _))

end Awcotn.Shutdown
