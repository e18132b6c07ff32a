import Awcotn.IOManager.Stock
import Awcotn.Scheduler.Queue
import Awcotn.Shutdown.Reads
import Awcotn.Timer.Stock

/-!
# Custody of the work

Work comes to the manager as a scheduled task, a timer or an event, and again when a recurring timer expires or a fiber that has yielded is queued again. It leaves it when a worker dequeues it or when its timer or event is deleted. In between it is in the timer set, in the event table, in the queue, or on its way with some thread, and no step loses any of it.
-/

namespace Awcotn.Shutdown

open Transition

variable {C : Type*}

/-- What there is to do. -/
abbrev Work (C : Type*) := Task FiberId C

def cbWork (cbs : List C) : Multiset (Work C) := (cbs : Multiset C).map Task.cb

/-- The work of a queue entry. -/
def entryWork (ft : FiberAndThread C) : Multiset (Work C) :=
  match ft.fiber with
  | some f => {.fiber f}
  | none => cbWork ft.cb.toList

def queueWork (queue : List (FiberAndThread C)) : Multiset (Work C) := (queue.map entryWork).sum

def timerWork (timers : TimerManager C) : Multiset (Work C) := timers.stock.map Task.cb

/-- The callbacks a worker has taken out of the timer set and not scheduled. -/
def idleWork : IdlePc C → Multiset (Work C)
  | .scheduling cbs _ => cbWork cbs.reduceOption
  | _ => 0

/-- The tasks of the events a thread has counted down and not pushed. -/
def callWork : CallPc C → Multiset (Work C)
  | .pushing entries => queueWork entries
  | _ => 0

/-- Everything the manager holds, if no other threads have taken part. -/
def held (procs : Finset ThreadId) (s : State C) : Multiset (Work C) :=
  timerWork s.timers + s.io.stock + queueWork s.sched.queue + ∑ w ∈ procs, idleWork (s.idle w) +
    ∑ w ∈ procs, callWork (s.call w)

/-! ### What comes and what goes -/

/-- What an operation brings: the task it schedules, the callback of the timer it adds, or what the event it registers is to resume. -/
def Op.accepts (s t : State C) (fiber : Option FiberId) : Op C → Multiset (Work C)
  | .schedule task _ => {task}
  | .timer (.addTimer _ _ cb _ _) => cbWork cb.toList
  | .addEvent _ _ cb _ =>
    if t.eventsAdded = s.eventsAdded then 0
    else
      match cb with
      | some c => {.cb c}
      | none =>
        match fiber with
        | some f => {.fiber f}
        | none => 0
  | _ => 0

/-- What an operation deletes: the callback of the timer it cancels, or the task of the event it deletes. -/
def Op.deletes (s t : State C) : Op C → Multiset (Work C)
  | .timer (.cancel a) => cbWork (s.timers.cb a).toList
  | .delEvent fd event _ => if (t.io.cells (fd, event)).1 then 0 else IOManager.cellTask (s.io.cells (fd, event))
  | _ => 0

namespace Action

/-- What a step brings. A recurring timer that expires brings its callback once more, and `run` brings the fiber that it queues again. -/
def accepts (s t : State C) : Action C → Multiset (Work C)
  | .task w op =>
    match s.sched.pc w with
    | .running _ f => op.accepts s t (some f)
    | _ => 0
  | .other _ op => op.accepts s t none
  | .run w =>
    match s.sched.pc w with
    | .requeue _ f => {.fiber f}
    | _ => 0
  | .idle w _ _ _ _ =>
    match s.idle w, t.idle w with
    | .expiring _, .scheduling cbs _ => (s.timers.rearmed (s.timers.expired cbs)).map Task.cb
    | _, _ => 0
  | _ => 0

/-- What a worker takes up: the entry it dequeues. -/
def takesUp (s t : State C) : Action C → Multiset (Work C)
  | .run w =>
    match s.sched.pc w, t.sched.pc w with
    | .head, .picked ft => entryWork ft
    | _, _ => 0
  | _ => 0

def deletes (s t : State C) : Action C → Multiset (Work C)
  | .task _ op | .other _ op => op.deletes s t
  | _ => 0

/-- The thread that takes a step. -/
def thread : Action C → Option ThreadId
  | .run w | .idle w _ _ _ _ | .task w _ | .exit w _ | .other w _ | .call w _ => some w
  | .callStop | .stop _ => none

end Action

/-! ### The queue -/

theorem queueWork_append (queue more : List (FiberAndThread C)) :
    queueWork (queue ++ more) = queueWork queue + queueWork more := by
  rw [queueWork, List.map_append, List.sum_append]
  rfl

theorem queueWork_perm {queue queue' : List (FiberAndThread C)} (h : queue.Perm queue') :
    queueWork queue = queueWork queue' := (h.map entryWork).sum_eq

/-- An empty entry is no work. -/
theorem queueWork_filter (queue : List (FiberAndThread C)) :
    queueWork (queue.filter Scheduler.FiberAndThread.isTask) = queueWork queue := by
  induction queue with
  | nil => rfl
  | cons ft rest ih =>
      cases htask : ft.isTask with
      | true =>
          rw [List.filter_cons_of_pos htask]
          exact congrArg (entryWork ft + ·) ih
      | false =>
          obtain ⟨hfiber, hcb⟩ : ft.fiber = none ∧ ft.cb = none := by
            simpa [Scheduler.FiberAndThread.isTask] using htask
          have hempty : entryWork ft = 0 := by simp [entryWork, cbWork, hfiber, hcb]
          rw [List.filter_cons_of_neg (by simp [htask]), ih, queueWork, queueWork, List.map_cons, List.sum_cons, hempty,
            zero_add]

/-- A range goes to the end of the queue, but for its empty entries. -/
theorem pushAll_eq (s : Scheduler.State C) (entries : List (FiberAndThread C)) :
    pushAll s entries = { s with queue := s.queue ++ entries.filter Scheduler.FiberAndThread.isTask } := by
  induction entries generalizing s with
  | nil => simp [pushAll]
  | cons ft rest ih =>
      show pushAll (s.schedule ft) rest = _
      rw [ih, Scheduler.schedule_eq]
      cases htask : ft.isTask <;> simp [htask]

theorem pushAll_work (s : Scheduler.State C) (entries : List (FiberAndThread C)) :
    queueWork (pushAll s entries).queue = queueWork s.queue + queueWork entries := by
  rw [pushAll_eq, queueWork_append, queueWork_filter]

theorem entryWork_taskEntry (task : Work C) (thread : Option ThreadId) : entryWork (taskEntry task thread) = {task} := by
  cases task <;> rfl

/-- The entries for what has been triggered carry its tasks. -/
theorem triggered_work (m : IOManager FiberId C) : queueWork (triggered m) = m.outbox := by
  rw [queueWork, triggered, List.map_map, IOManager.outbox]
  induction m.scheduled with
  | nil => rfl
  | cons entry rest ih =>
      rw [List.map_cons, List.sum_cons, ih, List.map_cons]
      exact congrArg (· + _) (entryWork_taskEntry entry.2 none)

/-- The entries for expired callbacks carry them. -/
theorem expired_work (cbs : List (Option C)) :
    queueWork (cbs.map fun cb => ⟨none, cb, none⟩) = cbWork cbs.reduceOption := by
  induction cbs with
  | nil => rfl
  | cons cb rest ih =>
      rw [List.map_cons, queueWork, List.map_cons, List.sum_cons]
      show entryWork _ + queueWork _ = _
      rw [ih]
      cases cb <;> simp [entryWork, cbWork]

/-- What a step of `run` does to the work in the queue. -/
theorem run_work {workers : Finset ThreadId} {s : State C} {w : ThreadId} {u : Scheduler.State C}
    (h : Scheduler.step workers s.sched (.run w) = .next u) :
    queueWork u.queue + (Action.run w).takesUp s { s with sched := u } =
      queueWork s.sched.queue + (Action.run w).accepts s { s with sched := u } := by
  by_cases hhead : s.sched.pc w = .head
  · have haccepts : (Action.run w).accepts s { s with sched := u } = 0 := by simp only [Action.accepts, hhead]
    rw [haccepts, add_zero]
    simp only [Scheduler.step] at h
    split at h
    · simp only [Scheduler.runStep, hhead] at h
      split at h
      · cases h
      · cases h
        simp [Action.takesUp, hhead, Scheduler.State.goto]
      · rename_i ft rest hpick
        cases h
        rw [queueWork_perm (Scheduler.pick_eq_some hpick).2, queueWork, queueWork, List.map_cons, List.sum_cons, add_comm]
        simp [Action.takesUp, hhead, Scheduler.State.goto]
    · cases h
  · have htakes : (Action.run w).takesUp s { s with sched := u } = 0 := by
      simp only [Action.takesUp]
      split
      · exact absurd ‹_› hhead
      · rfl
    have hqueue := Scheduler.step_queue h fun v hv => by
      cases hv
      exact hhead
    rw [htakes, add_zero, hqueue, queueWork_append]
    refine congrArg (queueWork s.sched.queue + ·) ?_
    simp only [Scheduler.pushed, Action.accepts]
    cases s.sched.pc w with
    | requeue kind f => exact add_zero _
    | _ => rfl

/-! ### One step -/

theorem schedule_work (s : Scheduler.State C) (ft : FiberAndThread C) :
    queueWork (s.schedule ft).queue = queueWork s.queue + entryWork ft := by
  have hone : queueWork [ft] = entryWork ft := add_zero (entryWork ft)
  rw [← hone]
  exact pushAll_work s [ft]

theorem timer_work {m m' : TimerManager C} (h : TimerManager.Wf m) {op : TimerManager.Action C}
    (hop : ∀ now probe, op ≠ .listExpiredCb now probe) (hstep : TimerManager.step m op = .next m') :
    timerWork m' + (op.removes m).map Task.cb = timerWork m + op.brings.map Task.cb := by
  rw [timerWork, timerWork, ← Multiset.map_add, ← Multiset.map_add, TimerManager.step_stock h hop hstep]

variable {procs : Finset ThreadId} {th : Threads} {s t : State C}

/-- What was `before` and is `after` has lost `less` and gained `more`. -/
def Trades (before after less more : Multiset (Work C)) : Prop := after + less = before + more

theorem Trades.same {before after : Multiset (Work C)} (h : after = before) : Trades before after 0 0 := by
  rw [Trades, h]

theorem Trades.gains {before after more : Multiset (Work C)} (h : after = before + more) : Trades before after 0 more :=
  (add_zero after).trans h

theorem Trades.loses {before after less : Multiset (Work C)} (h : after + less = before) : Trades before after less 0 :=
  h.trans (add_zero before).symm

/-- What each part loses and gains, the manager loses and gains. -/
theorem Trades.held (procs : Finset ThreadId) (s t : State C) {o₁ o₂ o₃ o₄ o₅ b₁ b₂ b₃ b₄ b₅ : Multiset (Work C)}
    (htimers : Trades (timerWork s.timers) (timerWork t.timers) o₁ b₁) (hio : Trades s.io.stock t.io.stock o₂ b₂)
    (hqueue : Trades (queueWork s.sched.queue) (queueWork t.sched.queue) o₃ b₃)
    (hidle : Trades (∑ w ∈ procs, idleWork (s.idle w)) (∑ w ∈ procs, idleWork (t.idle w)) o₄ b₄)
    (hcall : Trades (∑ w ∈ procs, callWork (s.call w)) (∑ w ∈ procs, callWork (t.call w)) o₅ b₅) :
    Trades (held procs s) (held procs t) (o₁ + o₂ + o₃ + o₄ + o₅) (b₁ + b₂ + b₃ + b₄ + b₅) := by
  rw [Trades] at *
  calc Shutdown.held procs t + (o₁ + o₂ + o₃ + o₄ + o₅) = (timerWork t.timers + o₁) + (t.io.stock + o₂) +
          (queueWork t.sched.queue + o₃) + (∑ w ∈ procs, idleWork (t.idle w) + o₄) +
          (∑ w ∈ procs, callWork (t.call w) + o₅) := by
        rw [Shutdown.held]
        abel
    _ = Shutdown.held procs s + (b₁ + b₂ + b₃ + b₄ + b₅) := by
        rw [htimers, hio, hqueue, hidle, hcall, Shutdown.held]
        abel

/-- What goes from one part to another has not left. -/
theorem Trades.cancel {before after less more both : Multiset (Work C)} (h : Trades before after (less + both) (more + both)) :
    Trades before after less more := by
  rw [Trades, ← add_assoc, ← add_assoc] at h
  exact add_right_cancel h

theorem Trades.trans {before between after o₁ o₂ b₁ b₂ : Multiset (Work C)} (h : Trades before between o₁ b₁)
    (h' : Trades between after o₂ b₂) : Trades before after (o₂ + o₁) (b₁ + b₂) := by
  rw [Trades] at *
  rw [← add_assoc, h', add_right_comm, h, add_assoc]

/-- An operation of the event table that only takes registrations puts their tasks into the run queues. -/
theorem TablesInv.stock_of_sheds (htables : TablesInv s) {m : IOManager FiberId C} (h : IOManager.Sheds s.io m) :
    Trades s.io.stock m.stock m.outbox 0 := by
  have hempty : s.io.outbox = 0 := by rw [IOManager.outbox, htables.outbox]; rfl
  exact Trades.loses (by rw [h.stock, hempty, add_zero])

/-- A thread goes from one point of a cancelling call to another. -/
theorem call_trades {w : ThreadId} (hw : w ∈ procs) (s : State C) (pc : CallPc C) :
    Trades (∑ v ∈ procs, callWork (s.call v)) (∑ v ∈ procs, callWork (Function.update s.call w pc v)) (callWork (s.call w))
      (callWork pc) := Process.sum_update hw callWork s.call pc

theorem idle_trades {w : ThreadId} (hw : w ∈ procs) (s : State C) (pc : IdlePc C) :
    Trades (∑ v ∈ procs, idleWork (s.idle v)) (∑ v ∈ procs, idleWork (Function.update s.idle w pc v)) (idleWork (s.idle w))
      (idleWork pc) := Process.sum_update hw idleWork s.idle pc

/-- What an operation does to the work that is held. -/
theorem OpEffect.held (htables : TablesInv s) {workers : Finset ThreadId} {w : ThreadId} (hw : w ∈ procs)
    (hcall : s.call w = .none) {fiber : Option FiberId} {op : Op C} (h : OpEffect workers s w fiber op t) :
    Trades (held procs s) (held procs t) (op.deletes s t) (op.accepts s t fiber) := by
  have hquiet : ∀ pc : CallPc C, callWork pc = 0 →
      Trades (∑ v ∈ procs, callWork (s.call v)) (∑ v ∈ procs, callWork (Function.update s.call w pc v)) 0 0 := by
    intro pc hpc
    have hsum := call_trades hw s pc
    rwa [hcall, hpc] at hsum
  cases h with
  | @schedule task thread htask =>
      have hqueue := schedule_work s.sched (taskEntry task thread)
      rw [entryWork_taskEntry] at hqueue
      have hheld := Trades.held procs s { s with sched := s.sched.schedule (taskEntry task thread) }
        (.same rfl) (.same rfl) (.gains hqueue) (.same rfl) (.same rfl)
      simpa [Op.accepts, Op.deletes] using hheld
  | @newFiber cb u hu =>
      cases hu
      exact .same rfl
  | @timer op timers added hop hstep hadded =>
      have hdeletes : (Op.timer op).deletes s { s with timers := timers, timersAdded := s.timersAdded + added } =
          (op.removes s.timers).map Task.cb := by cases op <;> rfl
      have haccepts : (Op.timer op).accepts s { s with timers := timers, timersAdded := s.timersAdded + added } fiber =
          op.brings.map Task.cb := by cases op <;> rfl
      rw [hdeletes, haccepts]
      have hheld := Trades.held procs s { s with timers := timers, timersAdded := s.timersAdded + added }
        (timer_work htables.timers hop hstep) (.same rfl) (.same rfl) (.same rfl) (.same rfl)
      simpa using hheld
  | @addEvent fd event cb allow exec f r hf hr =>
      have hstock := IOManager.addEvent_stock hr
      have haccepts : (Op.addEvent fd event cb allow).accepts s
          { s.setIo r.2 with eventsAdded := s.eventsAdded + (if r.1 = 0 then 1 else 0) } fiber =
            (if r.1 = 0 then IOManager.cellTask (true, IOManager.filled cb ⟨some self, f, exec⟩) else 0) := by
        by_cases hok : r.1 = 0
        · simp only [Op.accepts, hok, if_true, Nat.succ_ne_self, if_false, hf]
          cases cb <;> rfl
        · simp [Op.accepts, hok]
      rw [haccepts]
      have hheld := Trades.held procs s { s.setIo r.2 with eventsAdded := s.eventsAdded + (if r.1 = 0 then 1 else 0) }
        (.same rfl) (.gains hstock) (.same rfl) (.same rfl) (.same rfl)
      simpa [Op.deletes] using hheld
  | @delEvent fd event allow r hr =>
      have hheld := Trades.held procs s (s.setIo r.2) (.same rfl) (.loses (IOManager.delEvent_stock hr)) (.same rfl)
        (.same rfl) (.same rfl)
      simp only [add_zero, zero_add] at hheld
      exact hheld
  | @cancelEvent fd event =>
      have hheld := Trades.held procs s (s.setCall w (.cancelEvent fd event)) (.same rfl) (.same rfl) (.same rfl) (.same rfl)
        (hquiet (.cancelEvent fd event) rfl)
      simpa [Op.accepts, Op.deletes] using hheld
  | @cancelAll fd =>
      have hheld := Trades.held procs s (s.setCall w (.cancelAll fd)) (.same rfl) (.same rfl) (.same rfl) (.same rfl)
        (hquiet (.cancelAll fd) rfl)
      simpa [Op.accepts, Op.deletes] using hheld

/-- A read changes no part. -/
theorem evaluate_work (s : State C) (now : UInt64) (e : EvalPc) :
    timerWork (evaluate s now e).1.timers = timerWork s.timers ∧ (evaluate s now e).1.io = s.io ∧
      (evaluate s now e).1.sched = s.sched ∧ (evaluate s now e).1.idle = s.idle ∧
      (evaluate s now e).1.call = s.call := by
  rcases evaluate_fst s now e with heq | heq <;> rw [heq] <;> exact ⟨rfl, rfl, rfl, rfl, rfl⟩

theorem evaluate_held (s : State C) (now : UInt64) (e : EvalPc) : held procs (evaluate s now e).1 = held procs s := by
  obtain ⟨htimers, hio, hsched, hidle, hcall⟩ := evaluate_work s now e
  rw [held, htimers, hio, hsched, hidle, hcall, held]

/-- An operation that triggers before it counts down moves tasks from the table to the queue. -/
theorem TablesInv.fired_held (htables : TablesInv s) {m : IOManager FiberId C} (h : IOManager.Sheds s.io m) :
    held procs (s.fired m) = held procs s := by
  have hqueue : queueWork (s.fired m).sched.queue = queueWork s.sched.queue + m.outbox := by
    rw [← triggered_work]
    exact pushAll_work s.sched (triggered m)
  have hio : Trades s.io.stock (s.fired m).io.stock m.outbox 0 := htables.stock_of_sheds h
  have hheld := Trades.held procs s (s.fired m) (.same rfl) hio (.gains hqueue) (.same rfl) (.same rfl)
  simp only [zero_add, add_zero] at hheld
  exact add_right_cancel hheld

/-- The queue changes. -/
theorem sched_held (procs : Finset ThreadId) {less more : Multiset (Work C)} (u : Scheduler.State C)
    (h : Trades (queueWork s.sched.queue) (queueWork u.queue) less more) :
    Trades (held procs s) (held procs { s with sched := u }) less more := by
  have hheld := Trades.held procs s { s with sched := u } (.same rfl) (.same rfl) h (.same rfl) (.same rfl)
  simpa using hheld

/-- The timer set changes. -/
theorem timers_held (procs : Finset ThreadId) {less more : Multiset (Work C)} (timers : TimerManager C)
    (h : Trades (timerWork s.timers) (timerWork timers) less more) :
    Trades (held procs s) (held procs { s with timers := timers }) less more := by
  have hheld := Trades.held procs s { s with timers := timers } h (.same rfl) (.same rfl) (.same rfl) (.same rfl)
  simpa using hheld

/-- The event table changes. -/
theorem io_held (procs : Finset ThreadId) {less more : Multiset (Work C)} (m : IOManager FiberId C)
    (h : Trades s.io.stock m.stock less more) :
    Trades (held procs s) (held procs (s.setIo m)) less more := by
  have hio : Trades s.io.stock (s.setIo m).io.stock less more := h
  have hheld := Trades.held procs s (s.setIo m) (.same rfl) hio (.same rfl) (.same rfl) (.same rfl)
  simpa using hheld

/-- A worker moves inside `idle`. -/
theorem setIdle_held {w : ThreadId} (hw : w ∈ procs) (s : State C) (pc : IdlePc C) :
    Trades (held procs s) (held procs (s.setIdle w pc)) (idleWork (s.idle w)) (idleWork pc) := by
  have hheld := Trades.held procs s (s.setIdle w pc) (.same rfl) (.same rfl) (.same rfl) (idle_trades hw s pc) (.same rfl)
  simpa using hheld

/-- A thread moves inside a cancelling call. -/
theorem setCall_held {w : ThreadId} (hw : w ∈ procs) (s : State C) (pc : CallPc C) :
    Trades (held procs s) (held procs (s.setCall w pc)) (callWork (s.call w)) (callWork pc) := by
  have hheld := Trades.held procs s (s.setCall w pc) (.same rfl) (.same rfl) (.same rfl) (.same rfl) (call_trades hw s pc)
  simpa using hheld

theorem pushAll_trades (u : Scheduler.State C) (entries : List (FiberAndThread C)) :
    Trades (queueWork u.queue) (queueWork (pushAll u entries).queue) 0 (queueWork entries) :=
  .gains (pushAll_work u entries)

/-- A worker in `idle` brings nothing, except where it expires timers. -/
theorem accepts_idle {w : ThreadId} {now : UInt64} {probe : Addr} {reports : List (ℕ × Report)} {allow : Bool}
    (hidle : ∀ r, s.idle w ≠ .expiring r) : (Action.idle w now probe reports allow).accepts s t = 0 := by
  simp only [Action.accepts]
  split
  · exact absurd ‹_› (hidle _)
  · rfl

/-- No step loses any work: what is held afterwards, with what the step takes up and deletes, is what was held before and what it brings. -/
theorem step_held (htables : TablesInv s) {a : Action C} (hprocs : ∀ w, a.thread = some w → w ∈ procs)
    (h : Effect th s a t) : Trades (held procs s) (held procs t) (a.takesUp s t + a.deletes s t) (a.accepts s t) := by
  cases h with
  | @run w u hu =>
      have hheld := sched_held procs u (run_work hu)
      simpa [Action.deletes] using hheld
  | @exit w how kind f u hpc hkind hu =>
      have hqueue : u.queue = s.sched.queue := by simpa [Scheduler.pushed] using Scheduler.step_queue hu (by simp)
      refine .same ?_
      simp only [held, hqueue]
  | @idleEval w now probe reports allow f e hpc hidle =>
      have hheld := setIdle_held (hprocs w rfl) (evaluate s now e).1 (idleAfter (evaluate s now e).2)
      have hafter : idleWork (idleAfter (C := C) (evaluate s now e).2) = 0 := by
        cases (evaluate s now e).2 with
        | inl e' => rfl
        | inr b => cases b <;> rfl
      rw [evaluate_held, (evaluate_work s now e).2.2.2.1, hidle, hafter] at hheld
      rw [accepts_idle (by simp [hidle])]
      exact hheld
  | @wait w now probe reports allow hidle =>
      have hheld := setIdle_held (hprocs w rfl) s (.expiring reports)
      rw [hidle] at hheld
      rw [accepts_idle (by simp [hidle])]
      exact hheld
  | @expire w now probe reports reports' allow r hidle hr =>
      have htimers : Trades (timerWork s.timers) (timerWork r.2) (cbWork r.1.reduceOption)
          ((s.timers.rearmed (s.timers.expired r.1)).map Task.cb) := by
        rw [Trades, timerWork, timerWork, cbWork, ← Multiset.map_add, TimerManager.listExpiredCb_stock htables.timers hr,
          Multiset.map_add]
      have hidleWork : idleWork (.scheduling r.1 reports) = cbWork r.1.reduceOption := rfl
      have haccepts : (Action.idle w now probe reports' allow).accepts s
          ({ s with timers := r.2 }.setIdle w (.scheduling r.1 reports)) =
            (s.timers.rearmed (s.timers.expired r.1)).map Task.cb := by
        simp [Action.accepts, hidle, State.setIdle]
      have hheld := (timers_held procs r.2 htimers).trans
        (setIdle_held (hprocs w rfl) { s with timers := r.2 } (.scheduling r.1 reports))
      rw [hidle, hidleWork, ← haccepts] at hheld
      exact hheld.cancel
  | @schedule w now probe reports reports' allow cbs hidle =>
      have hpush := pushAll_trades s.sched (cbs.map fun cb => ⟨none, cb, none⟩)
      rw [expired_work] at hpush
      have hheld := (sched_held procs _ hpush).trans (setIdle_held (hprocs w rfl)
        { s with sched := pushAll s.sched (cbs.map fun cb => ⟨none, cb, none⟩) } (.dispatching reports))
      have hbefore : idleWork (.scheduling cbs reports) = cbWork cbs.reduceOption := rfl
      have hafter : idleWork (.dispatching reports : IdlePc C) = 0 := rfl
      rw [hidle, hbefore, hafter] at hheld
      rw [accepts_idle (by simp [hidle])]
      exact .same (add_right_cancel hheld)
  | @dispatch w now probe reports rest allow fd n report m hidle hm =>
      have hheld := setIdle_held (hprocs w rfl) (s.fired m) (.decrementing n rest)
      rw [htables.fired_held (IOManager.dispatch_sheds hm)] at hheld
      rw [accepts_idle (by simp [hidle])]
      rw [show (s.fired m).idle w = _ from hidle] at hheld
      exact hheld
  | @idleCount w now probe reports rest allow n late pc hidle hpc =>
      have hheld := setIdle_held (hprocs w rfl) { s with late := late } pc
      rw [show ({ s with late := late } : State C).idle w = _ from hidle] at hheld
      have hafter : idleWork pc = 0 := by rcases hpc with rfl | ⟨n', rfl⟩ <;> rfl
      rw [accepts_idle (by simp [hidle])]
      rw [hafter] at hheld
      exact hheld
  | @idleExit w now probe reports allow f u hpc hidle hu =>
      have hqueue : u.queue = s.sched.queue := by simpa [Scheduler.pushed] using Scheduler.step_queue hu (by simp)
      have hheld := (setIdle_held (hprocs w rfl) s (.stopping .readTimers)).trans
        (sched_held procs (s := s.setIdle w (.stopping .readTimers)) u (.same (congrArg queueWork hqueue)))
      rw [hidle] at hheld
      rw [accepts_idle (by simp [hidle])]
      exact hheld
  | @idleFinish w now probe reports allow f u hpc hidle hu =>
      have hqueue : u.queue = s.sched.queue := by simpa [Scheduler.pushed] using Scheduler.step_queue hu (by simp)
      rw [accepts_idle (by simp [hidle])]
      exact sched_held procs u (.same (congrArg queueWork hqueue))
  | @task w op kind f t hpc hkind hcall hop =>
      have hheld := hop.held htables (hprocs w rfl) hcall
      simpa [Action.takesUp, Action.deletes, Action.accepts, hpc] using hheld
  | @other w op t hstop hcall hop =>
      have hheld := hop.held htables (hprocs w rfl) hcall
      simpa [Action.takesUp, Action.deletes, Action.accepts] using hheld
  | @cancelEvent w allow fd event r hcall hr =>
      have hheld := (io_held procs r.2 (htables.stock_of_sheds (IOManager.cancelEvent_sheds hr))).trans
        (setCall_held (hprocs w rfl) (s.setIo r.2) (.pushing (triggered r.2)))
      have hafter : callWork (.pushing (triggered r.2)) = r.2.outbox := triggered_work r.2
      rw [show (s.setIo r.2).call w = _ from hcall, hafter] at hheld
      exact hheld.cancel
  | @push w allow entries hcall =>
      have hheld := (sched_held procs _ (pushAll_trades s.sched entries)).trans
        (setCall_held (hprocs w rfl) { s with sched := pushAll s.sched entries } .none)
      have hbefore : callWork (.pushing entries) = queueWork entries := rfl
      have hafter : callWork (.none : CallPc C) = 0 := rfl
      rw [hcall, hbefore, hafter] at hheld
      exact .same (add_right_cancel hheld)
  | @cancelAll w allow fd n r hcall hr =>
      have hheld := setCall_held (hprocs w rfl) (s.fired r.2) (.decrementing n)
      rw [htables.fired_held (IOManager.cancelAll_sheds hr), show (s.fired r.2).call w = _ from hcall] at hheld
      exact hheld
  | @callCount w allow n late pc hcall hpc =>
      have hheld := setCall_held (hprocs w rfl) { s with late := late } pc
      have hafter : callWork pc = 0 := by rcases hpc with rfl | ⟨n', rfl⟩ <;> rfl
      rw [show ({ s with late := late } : State C).call w = _ from hcall, hafter] at hheld
      exact hheld
  | @earlyEval now e hstop => exact .same (evaluate_held s now e)
  | @checkEval now e hstop => exact .same (evaluate_held s now e)
  | callStop | mark | rootDone | joined => exact .same rfl

end Awcotn.Shutdown
