import Awcotn.IOManager.Manager
import Awcotn.Scheduler.Worker
import Awcotn.Timer.Manager
import Mathlib.Data.Finset.Option

/-!
# An IO manager that is being stopped

The workers of `scheduler.cc` with the `idle`, `stopping`, `cancelEvent` and `cancelAll` of `iomanager.cc`, the timer set of `timer.cc`, and `Scheduler::stop`. The three parts are those of the other modules; here they share one queue, and what they do to each other is in steps of its own: `stopping` reads the timer set, the pending count and the queue with the active count in three steps, an expiry call holds the callbacks it has taken until it schedules them, and `cancelEvent` counts its event down before it pushes the event's task.

`cancelAll` and the dispatch loop push first and count down afterwards. `late` is the number of those count-downs still to come, so that `m_pendingEventCount` is the count of the event table plus `late`.

Tasks may do anything the managers offer; other threads may do the same until `stop` is called, except that only tasks register events, since `addEvent` registers with the caller's scheduler. `stop` is called once. `epoll_wait` wakes a worker whenever the environment likes, so `tickle` has no effect here.
-/

namespace Awcotn.Shutdown

open Transition

abbrev ThreadId := Scheduler.ThreadId
abbrev FiberId := Scheduler.FiberId
abbrev FiberAndThread (C : Type*) := Scheduler.FiberAndThread C

/-- The threads that run `Scheduler::run`: those that `start` creates, and the one that constructs the manager with `use_caller`. The constructor asserts that there is one. -/
structure Threads where
  started : Finset ThreadId
  root : Option ThreadId
  root_notMem : ∀ w, root = some w → w ∉ started
  nonempty : started.Nonempty ∨ root.isSome

def Threads.workers (th : Threads) : Finset ThreadId := th.started ∪ th.root.toFinset

/-- Where a thread stands in `IOManager::stopping`. The counters are not in the source: they say how many timers and events had been added at the earlier reads. -/
inductive EvalPc
  | readTimers
  | readPending (timersSeen : ℕ)
  | readQueue (timersSeen eventsSeen : ℕ)
  deriving DecidableEq

/-- Where a worker's idle fiber stands in `IOManager::idle`. -/
inductive IdlePc (C : Type*)
  | stopping (e : EvalPc)
  /-- In `epoll_wait`. -/
  | waiting
  /-- `listExpiredCb` is next. -/
  | expiring (reports : List (ℕ × Report))
  /-- The expired callbacks are scheduled next. -/
  | scheduling (cbs : List (Option C)) (reports : List (ℕ × Report))
  /-- The next report is dispatched next, or `swapOut` is. -/
  | dispatching (reports : List (ℕ × Report))
  /-- `--m_pendingEventCount` is next, so many times. -/
  | decrementing (n : ℕ) (reports : List (ℕ × Report))
  /-- `idle` has returned. -/
  | finished
  deriving DecidableEq

/-- Where a thread stands in a cancelling call. -/
inductive CallPc (C : Type*)
  | none
  | cancelEvent (fd : ℕ) (event : Event)
  /-- The event is counted down; its task is scheduled next. -/
  | pushing (entries : List (FiberAndThread C))
  | cancelAll (fd : ℕ)
  | decrementing (n : ℕ)
  deriving DecidableEq

/-- Where the stopping thread stands in `Scheduler::stop`. -/
inductive StopPc
  | notCalled
  /-- `m_autoStop = true` is next. -/
  | called
  /-- Without started threads: `m_stopping = true` is next, and `stopping` after it. -/
  | early
  | earlyCheck (e : EvalPc)
  /-- `m_stopping = true` and the tickles are next. -/
  | marking
  | check (e : EvalPc)
  /-- In `m_rootFiber->call()`. -/
  | rootRunning
  | joining
  | returned
  deriving DecidableEq

inductive Crash
  | io (e : Awcotn.Fault)
  | sched (e : Scheduler.Fault)
  | timer
  deriving DecidableEq

/-- The manager. The last two fields count the timers and events ever added. -/
structure State (C : Type*) where
  sched : Scheduler.State C
  io : IOManager FiberId C
  late : ℕ
  timers : TimerManager C
  autoStop : Bool
  stopping : Bool
  idle : ThreadId → IdlePc C
  call : ThreadId → CallPc C
  stop : StopPc
  timersAdded : ℕ
  eventsAdded : ℕ

/-- What a task, or another thread before `stop`, does with the manager. -/
inductive Op (C : Type*)
  | schedule (task : Task FiberId C) (thread : Option ThreadId)
  | newFiber (cb : C)
  | timer (op : TimerManager.Action C)
  | addEvent (fd : ℕ) (event : Event) (cb : Option C) (allow : Bool)
  | delEvent (fd : ℕ) (event : Event) (allow : Bool)
  | cancelEvent (fd : ℕ) (event : Event)
  | cancelAll (fd : ℕ)

inductive Action (C : Type*)
  /-- A worker takes its next step in `run`. -/
  | run (w : ThreadId)
  /-- A worker takes its next step in `idle`, with what the clock, the allocator and the kernel answer. -/
  | idle (w : ThreadId) (now : UInt64) (probe : Addr) (reports : List (ℕ × Report)) (allow : Bool)
  /-- The task that runs on a worker does something, or leaves its fiber. -/
  | task (w : ThreadId) (op : Op C)
  | exit (w : ThreadId) (how : Scheduler.Exit)
  /-- A thread that is no started worker does something. -/
  | other (w : ThreadId) (op : Op C)
  /-- A thread takes its next step in a cancelling call. -/
  | call (w : ThreadId) (allow : Bool)
  | callStop
  | stop (now : UInt64)

variable {C : Type*}

/-- The queue entry for a task. -/
def taskEntry (task : Task FiberId C) (thread : Option ThreadId) : FiberAndThread C :=
  match task with
  | .fiber f => ⟨some f, none, thread⟩
  | .cb c => ⟨none, some c, thread⟩

/-- A range of entries goes into the queue under one lock. -/
def pushAll (s : Scheduler.State C) (entries : List (FiberAndThread C)) : Scheduler.State C :=
  entries.foldl Scheduler.State.schedule s

/-- What an operation of the event table has triggered, as queue entries. -/
def triggered (m : IOManager FiberId C) : List (FiberAndThread C) := m.scheduled.map fun entry => taskEntry entry.2 none

namespace State

def setIdle (s : State C) (w : ThreadId) (pc : IdlePc C) : State C := { s with idle := Function.update s.idle w pc }

def setCall (s : State C) (w : ThreadId) (pc : CallPc C) : State C := { s with call := Function.update s.call w pc }

/-- The event table after an operation whose triggered tasks have been taken along. -/
def setIo (s : State C) (m : IOManager FiberId C) : State C := { s with io := { m with scheduled := [] } }

/-- `m_pendingEventCount`. -/
def pending (s : State C) : ℤ := s.io.pendingEventCount + s.late

/-- `Scheduler::stopping`. -/
def schedulerStopping (s : State C) : Bool :=
  s.autoStop && s.stopping && s.sched.queue.isEmpty && s.sched.activeThreadCount == 0

/-- An operation that triggers before it counts down: the tasks are pushed, and as many count-downs are to come. -/
def fired (s : State C) (m : IOManager FiberId C) : State C :=
  { s.setIo m with
    sched := pushAll s.sched (triggered m), late := s.late + (s.io.pendingEventCount - m.pendingEventCount).toNat }

end State

/-- Carry an outcome of the scheduler over. -/
def ofSched (s : State C) (r : Outcome Scheduler.Fault (Scheduler.State C)) : Outcome Crash (State C) :=
  match r with
  | .next sched => .next { s with sched := sched }
  | .abort e => .abort (.sched e)
  | .disabled => .disabled

/-- Carry an outcome of the event table over. -/
def ofIo {β : Type*} (r : Except Awcotn.Fault β) (next : β → State C) : Outcome Crash (State C) :=
  match r with
  | .ok b => .next (next b)
  | .error e => .abort (.io e)

/-- One read of `IOManager::stopping`: the evaluation goes on, or is decided. -/
def evaluate (s : State C) (now : UInt64) : EvalPc → State C × (EvalPc ⊕ Bool)
  | .readTimers =>
    let r := s.timers.getNextTimer now
    ({ s with timers := r.2 }, if r.1 = ~~~0 then .inl (.readPending s.timersAdded) else .inr false)
  | .readPending timersSeen =>
    (s, if s.pending = 0 then .inl (.readQueue timersSeen s.eventsAdded) else .inr false)
  | .readQueue _ _ => (s, .inr s.schedulerStopping)

/-- The next step of `IOManager::idle` on worker `w`. -/
def idleStep (workers : Finset ThreadId) (s : State C) (w : ThreadId) (now : UInt64) (probe : Addr)
    (reports : List (ℕ × Report)) (allow : Bool) : Outcome Crash (State C) :=
  match s.idle w with
  | .stopping e =>
    let r := evaluate s now e
    .next (r.1.setIdle w (match r.2 with
      | .inl e => .stopping e
      | .inr true => .finished
      | .inr false => .waiting))
  | .waiting =>
    if reports.all fun r => IOManager.mayReport s.io.epoll r.1 r.2 then .next (s.setIdle w (.expiring reports))
    else .disabled
  | .expiring reports =>
    if (s.timers.heap probe).isNone then
      match s.timers.listExpiredCb now probe with
      | none => .abort .timer
      | some (cbs, timers) => .next ({ s with timers := timers }.setIdle w (.scheduling cbs reports))
    else .disabled
  | .scheduling cbs reports =>
    .next ({ s with sched := pushAll s.sched (cbs.map fun cb => ⟨none, cb, none⟩) }.setIdle w (.dispatching reports))
  | .dispatching [] =>
    ofSched (s.setIdle w (.stopping .readTimers)) (Scheduler.step workers s.sched (.exit w .swapOut))
  | .dispatching ((fd, report) :: rest) =>
    ofIo (s.io.dispatch fd report allow) fun m =>
      (s.fired m).setIdle w (.decrementing (s.io.pendingEventCount - m.pendingEventCount).toNat rest)
  | .decrementing 0 rest => .next (s.setIdle w (.dispatching rest))
  | .decrementing (n + 1) rest => .next ({ s with late := s.late - 1 }.setIdle w (.decrementing n rest))
  | .finished => ofSched s (Scheduler.step workers s.sched (.exit w .finish))

/-- The next step of a cancelling call. -/
def callStep (s : State C) (w : ThreadId) (allow : Bool) : Outcome Crash (State C) :=
  match s.call w with
  | .none => .disabled
  | .cancelEvent fd event =>
    ofIo (s.io.cancelEvent fd event allow) fun r => (s.setIo r.2).setCall w (.pushing (triggered r.2))
  | .pushing entries => .next ({ s with sched := pushAll s.sched entries }.setCall w .none)
  | .cancelAll fd =>
    ofIo (s.io.cancelAll fd allow) fun r =>
      (s.fired r.2).setCall w (.decrementing (s.io.pendingEventCount - r.2.pendingEventCount).toNat)
  | .decrementing 0 => .next (s.setCall w .none)
  | .decrementing (n + 1) => .next ({ s with late := s.late - 1 }.setCall w (.decrementing n))

/-- The scheduler that `GetThis()` is on a worker's thread. -/
def self : SchedulerId := 0

/-- An operation of thread `w`, in which fiber `fiber` runs if it is a worker. A task is scheduled by whoever has its fiber; the idle fibers of the workers are nobody's. -/
def opStep (workers : Finset ThreadId) (s : State C) (w : ThreadId) (fiber : Option FiberId) :
    Op C → Outcome Crash (State C)
  | .schedule (.cb c) thread => .next { s with sched := s.sched.schedule (taskEntry (.cb c) thread) }
  | .schedule (.fiber f) thread =>
    if workers.sup id < f ∧ f < s.sched.nextFiber then
      .next { s with sched := s.sched.schedule (taskEntry (.fiber f) thread) }
    else .disabled
  | .newFiber cb => ofSched s (Scheduler.step workers s.sched (.newFiber cb))
  | .timer (.listExpiredCb _ _) => .disabled
  | .timer op =>
    match TimerManager.step s.timers op with
    | .next timers =>
      .next { s with
        timers := timers
        timersAdded := s.timersAdded + (match op with
          | .addTimer .. => 1
          | _ => 0) }
    | .abort _ => .abort .timer
    | .disabled => .disabled
  | .addEvent fd event cb allow =>
    match fiber with
    | none => .disabled
    | some f =>
      ofIo (s.io.addEvent fd event cb ⟨some self, f, (s.sched.fibers f).state = .EXEC⟩ allow) fun r =>
        { s.setIo r.2 with eventsAdded := s.eventsAdded + (if r.1 = 0 then 1 else 0) }
  | .delEvent fd event allow => ofIo (s.io.delEvent fd event allow) fun r => s.setIo r.2
  | .cancelEvent fd event => .next (s.setCall w (.cancelEvent fd event))
  | .cancelAll fd => .next (s.setCall w (.cancelAll fd))

/-- `run` has returned. -/
def hasExited : Scheduler.Pc C → Bool
  | .exited => true
  | _ => false

/-- The next step of `Scheduler::stop`. -/
def stopStep (th : Threads) (s : State C) (now : UInt64) : Outcome Crash (State C) :=
  match s.stop with
  | .called =>
    .next { s with autoStop := true, stop := if th.root.isSome ∧ th.started = ∅ then .early else .marking }
  | .early => .next { s with stopping := true, stop := .earlyCheck .readTimers }
  | .earlyCheck e =>
    let r := evaluate s now e
    .next { r.1 with
      stop := match r.2 with
        | .inl e => .earlyCheck e
        | .inr true => .returned
        | .inr false => .marking }
  | .marking => .next { s with stopping := true, stop := if th.root.isSome then .check .readTimers else .joining }
  | .check e =>
    let r := evaluate s now e
    .next { r.1 with
      stop := match r.2 with
        | .inl e => .check e
        | .inr true => .joining
        | .inr false => .rootRunning }
  | .rootRunning => if th.root.all fun w => hasExited (s.sched.pc w) then .next { s with stop := .joining } else .disabled
  | .joining => if ∀ w ∈ th.started, hasExited (s.sched.pc w) then .next { s with stop := .returned } else .disabled
  | .notCalled | .returned => .disabled

/-- Whether a thread is running `run`: the caller's thread does so only inside `stop`. -/
def Threads.runs (th : Threads) (s : State C) (w : ThreadId) : Bool :=
  w ∈ th.started || (th.root == some w && s.stop == .rootRunning)

def step (th : Threads) (s : State C) : Action C → Outcome Crash (State C)
  | .run w => if th.runs s w then ofSched s (Scheduler.step th.workers s.sched (.run w)) else .disabled
  | .idle w now probe reports allow =>
    match s.sched.pc w with
    | .running .idle _ => idleStep th.workers s w now probe reports allow
    | _ => .disabled
  | .task w op =>
    match s.sched.pc w, s.call w with
    | .running .idle _, _ => .disabled
    | .running _ f, .none => opStep th.workers s w (some f) op
    | _, _ => .disabled
  | .exit w how =>
    match s.sched.pc w, s.call w with
    | .running .idle _, _ => .disabled
    | .running _ _, .none => ofSched s (Scheduler.step th.workers s.sched (.exit w how))
    | _, _ => .disabled
  | .other w op =>
    match s.stop, s.call w with
    | .notCalled, .none => if w ∈ th.started then .disabled else opStep th.workers s w none op
    | _, _ => .disabled
  | .call w allow => callStep s w allow
  | .callStop =>
    match s.stop with
    | .notCalled => .next { s with stop := .called }
    | _ => .disabled
  | .stop now => stopStep th s now

/-- A manager that has just been started. -/
def start (th : Threads) (idleCb : C) (now : UInt64) : State C where
  sched := Scheduler.start th.workers idleCb
  io := IOManager.init
  late := 0
  timers := TimerManager.init now
  autoStop := false
  stopping := false
  idle := fun _ => .stopping .readTimers
  call := fun _ => .none
  stop := .notCalled
  timersAdded := 0
  eventsAdded := 0

end Awcotn.Shutdown
