import Awcotn.Foundation.Process
import Awcotn.Foundation.Run
import Mathlib.Data.Finset.Lattice.Fold
import Mathlib.Order.Lattice.Nat

/-!
# Workers of a scheduler

`Scheduler::run` of `scheduler.cc` on any number of threads, with the operations of `fiber.cc` it calls. A step is a section under the scheduler's mutex, a single read or write of a fiber's state, an update of one of the two counters, or a context switch. Between steps a worker stands at a program point, so other workers and other threads may act there.

What fiber code does between being entered and leaving is up to the environment: it may schedule anything any number of times, register itself with an event or a timer that schedules it later, yield, return or throw. A context is not modelled beyond whether the thread that left the fiber has saved it yet.
-/

namespace Awcotn.Scheduler

open Transition

abbrev ThreadId := ℕ
abbrev FiberId := ℕ

/-- `Fiber::State`. -/
inductive FiberState
  | INIT
  | HOLD
  | EXEC
  | TERM
  | READY
  | EXCEPT
  deriving DecidableEq

/-- A `Fiber` object: its state and its function, which is empty once it has returned. -/
structure Fiber (C : Type*) where
  state : FiberState
  cb : Option C
  deriving DecidableEq

/-- `Scheduler::FiberAndThread`; a missing thread is `-1`. -/
structure FiberAndThread (C : Type*) where
  fiber : Option FiberId
  cb : Option C
  thread : Option ThreadId
  deriving DecidableEq

/-- The three fibers a worker swaps in: one from a queue entry, its `cb_fiber`, its `idle_fiber`. -/
inductive Kind
  | fiber
  | cb
  | idle
  deriving DecidableEq

/-- Where a worker stands. -/
inductive Pc (C : Type*)
  /-- At the top of the loop. -/
  | head
  /-- An entry has been dequeued; the state of its fiber is tested next. -/
  | picked (ft : FiberAndThread C)
  /-- At the last branch of the loop, without a task. -/
  | noTask
  /-- In `Fiber::reset`, before its assertion. -/
  | resetting (f : FiberId) (cb : Option C)
  /-- In `Fiber::reset`, before the state is set to `INIT`. -/
  | initing (f : FiberId) (cb : Option C)
  /-- In `swapIn`, before its assertion. -/
  | swapIn (kind : Kind) (f : FiberId)
  /-- In `swapIn`, before the state is set to `EXEC`. -/
  | checked (kind : Kind) (f : FiberId)
  /-- In `swapIn`, before the context switch. -/
  | entering (kind : Kind) (f : FiberId)
  /-- The fiber's code runs. -/
  | running (kind : Kind) (f : FiberId)
  /-- In `swapOut`, before the context is saved. -/
  | leaving (kind : Kind) (f : FiberId)
  /-- `swapIn` has returned; `--m_activeThreadCount` is next. -/
  | returned (kind : Kind) (f : FiberId)
  /-- The state of the fiber is read next. -/
  | counted (kind : Kind) (f : FiberId)
  /-- The fiber was `READY` and is scheduled next. -/
  | requeue (kind : Kind) (f : FiberId)
  /-- `setState(HOLD)` is next. -/
  | hold (kind : Kind) (f : FiberId)
  /-- `--m_idleThreadCount` is next. -/
  | idleDone
  | exited
  deriving DecidableEq

inductive Fault
  /-- `AWCOTN_ASSERT(it->fiber || it->cb)` -/
  | emptyEntry
  /-- `AWCOTN_ASSERT(m_state != EXEC)` of `swapIn` -/
  | swapInExec
  /-- `AWCOTN_ASSERT(m_state == TERM || m_state == INIT || m_state == EXCEPT)` of `reset` -/
  | resetLive
  deriving DecidableEq

/-- A scheduler with its workers. `waiting` lists the fibers registered with an event or a timer. -/
structure State (C : Type*) where
  fibers : FiberId → Fiber C
  nextFiber : FiberId
  queue : List (FiberAndThread C)
  activeThreadCount : ℤ
  idleThreadCount : ℤ
  waiting : List FiberId
  pc : ThreadId → Pc C
  idleFiber : ThreadId → FiberId
  cbFiber : ThreadId → Option FiberId

/-- How the code of a running fiber leaves it. `swapOut` without a state write is what `IOManager::idle` does. -/
inductive Exit
  | yieldToHold
  | yieldToReady
  | finish
  | throw
  | swapOut
  deriving DecidableEq

inductive Action (C : Type*)
  /-- Any thread calls `schedule`. -/
  | schedule (ft : FiberAndThread C)
  /-- Any thread creates a fiber. -/
  | newFiber (cb : C)
  /-- The fiber that runs on a worker registers itself with an event or a timer. -/
  | register (w : ThreadId)
  /-- A registration fires: the event trigger or the timer callback schedules the fiber. -/
  | trigger (i : ℕ)
  /-- The fiber that runs on a worker leaves it. -/
  | exit (w : ThreadId) (how : Exit)
  /-- A worker takes its next step in `run`. -/
  | run (w : ThreadId)
  deriving DecidableEq

variable {C : Type*}

def FiberState.dead : FiberState → Bool
  | .TERM | .EXCEPT => true
  | _ => false

/-- What `Fiber::reset` asserts of the state. -/
def FiberState.resettable : FiberState → Bool
  | .TERM | .INIT | .EXCEPT => true
  | _ => false

namespace State

def setState (s : State C) (f : FiberId) (state : FiberState) : State C :=
  { s with fibers := Function.update s.fibers f { s.fibers f with state := state } }

def setFiber (s : State C) (f : FiberId) (fiber : Fiber C) : State C :=
  { s with fibers := Function.update s.fibers f fiber }

def goto (s : State C) (w : ThreadId) (pc : Pc C) : State C := { s with pc := Function.update s.pc w pc }

def setCbFiber (s : State C) (w : ThreadId) (f : Option FiberId) : State C :=
  { s with cbFiber := Function.update s.cbFiber w f }

/-- The section of `schedule` under the mutex: an entry with neither fiber nor callback is not pushed. -/
def schedule (s : State C) (ft : FiberAndThread C) : State C :=
  if ft.fiber.isSome || ft.cb.isSome then { s with queue := s.queue ++ [ft] } else s

end State

/-- The scan of the queue by thread `w`: the first entry it may take, and the queue without it. -/
def pick (fibers : FiberId → Fiber C) (w : ThreadId) :
    List (FiberAndThread C) → Except Fault (Option (FiberAndThread C × List (FiberAndThread C)))
  | [] => .ok none
  | ft :: rest =>
    if ft.thread.isSome && ft.thread != some w then (pick fibers w rest).map (Option.map fun r => (r.1, ft :: r.2))
    else if ft.fiber.isNone && ft.cb.isNone then .error .emptyEntry
    else if ft.fiber.any fun f => (fibers f).state == .EXEC then
      (pick fibers w rest).map (Option.map fun r => (r.1, ft :: r.2))
    else .ok (some (ft, rest))

/-- The branch `run` takes on a dequeued entry. -/
def branch (s : State C) (w : ThreadId) (ft : FiberAndThread C) : State C :=
  match ft.fiber.filter fun f => !(s.fibers f).state.dead with
  | some f => s.goto w (.swapIn .fiber f)
  | none =>
    match ft.cb with
    | some c =>
      match s.cbFiber w with
      | some f => s.goto w (.resetting f (some c))
      | none =>
        let f := s.nextFiber
        ({ s with nextFiber := f + 1 }.setFiber f ⟨.INIT, some c⟩).setCbFiber w (some f) |>.goto w (.swapIn .cb f)
    | none => s.goto w .noTask

/-- What `run` does after `swapIn`, chosen by the state it reads. -/
def bookkeeping (kind : Kind) (f : FiberId) (state : FiberState) : Pc C :=
  match kind with
  | .fiber => if state = .READY then .requeue kind f else if state.dead then .head else .hold kind f
  | .cb => if state = .READY then .requeue kind f else if state.dead then .resetting f none else .hold kind f
  | .idle => if state.dead then .idleDone else .hold kind f

/-- The next step of worker `w` in `run`. -/
def runStep (s : State C) (w : ThreadId) : Outcome Fault (State C) :=
  match s.pc w with
  | .head =>
    match pick s.fibers w s.queue with
    | .error e => .abort e
    | .ok none => .next (s.goto w .noTask)
    | .ok (some (ft, rest)) =>
      .next ({ s with queue := rest, activeThreadCount := s.activeThreadCount + 1 }.goto w (.picked ft))
  | .picked ft => .next (branch s w ft)
  | .noTask =>
    if (s.fibers (s.idleFiber w)).state = .TERM then .next (s.goto w .exited)
    else .next ({ s with idleThreadCount := s.idleThreadCount + 1 }.goto w (.swapIn .idle (s.idleFiber w)))
  | .resetting f cb =>
    if (s.fibers f).state.resettable then .next (s.goto w (.initing f cb)) else .abort .resetLive
  | .initing f cb => .next ((s.setFiber f ⟨.INIT, cb⟩).goto w (if cb.isSome then .swapIn .cb f else .head))
  | .swapIn kind f =>
    if (s.fibers f).state = .EXEC then .abort .swapInExec else .next (s.goto w (.checked kind f))
  | .checked kind f => .next ((s.setState f .EXEC).goto w (.entering kind f))
  | .entering kind f => .next (s.goto w (.running kind f))
  | .running .. => .disabled
  | .leaving kind f => .next (s.goto w (if kind = .idle then .counted kind f else .returned kind f))
  | .returned kind f =>
    .next ({ s with activeThreadCount := s.activeThreadCount - 1 }.goto w (.counted kind f))
  | .counted kind f => .next (s.goto w (bookkeeping kind f (s.fibers f).state))
  | .requeue kind f =>
    let s := s.schedule ⟨some f, none, none⟩
    .next ((if kind = .cb then s.setCbFiber w none else s).goto w .head)
  | .hold kind f =>
    let s := s.setState f .HOLD
    .next ((if kind = .cb then s.setCbFiber w none else s).goto w (if kind = .idle then .idleDone else .head))
  | .idleDone => .next ({ s with idleThreadCount := s.idleThreadCount - 1 }.goto w .head)
  | .exited => .disabled

/-- The state a fiber's code leaves behind. A fiber without a function can only throw. -/
def exitStep (s : State C) (w : ThreadId) (how : Exit) : Outcome Fault (State C) :=
  match s.pc w with
  | .running kind f =>
    let fiber := s.fibers f
    if how ≠ .throw ∧ fiber.cb.isNone then .disabled
    else
      match how with
      | .yieldToHold => .next ((s.setState f .HOLD).goto w (.leaving kind f))
      | .yieldToReady => .next ((s.setState f .READY).goto w (.leaving kind f))
      | .finish => .next ((s.setFiber f ⟨.TERM, none⟩).goto w (.leaving kind f))
      | .throw => .next ((s.setState f .EXCEPT).goto w (.leaving kind f))
      | .swapOut => if kind = .idle then .next (s.goto w (.leaving kind f)) else .disabled
  | _ => .disabled

def step (workers : Finset ThreadId) (s : State C) : Action C → Outcome Fault (State C)
  | .schedule ft => if ft.fiber.all (· < s.nextFiber) then .next (s.schedule ft) else .disabled
  | .newFiber cb =>
    .next ({ s with nextFiber := s.nextFiber + 1 }.setFiber s.nextFiber ⟨.INIT, some cb⟩)
  | .register w =>
    match s.pc w with
    | .running _ f => .next { s with waiting := s.waiting ++ [f] }
    | _ => .disabled
  | .trigger i =>
    match s.waiting[i]? with
    | some f => .next ({ s with waiting := s.waiting.eraseIdx i }.schedule ⟨some f, none, none⟩)
    | none => .disabled
  | .exit w how => if w ∈ workers then exitStep s w how else .disabled
  | .run w => if w ∈ workers then runStep s w else .disabled

/-- The workers at the top of their loops, each with a new idle fiber. -/
def start (workers : Finset ThreadId) (idleCb : C) : State C where
  fibers := fun _ => ⟨.INIT, some idleCb⟩
  nextFiber := workers.sup id + 1
  queue := []
  activeThreadCount := 0
  idleThreadCount := 0
  waiting := []
  pc := fun _ => .head
  idleFiber := fun w => w
  cbFiber := fun _ => none

end Awcotn.Scheduler
