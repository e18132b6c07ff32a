import Awcotn.Foundation.Run
import Awcotn.IOManager.FdContext
import Mathlib.Logic.Function.Basic
import Mathlib.Data.Int.Notation

/-!
# The event table of an IO manager

`addEvent`, `delEvent`, `cancelEvent`, `cancelAll` and the dispatch loop of `idle`, each as one atomic step under the mutex of its descriptor's context. The kernel side is the interest set of the `epoll` instance: `ADD` fails on a descriptor that is present, `MOD` and `DEL` on one that is absent, and any call may fail for reasons of the kernel's own, which the argument `allow` decides. A failing call changes nothing.

Descriptors are indices of `m_fdContexts`. The pipe that wakes an idle worker is no user's descriptor and is left out, and so are the log lines.
-/

namespace Awcotn

inductive EpollOp
  | ADD
  | MOD
  | DEL
  deriving DecidableEq

/-- The interest set of an `epoll` instance: the mask registered for each descriptor that is present. -/
abbrev Epoll := ℕ → Option Events

namespace Epoll

/-- The kernel's own rule for which operation fits a descriptor. -/
def accepts (epoll : Epoll) (op : EpollOp) (fd : ℕ) : Bool :=
  match op with
  | .ADD => (epoll fd).isNone
  | .MOD | .DEL => (epoll fd).isSome

def apply (epoll : Epoll) (op : EpollOp) (fd : ℕ) (mask : Events) : Epoll :=
  match op with
  | .ADD | .MOD => Function.update epoll fd (some mask)
  | .DEL => Function.update epoll fd none

/-- `epoll_ctl`: the new interest set, or a failure. -/
def ctl (epoll : Epoll) (op : EpollOp) (fd : ℕ) (mask : Events) (allow : Bool) : Option Epoll :=
  if allow && epoll.accepts op fd then some (epoll.apply op fd mask) else none

end Epoll

/-- What `epoll_wait` reports for one descriptor. -/
structure Report where
  epollin : Bool
  epollout : Bool
  epollerr : Bool
  epollhup : Bool
  deriving DecidableEq

/-- `real_events` of the dispatch loop: an error or a hang-up counts as both directions. -/
def Report.realEvents (report : Report) : Events :=
  if report.epollerr || report.epollhup then ⟨true, true⟩ else ⟨report.epollin, report.epollout⟩

/-- What `addEvent` reads of the calling thread: `Scheduler::GetThis()`, `Fiber::GetThis()` and whether that fiber's state is `EXEC`. -/
structure Caller (F : Type*) where
  scheduler : Option SchedulerId
  fiber : F
  exec : Bool
  deriving DecidableEq

/-- The part of an `IOManager` that concerns events. `scheduled` is every entry `triggerEvent` has pushed, in order, with the scheduler whose run queue it went to. -/
structure IOManager (F C : Type*) where
  fdContexts : List (FdContext F C)
  pendingEventCount : ℤ
  epoll : Epoll
  scheduled : List (SchedulerId × Task F C)

variable {F C : Type*}

/-- `IOManager::contextResize`: `resize` cuts the table off or extends it, and every slot that is empty then gets a new context. -/
def contextResize (size : ℕ) (ctxs : List (FdContext F C)) : List (FdContext F C) :=
  ctxs.take size ++ (List.range' ctxs.length (size - ctxs.length)).map FdContext.new

namespace IOManager

/-- `IOManager::IOManager`. -/
def init : IOManager F C :=
  { fdContexts := contextResize 32 [], pendingEventCount := 0, epoll := fun _ => none, scheduled := [] }

variable (m : IOManager F C)

/-- Write back the context of a descriptor. -/
def setCtx (fd : ℕ) (ctx : FdContext F C) : IOManager F C :=
  { m with fdContexts := m.fdContexts.set fd ctx }

/-- The lookup at the start of `addEvent`, which grows the table to `fd * 1.5` where the descriptor is past its end. -/
def lookupGrow (fd : ℕ) : Except Fault (FdContext F C × IOManager F C) :=
  match m.fdContexts[fd]? with
  | some ctx => .ok (ctx, m)
  | none =>
    let m := { m with fdContexts := contextResize (fd * 3 / 2) m.fdContexts }
    match m.fdContexts[fd]? with
    | some ctx => .ok (ctx, m)
    | none => .error .outOfRange

/-- The operation `addEvent` chooses. -/
def addOp (ctx : FdContext F C) : EpollOp := if ctx.events.any then .MOD else .ADD

/-- The operation that leaves `events` registered, as `delEvent`, `cancelEvent` and the dispatch loop choose it. -/
def leaveOp (events : Events) : EpollOp := if events.any then .MOD else .DEL

/-- `addEvent` once it has found the context of its descriptor and `epoll_ctl` has succeeded. -/
def register (fd : ℕ) (ctx : FdContext F C) (event : Event) (cb : Option C) (caller : Caller F) (epoll : Epoll) :
    Except Fault (ℤ × IOManager F C) :=
  let ctx := { ctx with events := ctx.events.add event }
  match ctx.getContext event with
  | .error e => .error e
  | .ok slot =>
    if slot.scheduler.isSome || slot.fiber.isSome || slot.cb.isSome then .error .addEventSlotUsed
    else
      let filled : EventContext F C := match cb with
        | some c => { slot with scheduler := caller.scheduler, cb := some c }
        | none => { slot with scheduler := caller.scheduler, fiber := some caller.fiber }
      if cb.isNone && !caller.exec then .error .addEventFiberNotExec
      else .ok (0, { m with pendingEventCount := m.pendingEventCount + 1, epoll := epoll }.setCtx fd
        (ctx.setContext filled event))

/-- `IOManager::addEvent`. -/
def addEvent (fd : ℕ) (event : Event) (cb : Option C) (caller : Caller F) (allow : Bool) :
    Except Fault (ℤ × IOManager F C) :=
  match m.lookupGrow fd with
  | .error e => .error e
  | .ok (ctx, m) =>
    if ctx.events.has event then .error .addEventRegistered
    else
      match m.epoll.ctl (addOp ctx) fd (ctx.events.add event) allow with
      | none => .ok (-1, m)
      | some epoll => m.register fd ctx event cb caller epoll

/-- `IOManager::delEvent`. -/
def delEvent (fd : ℕ) (event : Event) (allow : Bool) : Except Fault (Bool × IOManager F C) :=
  match m.fdContexts[fd]? with
  | none => .ok (false, m)
  | some ctx =>
    if !ctx.events.has event then .ok (false, m)
    else
      let newEvents := ctx.events.clear event
      match m.epoll.ctl (leaveOp newEvents) fd newEvents allow with
      | none => .ok (false, m)
      | some epoll =>
        let ctx := { ctx with events := newEvents }
        match ctx.getContext event with
        | .error e => .error e
        | .ok _ =>
          .ok (true, { m with pendingEventCount := m.pendingEventCount - 1, epoll := epoll }.setCtx fd
            (ctx.setContext .reset event))

/-- `IOManager::cancelEvent`. -/
def cancelEvent (fd : ℕ) (event : Event) (allow : Bool) : Except Fault (Bool × IOManager F C) :=
  match m.fdContexts[fd]? with
  | none => .ok (false, m)
  | some ctx =>
    if !ctx.events.has event then .ok (false, m)
    else
      let newEvents := ctx.events.clear event
      match m.epoll.ctl (leaveOp newEvents) fd newEvents allow with
      | none => .ok (false, m)
      | some epoll =>
        let m := { m with pendingEventCount := m.pendingEventCount - 1, epoll := epoll }
        match ctx.triggerEvent event with
        | .error e => .error e
        | .ok (ctx, entries) => .ok (true, { m with scheduled := m.scheduled ++ entries }.setCtx fd ctx)

/-- `triggerEvent` and the decrement that follows it in `cancelAll` and in the dispatch loop. -/
def fire (fd : ℕ) (event : Event) : Except Fault (IOManager F C) :=
  match m.fdContexts[fd]? with
  | none => .error .outOfRange
  | some ctx =>
    match ctx.triggerEvent event with
    | .error e => .error e
    | .ok (ctx, entries) =>
      .ok ({ m with scheduled := m.scheduled ++ entries, pendingEventCount := m.pendingEventCount - 1 }.setCtx fd ctx)

/-- `if(cond) { triggerEvent(event); --m_pendingEventCount; }` -/
def fireIf (cond : Bool) (fd : ℕ) (event : Event) : Except Fault (IOManager F C) :=
  if cond then m.fire fd event else .ok m

/-- Whether the context of a descriptor has an event registered. -/
def registered (fd : ℕ) (event : Event) : Bool :=
  match m.fdContexts[fd]? with
  | none => false
  | some ctx => ctx.events.has event

/-- `IOManager::cancelAll`. -/
def cancelAll (fd : ℕ) (allow : Bool) : Except Fault (Bool × IOManager F C) :=
  match m.fdContexts[fd]? with
  | none => .ok (false, m)
  | some ctx =>
    if !ctx.events.any then .ok (false, m)
    else
      match m.epoll.ctl .DEL fd .empty allow with
      | none => .ok (false, m)
      | some epoll => do
        let m := { m with epoll := epoll }
        let m ← m.fireIf (m.registered fd .READ) fd .READ
        let m ← m.fireIf (m.registered fd .WRITE) fd .WRITE
        if m.registered fd .READ || m.registered fd .WRITE then .error .cancelAllEventsLeft
        else .ok (true, m)

/-- One iteration of the dispatch loop of `idle`, on the context `event.data.ptr` points to. -/
def dispatch (fd : ℕ) (report : Report) (allow : Bool) : Except Fault (IOManager F C) :=
  match m.fdContexts[fd]? with
  | none => .error .outOfRange
  | some ctx =>
    let realEvents := report.realEvents
    if !(ctx.events.inter realEvents).any then .ok m
    else
      let leftEvents := ctx.events.diff realEvents
      match m.epoll.ctl (leaveOp leftEvents) ctx.fd leftEvents allow with
      | none => .ok m
      | some epoll => do
        let m ← { m with epoll := epoll }.fireIf realEvents.read fd .READ
        m.fireIf realEvents.write fd .WRITE

/-! ### Runs

A worker's `epoll_wait` leaves a list of reports that the worker dispatches one by one later, while other threads go on adding, deleting and cancelling.
-/

/-- The manager and the reports that some worker still has to dispatch. -/
structure State (F C : Type*) where
  io : IOManager F C
  ready : List (ℕ × Report)

inductive Action (F C : Type*)
  | addEvent (fd : ℕ) (event : Event) (cb : Option C) (caller : Caller F) (allow : Bool)
  | delEvent (fd : ℕ) (event : Event) (allow : Bool)
  | cancelEvent (fd : ℕ) (event : Event) (allow : Bool)
  | cancelAll (fd : ℕ) (allow : Bool)
  | wait (reports : List (ℕ × Report))
  | dispatch (i : ℕ) (allow : Bool)

open Transition

/-- What `epoll_wait` may report for a descriptor: interests registered now, and errors. -/
def mayReport (epoll : Epoll) (fd : ℕ) (report : Report) : Bool :=
  match epoll fd with
  | none => false
  | some mask => (!report.epollin || mask.read) && (!report.epollout || mask.write)

def start : State F C := { io := init, ready := [] }

def step (s : State F C) : Action F C → Outcome Fault (State F C)
  | .addEvent fd event cb caller allow =>
    .ofExcept ((s.io.addEvent fd event cb caller allow).map fun r => { s with io := r.2 })
  | .delEvent fd event allow => .ofExcept ((s.io.delEvent fd event allow).map fun r => { s with io := r.2 })
  | .cancelEvent fd event allow => .ofExcept ((s.io.cancelEvent fd event allow).map fun r => { s with io := r.2 })
  | .cancelAll fd allow => .ofExcept ((s.io.cancelAll fd allow).map fun r => { s with io := r.2 })
  | .wait reports =>
    if reports.all fun r => mayReport s.io.epoll r.1 r.2 then .next { s with ready := s.ready ++ reports }
    else .disabled
  | .dispatch i allow =>
    match s.ready[i]? with
    | none => .disabled
    | some (fd, report) =>
      .ofExcept ((s.io.dispatch fd report allow).map fun io => { io := io, ready := s.ready.eraseIdx i })

end IOManager

end Awcotn
