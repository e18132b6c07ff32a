import Awcotn.Hook.FdManager
import Awcotn.IOManager.Manager
import Awcotn.Timer.Manager

/-!
# Hooked calls

`do_io`, `connect_with_timeout` and the hooked `close` of `hook.cc`, as programs of any number of fibers on any number of IO managers. A step is one operation of a manager, of the timer set or of the descriptor table under its lock, one raw system call, or one access to the call's `timer_info`. Between steps the other fibers, the workers' timer expiry and event dispatch, and the timeout callbacks already handed out go on.

The scheduler is left abstract: the `scheduled` list of an IO manager is its run queue, a suspended fiber may resume once its entry is there, and a callback that `listExpiredCb` has returned may run at any later time. Raw system calls return what the environment chooses.

Timer objects are not freed here; a call's own pointer keeps its timer alive, and no step depends on an address that nobody holds.
-/

namespace Awcotn.Hook

open Transition

abbrev FiberId := ℕ
abbrev CallId := ℕ

/-- An IO manager is the scheduler of its fibers. -/
abbrev IomId := SchedulerId

/-- What a hooked function passes to `do_io` or `connect_with_timeout`. -/
inductive Request
  | doIo (fd : ℕ) (event : Event) (timeoutSo : TimeoutSo)
  | connect (fd : ℕ) (timeoutMs : UInt64)
  deriving DecidableEq

/-- The functions that read and those that write differ in nothing else here. -/
def Request.accept (fd : ℕ) : Request := .doIo fd .READ .SO_RCVTIMEO
def Request.read (fd : ℕ) : Request := .doIo fd .READ .SO_RCVTIMEO
def Request.readv (fd : ℕ) : Request := .doIo fd .READ .SO_RCVTIMEO
def Request.recv (fd : ℕ) : Request := .doIo fd .READ .SO_RCVTIMEO
def Request.recvfrom (fd : ℕ) : Request := .doIo fd .READ .SO_RCVTIMEO
def Request.recvmsg (fd : ℕ) : Request := .doIo fd .READ .SO_RCVTIMEO
def Request.write (fd : ℕ) : Request := .doIo fd .WRITE .SO_SNDTIMEO
def Request.writev (fd : ℕ) : Request := .doIo fd .WRITE .SO_SNDTIMEO
def Request.send (fd : ℕ) : Request := .doIo fd .WRITE .SO_SNDTIMEO
def Request.sendto (fd : ℕ) : Request := .doIo fd .WRITE .SO_SNDTIMEO
def Request.sendmsg (fd : ℕ) : Request := .doIo fd .WRITE .SO_SNDTIMEO

def Request.fd : Request → ℕ
  | .doIo fd _ _ | .connect fd _ => fd

def Request.event : Request → Event
  | .doIo _ event _ => event
  | .connect _ _ => .WRITE

def Request.isDoIo : Request → Bool
  | .doIo .. => true
  | .connect .. => false

/-- The locals of a call. Its `timer_info` is named by `id`; `generation` is not in the source and says which opening of the descriptor number the call was made on. -/
structure Call where
  id : CallId
  iom : IomId
  request : Request
  timeoutMs : UInt64
  generation : ℕ
  deriving DecidableEq

/-- What a timeout callback captures. -/
structure Timeout where
  winfo : CallId
  fd : ℕ
  event : Event
  iom : IomId
  deriving DecidableEq

def Call.timeout (c : Call) : Timeout := ⟨c.id, c.request.fd, c.request.event, c.iom⟩

/-- The callback of a timer: a call's timeout, or anything else. -/
inductive TimerCb
  | timeout (t : Timeout)
  | other
  deriving DecidableEq

/-- What a raw system call comes to. For `connect`, `wouldBlock` is `EINPROGRESS` and the call is not repeated on `EINTR`. -/
inductive RawResult
  | done (n : ℕ)
  | EINTR
  | wouldBlock
  | fail (errno : ℕ)
  deriving DecidableEq

/-- What a hooked call returns: what its raw operation did, or -1 with `errno` set by the hook, by `epoll_ctl` or from `SO_ERROR`. -/
inductive Return
  | raw (r : RawResult)
  | EBADF
  | ETIMEDOUT
  | addEventFailed
  | soError (error : Option ℕ)
  deriving DecidableEq

/-- Where a fiber stands in a hooked call. -/
inductive Pc
  | idle
  /-- `FdManager::get` is next. -/
  | entered (c : Call)
  /-- The raw operation is next, and its result is returned. -/
  | direct (c : Call)
  /-- The raw operation is next. -/
  | raw (c : Call)
  /-- `addConditionTimer` is next, if the call has a timeout. -/
  | arming (c : Call)
  /-- `addEvent` is next. -/
  | adding (c : Call) (timer : Option Addr)
  /-- `addEvent` has failed; `cancel` of the timer is next. -/
  | failed (c : Call) (timer : Option Addr)
  /-- `YieldToHold` is next. -/
  | yielding (c : Call) (timer : Option Addr)
  | suspended (c : Call) (timer : Option Addr)
  /-- `cancel` of the timer is next. -/
  | woken (c : Call) (timer : Option Addr)
  /-- The test of `tinfo->cancelled` is next. -/
  | checking (c : Call)
  /-- `getsockopt` is next. -/
  | soError (c : Call)
  /-- In `close`: `FdManager::get`, `cancelAll`, `FdManager::del` and `close_f` are next. -/
  | closeGet (fd : ℕ) (iom : Option IomId)
  | closeCancel (fd : ℕ) (iom : Option IomId)
  | closeDel (fd : ℕ)
  | closeRaw (fd : ℕ)
  deriving DecidableEq

/-- Where a timeout callback stands: not begun, past its tests, past setting `cancelled`. -/
inductive CbPc
  | handedOut
  | checked
  | flagged
  deriving DecidableEq

/-- What ends the process: an assertion of the event table, or undefined behaviour of the timer set. -/
inductive Crash
  | io (e : Fault)
  | timer
  deriving DecidableEq

/-- The process. `owned` says that a call still holds its `timer_info`; `flying` lists the timeout callbacks handed out and not finished; `generation` counts how often each descriptor number has been closed. -/
structure State where
  io : IomId → IOManager FiberId Empty
  timers : IomId → TimerManager TimerCb
  fdMgr : FdManager
  generation : ℕ → ℕ
  pc : FiberId → Pc
  nextCall : CallId
  owned : CallId → Bool
  cancelled : CallId → Bool
  flying : List (Timeout × CbPc)
  ready : List (IomId × ℕ × Report)
  log : List (Call × Return)

namespace State

def goto (s : State) (f : FiberId) (pc : Pc) : State := { s with pc := Function.update s.pc f pc }

def setIo (s : State) (i : IomId) (m : IOManager FiberId Empty) : State :=
  { s with io := Function.update s.io i m }

def setTimers (s : State) (i : IomId) (m : TimerManager TimerCb) : State :=
  { s with timers := Function.update s.timers i m }

/-- The call lets go of its `timer_info` and returns. -/
def finish (s : State) (f : FiberId) (c : Call) (r : Return) : State :=
  { s with owned := Function.update s.owned c.id false, log := s.log ++ [(c, r)] }.goto f .idle

/-- `weak_ptr::lock` on the call's `timer_info`: the call or a callback past its tests still holds it. -/
def locks (s : State) (id : CallId) : Bool :=
  s.owned id || s.flying.any fun entry => entry.1.winfo == id && entry.2 != .handedOut

/-- A new `do_io` or `connect_with_timeout`. -/
def newCall (s : State) (i : IomId) (request : Request) : Call :=
  { id := s.nextCall, iom := i, request := request, timeoutMs := -1, generation := s.generation request.fd }

end State

inductive Action
  /-- A fiber on an IO manager calls a hooked function. -/
  | begin (f : FiberId) (i : IomId) (request : Request)
  | lookup (f : FiberId)
  | raw (f : FiberId) (r : RawResult)
  | arm (f : FiberId) (a : Addr) (now : UInt64)
  | add (f : FiberId) (allow : Bool)
  | yield (f : FiberId)
  | resume (f : FiberId)
  | cancelTimer (f : FiberId)
  | check (f : FiberId)
  | soError (f : FiberId) (error : Option ℕ)
  /-- A fiber calls `close`; the thread may have no IO manager. -/
  | close (f : FiberId) (fd : ℕ) (i : Option IomId)
  | closeStep (f : FiberId) (allow : Bool)
  /-- `socket` or `accept` has returned a descriptor and tracks it. -/
  | track (fd : ℕ) (stat : FdCtx.Stat)
  | setTimeout (fd : ℕ) (type : TimeoutSo) (v : UInt64)
  | setUserNonblock (fd : ℕ) (v : Bool)
  /-- A worker's `listExpiredCb`. -/
  | expire (i : IomId) (now : UInt64) (probe : Addr)
  /-- A step of a timeout callback. -/
  | callback (j : ℕ) (allow : Bool)
  /-- Other code arms a timer. -/
  | otherTimer (i : IomId) (a : Addr) (ms : UInt64) (recurring : Bool) (now : UInt64)
  /-- A worker's `epoll_wait` and, report by report, its dispatch. -/
  | wait (i : IomId) (reports : List (ℕ × Report))
  | dispatch (j : ℕ) (allow : Bool)
  /-- Other code cancels an event. -/
  | cancelEvent (i : IomId) (fd : ℕ) (event : Event) (allow : Bool)
  deriving DecidableEq

/-- The path a call takes after `FdManager::get`. -/
def lookupStep (s : State) (f : FiberId) (c : Call) : State :=
  match c.request with
  | .doIo fd _ timeoutSo =>
    match s.fdMgr.get fd with
    | none => s.goto f (.direct c)
    | some ctx =>
      if ctx.isClosed then s.finish f c .EBADF
      else if !ctx.isSocket && ctx.userNonblock then s.goto f (.direct c)
      else s.goto f (.raw { c with timeoutMs := ctx.getTimeout timeoutSo })
  | .connect fd timeoutMs =>
    match s.fdMgr.get fd with
    | none => s.finish f c .EBADF
    | some ctx =>
      if ctx.isClosed then s.finish f c .EBADF
      else if !ctx.isSocket || ctx.userNonblock then s.goto f (.direct c)
      else s.goto f (.raw { c with timeoutMs := timeoutMs })

/-- What a tracked call does with the result of its raw operation: `do_io` repeats it on `EINTR`. -/
def rawStep (s : State) (f : FiberId) (c : Call) (r : RawResult) : State :=
  if r = .wouldBlock then s.goto f (.arming c)
  else if r = .EINTR ∧ c.request.isDoIo then s
  else s.finish f c (.raw r)

/-- `timer->cancel()`, if there is a timer. -/
def cancelTimer (s : State) (i : IomId) (timer : Option Addr) (next : State → State) : Outcome Crash State :=
  match timer with
  | none => .next (next s)
  | some a =>
    match (s.timers i).cancel a with
    | none => .abort .timer
    | some (_, m) => .next (next (s.setTimers i m))

/-- The test of `tinfo->cancelled` after a wake-up: `do_io` tries again, `connect_with_timeout` asks for the result. -/
def checkStep (s : State) (f : FiberId) (c : Call) : State :=
  if s.cancelled c.id then s.finish f c .ETIMEDOUT
  else if c.request.isDoIo then s.goto f (.raw c)
  else s.goto f (.soError c)

/-- An operation on the event table of a manager. -/
def ioStep {β : Type*} (r : Except Fault β) (next : β → State) : Outcome Crash State :=
  match r with
  | .ok b => .next (next b)
  | .error e => .abort (.io e)

/-- The timeouts among the callbacks of `listExpiredCb`; an empty function is not scheduled. -/
def timeouts (cbs : List (Option TimerCb)) : List Timeout :=
  cbs.filterMap fun cb => match cb with
    | some (.timeout t) => some t
    | _ => none

/-- A step of the timeout callback at place `j`: `lock` and the test of `cancelled`, the write of `cancelled`, `cancelEvent`. -/
def callbackStep (s : State) (j : ℕ) (t : Timeout) (allow : Bool) : CbPc → Outcome Crash State
  | .handedOut =>
    if s.locks t.winfo && !s.cancelled t.winfo then .next { s with flying := s.flying.set j (t, .checked) }
    else .next { s with flying := s.flying.eraseIdx j }
  | .checked =>
    .next { s with cancelled := Function.update s.cancelled t.winfo true, flying := s.flying.set j (t, .flagged) }
  | .flagged =>
    ioStep ((s.io t.iom).cancelEvent t.fd t.event allow) fun r =>
      { s with flying := s.flying.eraseIdx j }.setIo t.iom r.2

def closeStep (s : State) (f : FiberId) (allow : Bool) : Outcome Crash State :=
  match s.pc f with
  | .closeGet fd i => .next (s.goto f (if (s.fdMgr.get fd).isSome then .closeCancel fd i else .closeRaw fd))
  | .closeCancel fd none => .next (s.goto f (.closeDel fd))
  | .closeCancel fd (some i) => ioStep ((s.io i).cancelAll fd allow) fun r => (s.setIo i r.2).goto f (.closeDel fd)
  | .closeDel fd => .next ({ s with fdMgr := s.fdMgr.del fd }.goto f (.closeRaw fd))
  | .closeRaw fd =>
    .next ({ s with generation := Function.update s.generation fd (s.generation fd + 1) }.goto f .idle)
  | _ => .disabled

def step (s : State) : Action → Outcome Crash State
  | .begin f i request =>
    match s.pc f with
    | .idle =>
      .next ({ s with nextCall := s.nextCall + 1, owned := Function.update s.owned s.nextCall true }.goto f
        (.entered (s.newCall i request)))
    | _ => .disabled
  | .lookup f =>
    match s.pc f with
    | .entered c => .next (lookupStep s f c)
    | _ => .disabled
  | .raw f r =>
    match s.pc f with
    | .direct c => .next (s.finish f c (.raw r))
    | .raw c => .next (rawStep s f c r)
    | _ => .disabled
  | .arm f a now =>
    match s.pc f with
    | .arming c =>
      if c.timeoutMs = -1 then .next (s.goto f (.adding c none))
      else if ((s.timers c.iom).heap a).isNone then
        .next ((s.setTimers c.iom
          ((s.timers c.iom).addTimer a c.timeoutMs (some (.timeout c.timeout)) false now).2).goto f (.adding c (some a)))
      else .disabled
    | _ => .disabled
  | .add f allow =>
    match s.pc f with
    | .adding c timer =>
      ioStep ((s.io c.iom).addEvent c.request.fd c.request.event none ⟨some c.iom, f, true⟩ allow) fun r =>
        (s.setIo c.iom r.2).goto f (if r.1 = 0 then .yielding c timer else .failed c timer)
    | _ => .disabled
  | .yield f =>
    match s.pc f with
    | .yielding c timer => .next (s.goto f (.suspended c timer))
    | _ => .disabled
  | .resume f =>
    match s.pc f with
    | .suspended c timer =>
      let entry : SchedulerId × Task FiberId Empty := (c.iom, .fiber f)
      if entry ∈ (s.io c.iom).scheduled then
        .next ((s.setIo c.iom { s.io c.iom with scheduled := (s.io c.iom).scheduled.erase entry }).goto f
          (.woken c timer))
      else .disabled
    | _ => .disabled
  | .cancelTimer f =>
    match s.pc f with
    | .failed c timer => cancelTimer s c.iom timer fun s =>
        if c.request.isDoIo then s.finish f c .addEventFailed else s.goto f (.soError c)
    | .woken c timer => cancelTimer s c.iom timer fun s => s.goto f (.checking c)
    | _ => .disabled
  | .check f =>
    match s.pc f with
    | .checking c => .next (checkStep s f c)
    | _ => .disabled
  | .soError f error =>
    match s.pc f with
    | .soError c => .next (s.finish f c (.soError error))
    | _ => .disabled
  | .close f fd i =>
    match s.pc f with
    | .idle => .next (s.goto f (.closeGet fd i))
    | _ => .disabled
  | .closeStep f allow => closeStep s f allow
  | .track fd stat => .next { s with fdMgr := s.fdMgr.getOrCreate fd stat }
  | .setTimeout fd type v =>
    match s.fdMgr.get fd with
    | some ctx => .next { s with fdMgr := s.fdMgr.set fd (ctx.setTimeout type v) }
    | none => .disabled
  | .setUserNonblock fd v =>
    match s.fdMgr.get fd with
    | some ctx => .next { s with fdMgr := s.fdMgr.set fd { ctx with userNonblock := v } }
    | none => .disabled
  | .expire i now probe =>
    if ((s.timers i).heap probe).isNone then
      match (s.timers i).listExpiredCb now probe with
      | none => .abort .timer
      | some (cbs, m) =>
        .next ({ s with flying := s.flying ++ (timeouts cbs).map fun t => (t, CbPc.handedOut) }.setTimers i m)
    else .disabled
  | .callback j allow =>
    match s.flying[j]? with
    | some (t, pc) => callbackStep s j t allow pc
    | none => .disabled
  | .otherTimer i a ms recurring now =>
    if ((s.timers i).heap a).isNone then
      .next (s.setTimers i ((s.timers i).addTimer a ms (some .other) recurring now).2)
    else .disabled
  | .wait i reports =>
    if reports.all fun r => IOManager.mayReport (s.io i).epoll r.1 r.2 then
      .next { s with ready := s.ready ++ reports.map fun r => (i, r.1, r.2) }
    else .disabled
  | .dispatch j allow =>
    match s.ready[j]? with
    | some (i, fd, report) => ioStep ((s.io i).dispatch fd report allow) fun m =>
        { s with ready := s.ready.eraseIdx j }.setIo i m
    | none => .disabled
  | .cancelEvent i fd event allow =>
    ioStep ((s.io i).cancelEvent fd event allow) fun r => s.setIo i r.2

/-- Every manager new, the timer sets at some clock reading, and no call in progress. -/
def start (now : UInt64) : State where
  io := fun _ => IOManager.init
  timers := fun _ => TimerManager.init now
  fdMgr := FdManager.init
  generation := fun _ => 0
  pc := fun _ => .idle
  nextCall := 0
  owned := fun _ => false
  cancelled := fun _ => false
  flying := []
  ready := []
  log := []

end Awcotn.Hook
