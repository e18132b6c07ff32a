import Awcotn.Scheduler.Worker

/-!
# Control transfer on one thread

`call`, `back`, `swapIn` and `swapOut` of `fiber.cc` as one thread of a scheduler goes through them: a worker, or the thread that has constructed the scheduler with `use_caller`. A saved context says in whose stack code goes on and behind which switch, so that it can be told where a switch resumes. `swapIn` is called by `run` only, and `call` by `stop` only, on a root fiber in `INIT`. What other threads do with a fiber between two of its stays on this thread is one step.
-/

namespace Awcotn.Switching

open Transition
open Scheduler (FiberState)

abbrev FiberId := ℕ

/-- The thread's own stack, or the one that a fiber has allocated. -/
inductive Stack
  | thread
  | fiber (f : FiberId)
  deriving DecidableEq

/-- Where a context goes on. -/
inductive Point
  /-- At the start of `MainFunc` or `CallerMainFunc`. -/
  | entry
  /-- Behind a switch. -/
  | after (switch : ℕ)
  /-- Behind the last switch of `MainFunc` or `CallerMainFunc`. -/
  | last (switch : ℕ)
  deriving DecidableEq

structure Context where
  stack : Stack
  point : Point
  deriving DecidableEq

structure Fiber where
  m_state : FiberState
  use_caller : Bool
  m_ctx : Context
  deriving DecidableEq

inductive ThreadKind
  /-- `m_rootThread` -/
  | caller
  /-- A worker of a scheduler that has a root fiber, or has none. -/
  | worker (use_caller : Bool)
  deriving DecidableEq

/-- The fiber of the thread's own stack. -/
def main : FiberId := 0

/-- `m_rootFiber` -/
def root : FiberId := 1

inductive Fault
  /-- `AWCOTN_ASSERT(m_state != EXEC)` of `swapIn` -/
  | swapInExec
  /-- The two assertions of `reset` -/
  | resetLive
  /-- `AWCOTN_ASSERT2(false, "never reach ..")` -/
  | neverReach
  deriving DecidableEq

/-- The fibers and the three thread-local pointers. `here` is the context that has been resumed last; `entered` and `called` hold what `swapIn` and `call` have saved for the fibers that have not come back. -/
structure State where
  fibers : FiberId → Fiber
  nextFiber : FiberId
  t_fiber : FiberId
  t_threadFiber : FiberId
  t_scheduler_fiber : FiberId
  here : Context
  switches : ℕ
  started : Bool
  entered : FiberId → Option Context
  called : FiberId → Option Context

inductive Action
  | newFiber (use_caller : Bool)
  /-- `run` begins on the root fiber. -/
  | begin_
  /-- `run` swaps a fiber in. -/
  | swapIn (f : FiberId)
  /-- `run` sets a fiber that has come back to `HOLD`. -/
  | hold (f : FiberId)
  | reset (f : FiberId)
  /-- The code of a fiber, or that of the thread which constructed the scheduler, calls `swapOut` of some fiber. -/
  | swapOut (f : FiberId)
  | yieldToReady
  | yieldToHold
  /-- The function of a fiber returns. -/
  | finish
  | throw
  /-- `stop` calls the root fiber. -/
  | call
  /-- Other threads run a fiber that is not on this thread. -/
  | elsewhere (f : FiberId) (state : FiberState) (point : Point)
  deriving DecidableEq

namespace State

def setState (s : State) (f : FiberId) (state : FiberState) : State :=
  { s with fibers := Function.update s.fibers f { s.fibers f with m_state := state } }

def save (s : State) (f : FiberId) (ctx : Context) : State :=
  { s with fibers := Function.update s.fibers f { s.fibers f with m_ctx := ctx } }

/-- The fiber whose code executes. -/
def executing (s : State) : FiberId :=
  match s.here.stack with
  | .thread => s.t_threadFiber
  | .fiber f => f

/-- The fiber whose code executes has been left. -/
def left (s : State) : FiberId → Option Context :=
  match s.here.stack with
  | .thread => s.entered
  | .fiber f => Function.update s.entered f none

/-- `run` executes: on a worker's own stack, or on that of the root fiber. -/
def runs (kind : ThreadKind) (s : State) : Bool :=
  match s.here.stack with
  | .thread => kind ≠ .caller
  | .fiber f => f = root && s.started

/-- The program executes: the function of a fiber, or the code that has constructed the scheduler. -/
def programs (kind : ThreadKind) (s : State) : Bool :=
  match s.here.stack with
  | .thread => kind = .caller
  | .fiber f => f ≠ root

/-- A fiber that the program can have a pointer to. -/
def names (s : State) (f : FiberId) : Prop := f ≠ root ∧ f < s.nextFiber

instance (s : State) (f : FiberId) : Decidable (s.names f) := inferInstanceAs (Decidable (_ ∧ _))

end State

/-- `swapcontext(&save->m_ctx, &load->m_ctx)` -/
def swapcontext (s : State) (save load : FiberId) (point : ℕ → Point) : Outcome Fault State :=
  let s := s.save save ⟨s.here.stack, point s.switches⟩
  match (s.fibers load).m_ctx.point with
  | .last _ => .abort .neverReach
  | _ => .next { s with here := (s.fibers load).m_ctx, switches := s.switches + 1 }

def call (s : State) (f : FiberId) : Outcome Fault State :=
  let s := { s with t_fiber := f }
  let s := s.setState f .EXEC
  let s := { s with called := Function.update s.called f (some ⟨s.here.stack, .after s.switches⟩) }
  swapcontext s s.t_threadFiber f .after

/-- `back` at the end of `CallerMainFunc`. -/
def back (s : State) (f : FiberId) : Outcome Fault State :=
  let s := { s with t_fiber := s.t_threadFiber, entered := s.left, called := Function.update s.called f none }
  swapcontext s f s.t_threadFiber .last

def swapIn (s : State) (f : FiberId) : Outcome Fault State :=
  let s := { s with t_fiber := f }
  if (s.fibers f).m_state = .EXEC then .abort .swapInExec
  else
    let s := s.setState f .EXEC
    let s := { s with entered := Function.update s.entered f (some ⟨s.here.stack, .after s.switches⟩) }
    swapcontext s s.t_scheduler_fiber f .after

def swapOut (s : State) (f : FiberId) (point : ℕ → Point) : Outcome Fault State :=
  let s := { s with t_fiber := s.t_scheduler_fiber, entered := s.left }
  swapcontext s f s.t_scheduler_fiber point

def YieldToReady (s : State) : Outcome Fault State := swapOut (s.setState s.t_fiber .READY) s.t_fiber .after

def YieldToHold (s : State) : Outcome Fault State := swapOut (s.setState s.t_fiber .HOLD) s.t_fiber .after

/-- The end of `MainFunc`, or of `CallerMainFunc` where the fiber was made with `use_caller`, in the state that the function has left. -/
def MainFunc (s : State) (cur : FiberId) (state : FiberState) : Outcome Fault State :=
  if (s.fibers cur).use_caller then back (s.setState cur state) cur else swapOut (s.setState cur state) cur .last

/-- The function of the fiber whose stack executes comes to its end. -/
def ends (kind : ThreadKind) (s : State) (state : FiberState) : Outcome Fault State :=
  match s.here.stack with
  | .thread => .disabled
  | .fiber f => if s.programs kind ∨ s.runs kind then MainFunc s f state else .disabled

/-- `m_stack` is null for the thread's own fiber. -/
def reset (s : State) (f : FiberId) : Outcome Fault State :=
  if f ≠ main ∧ (s.fibers f).m_state.resettable then
    .next { s with fibers := Function.update s.fibers f ⟨.INIT, false, ⟨.fiber f, .entry⟩⟩ }
  else .abort .resetLive

def step (kind : ThreadKind) (s : State) : Action → Outcome Fault State
  | .newFiber use_caller =>
    let fiber : Fiber := ⟨.INIT, use_caller, ⟨.fiber s.nextFiber, .entry⟩⟩
    .next { s with fibers := Function.update s.fibers s.nextFiber fiber, nextFiber := s.nextFiber + 1 }
  | .begin_ =>
    if s.here.stack = .fiber root ∧ s.started = false then
      .next { s with started := true, t_scheduler_fiber := if kind = .caller then s.t_scheduler_fiber else s.t_fiber }
    else .disabled
  | .swapIn f => if s.runs kind ∧ s.names f then swapIn s f else .disabled
  | .hold f =>
    if s.runs kind ∧ s.names f ∧ f ≠ main ∧ (s.fibers f).m_state ≠ .READY ∧ (s.fibers f).m_state.dead = false then
      .next (s.setState f .HOLD)
    else .disabled
  | .reset f => if s.names f then reset s f else .disabled
  | .swapOut f => if s.programs kind ∧ s.names f then swapOut s f .after else .disabled
  | .yieldToReady => if s.programs kind then YieldToReady s else .disabled
  | .yieldToHold => if s.programs kind then YieldToHold s else .disabled
  | .finish => ends kind s .TERM
  | .throw => ends kind s .EXCEPT
  | .call =>
    if kind ≠ .worker false ∧ s.programs kind ∧ (s.fibers root).m_state = .INIT then call s root else .disabled
  | .elsewhere f state point =>
    if f ≠ main ∧ ¬ (kind = .caller ∧ f = root) ∧ f < s.nextFiber ∧ s.here.stack ≠ .fiber f ∧ s.entered f = none ∧
        (state = .INIT → point = .entry) then
      .next { s with fibers := Function.update s.fibers f { s.fibers f with m_state := state, m_ctx := ⟨.fiber f, point⟩ } }
    else .disabled

/-- The fiber that `t_scheduler_fiber` is set to: by the constructor, or at the beginning of `run`. -/
def ThreadKind.scheduler : ThreadKind → FiberId
  | .caller => root
  | .worker _ => main

/-- The caller's thread behind the constructor, or a worker at the beginning of `run`. -/
def start (kind : ThreadKind) : State where
  fibers := fun f => if f = main then ⟨.EXEC, false, ⟨.thread, .entry⟩⟩ else ⟨.INIT, true, ⟨.fiber f, .entry⟩⟩
  nextFiber := root + 1
  t_fiber := main
  t_threadFiber := main
  t_scheduler_fiber := kind.scheduler
  here := ⟨.thread, .entry⟩
  switches := 1
  started := false
  entered := fun _ => none
  called := fun _ => none

/-! ### What is to be shown -/

/-- The fiber that an action swaps out. -/
def swapsOut (kind : ThreadKind) (s : State) : Action → Option FiberId
  | .swapOut f => if s.programs kind ∧ s.names f then some f else none
  | .yieldToReady | .yieldToHold => if s.programs kind then some s.t_fiber else none
  | .finish | .throw =>
    match s.here.stack with
    | .thread => none
    | .fiber f => if (s.programs kind ∨ s.runs kind) ∧ (s.fibers f).use_caller = false then some f else none
  | _ => none

/-- The fiber that an action goes back from. -/
def goesBack (kind : ThreadKind) (s : State) : Action → Option FiberId
  | .finish | .throw =>
    match s.here.stack with
    | .thread => none
    | .fiber f => if (s.programs kind ∨ s.runs kind) ∧ (s.fibers f).use_caller = true then some f else none
  | _ => none

/-- The transfer of control as it should be: `GetThis` is the fiber that executes, a `swapOut` goes on behind the `swapIn` of its fiber and a `back` behind the `call` of its fiber, and the scheduler fiber's context stays while a fiber is swapped in. -/
structure Good (kind : ThreadKind) (s : State) (a : Action) : Prop where
  this : ∀ t, step kind s a = .next t → t.t_fiber = t.executing
  out : ∀ f, swapsOut kind s a = some f → ∃ t c, s.entered f = some c ∧ step kind s a = .next t ∧ t.here = c
  back : ∀ f, goesBack kind s a = some f → ∃ t c, s.called f = some c ∧ step kind s a = .next t ∧ t.here = c
  kept : ∀ f c, s.entered f = some c → ∀ t, step kind s a = .next t →
    (t.fibers s.t_scheduler_fiber).m_ctx = (s.fibers s.t_scheduler_fiber).m_ctx

/-- Fibers swap themselves out, code outside of fibers does not yield, only the root fiber ends with `back`, and `stop` calls it from outside of fibers. -/
def Disciplined (kind : ThreadKind) (s : State) : Action → Prop
  | .swapOut f => s.programs kind → s.names f → s.here.stack = .fiber f
  | .yieldToReady | .yieldToHold => s.programs kind → s.here.stack ≠ .thread
  | .finish | .throw => ∀ f, s.here.stack = .fiber f → f ≠ root → (s.fibers f).use_caller = false
  | .call => kind ≠ .worker false → s.programs kind → (s.fibers root).m_state = .INIT → s.here.stack = .thread
  | _ => True

/-! ### The invariant -/

/-- A context that code goes on from. -/
def Context.Live (c : Context) : Prop := ∀ n, c.point ≠ .last n

/-- The stack that `run` executes on. -/
def ThreadKind.stack : ThreadKind → Stack
  | .caller => .fiber root
  | .worker _ => .thread

/-- The thread-local pointers are as at the start, and every fiber but the thread's own has a context on its own stack. -/
structure Basic (kind : ThreadKind) (s : State) : Prop where
  threadFiber : s.t_threadFiber = main
  scheduler : s.t_scheduler_fiber = kind.scheduler
  own : ∀ f, f ≠ main → (s.fibers f).m_ctx.stack = .fiber f
  mainExec : (s.fibers main).m_state = .EXEC
  next : root < s.nextFiber
  rootCaller : (s.fibers root).use_caller = true
  fresh : (s.fibers root).m_state = .INIT → (s.fibers root).m_ctx.point = .entry

/-- In a run that is disciplined so far, code outside of fibers executes with the main fiber as `GetThis`, the root fiber's with its `call` saved in the main fiber, and a task's with its `swapIn` saved in the scheduler fiber. -/
structure Inv (kind : ThreadKind) (s : State) : Prop extends Basic kind s where
  this : s.t_fiber = s.executing
  rootHere : s.here.stack = .fiber root → kind = .caller
  entered : ∀ f c, s.entered f = some c → s.here.stack = .fiber f ∧ f ≠ main ∧ f ≠ root ∧ c.stack = kind.stack ∧ c.Live ∧
    (s.fibers kind.scheduler).m_ctx = c
  inside : ∀ f, s.here.stack = .fiber f → f ≠ root → ∃ c, s.entered f = some c
  called : ∀ f c, s.called f = some c → kind = .caller ∧ f = root ∧ c.stack = .thread ∧ c.Live ∧ (s.fibers main).m_ctx = c
  outside : kind = .caller → s.here.stack ≠ .thread → (∃ c, s.called root = some c) ∧ (s.fibers root).m_state = .EXEC

theorem inv_start (kind : ThreadKind) : Inv kind (start kind) where
  threadFiber := rfl
  scheduler := rfl
  own f hf := by simp [start, hf]
  mainExec := rfl
  next := Nat.lt_succ_self _
  rootCaller := rfl
  fresh _ := rfl
  this := rfl
  rootHere := nofun
  entered := nofun
  inside := nofun
  called := nofun
  outside _ h := absurd rfl h

/-! ### Reads after writes -/

section

variable (s : State) (f g : FiberId) (state : FiberState) (ctx : Context)

@[simp] theorem setState_ctx : ((s.setState f state).fibers g).m_ctx = (s.fibers g).m_ctx := by
  by_cases h : g = f <;> simp [State.setState, h]

@[simp] theorem setState_state : ((s.setState f state).fibers g).m_state = if g = f then state else (s.fibers g).m_state := by
  by_cases h : g = f <;> simp [State.setState, h]

@[simp] theorem setState_use_caller : ((s.setState f state).fibers g).use_caller = (s.fibers g).use_caller := by
  by_cases h : g = f <;> simp [State.setState, h]

@[simp] theorem save_ctx : ((s.save f ctx).fibers g).m_ctx = if g = f then ctx else (s.fibers g).m_ctx := by
  by_cases h : g = f <;> simp [State.save, h]

@[simp] theorem save_state : ((s.save f ctx).fibers g).m_state = (s.fibers g).m_state := by
  by_cases h : g = f <;> simp [State.save, h]

@[simp] theorem save_use_caller : ((s.save f ctx).fibers g).use_caller = (s.fibers g).use_caller := by
  by_cases h : g = f <;> simp [State.save, h]

end

/-! ### One switch -/

section

variable {kind : ThreadKind} {s t : State} {f save load : FiberId} {c : Context}

theorem swapcontext_eq (point : ℕ → Point) (hne : save ≠ load) (hload : (s.fibers load).m_ctx = c) (hlive : c.Live) :
    swapcontext s save load point =
      .next { s.save save ⟨s.here.stack, point s.switches⟩ with here := c, switches := s.switches + 1 } := by
  have hkept : ((s.save save ⟨s.here.stack, point s.switches⟩).fibers load).m_ctx = c := by
    simpa [State.save, Ne.symm hne] using hload
  simp only [swapcontext, hkept]
  split
  · rename_i n hlast
    exact absurd hlast (hlive n)
  · rfl

/-- A switch saves one context and goes on from another; it leaves everything else alone. -/
structure Jump (s t : State) (save load : FiberId) (ctx : Context) : Prop where
  ctx : ∀ g, (t.fibers g).m_ctx = if g = save then ctx else (s.fibers g).m_ctx
  state : ∀ g, (t.fibers g).m_state = (s.fibers g).m_state
  use_caller : ∀ g, (t.fibers g).use_caller = (s.fibers g).use_caller
  nextFiber : t.nextFiber = s.nextFiber
  t_fiber : t.t_fiber = s.t_fiber
  threadFiber : t.t_threadFiber = s.t_threadFiber
  scheduler : t.t_scheduler_fiber = s.t_scheduler_fiber
  here : t.here = (s.fibers load).m_ctx
  entered : t.entered = s.entered
  called : t.called = s.called

theorem swapcontext_jump (s : State) (save load : FiberId) (point : ℕ → Point) (hne : save ≠ load) (hlive : (s.fibers load).m_ctx.Live) :
    ∃ t, swapcontext s save load point = .next t ∧ Jump s t save load ⟨s.here.stack, point s.switches⟩ :=
  ⟨_, swapcontext_eq point hne rfl hlive,
    fun _ => save_ctx .., fun _ => save_state .., fun _ => save_use_caller .., rfl, rfl, rfl, rfl, rfl, rfl, rfl⟩

theorem live_of_next {point : ℕ → Point} (hne : save ≠ load) (h : swapcontext s save load point = .next t) :
    (s.fibers load).m_ctx.Live := by
  intro n hlast
  have hkept : ((s.save save ⟨s.here.stack, point s.switches⟩).fibers load).m_ctx.point = .last n := by
    rw [save_ctx, if_neg (Ne.symm hne), hlast]
  simp only [swapcontext, hkept] at h
  cases h

theorem jump_of_next {point : ℕ → Point} (hne : save ≠ load) (h : swapcontext s save load point = .next t) :
    Jump s t save load ⟨s.here.stack, point s.switches⟩ := by
  obtain ⟨u, hu, hjump⟩ := swapcontext_jump s save load point hne (live_of_next hne h)
  rw [h] at hu
  cases hu
  exact hjump

/-- The scheduler fiber is the thread's own or the root fiber. -/
theorem scheduler_ne (kind : ThreadKind) (hmain : f ≠ main) (hroot : f ≠ root) : kind.scheduler ≠ f := by
  cases kind with
  | caller => exact Ne.symm hroot
  | worker use_caller => exact Ne.symm hmain

/-- While `run` executes, no fiber is swapped in. -/
theorem Inv.of_runs (hs : Inv kind s) (h : s.runs kind = true) :
    s.here.stack = kind.stack ∧ ∀ f, s.entered f = none := by
  have hstack : s.here.stack = kind.stack := by
    simp only [State.runs] at h
    cases hhere : s.here.stack with
    | thread =>
        rw [hhere] at h
        cases kind with
        | caller => simp at h
        | worker use_caller => rfl
    | fiber f =>
        rw [hhere] at h
        obtain rfl : f = root := by simpa using (Bool.and_eq_true_iff.1 h).1
        rw [hs.rootHere hhere]
        rfl
  refine ⟨hstack, fun f => ?_⟩
  cases hf : s.entered f with
  | none => rfl
  | some c =>
      obtain ⟨hhere, hmain, hroot, -⟩ := hs.entered f c hf
      rw [hstack] at hhere
      cases kind with
      | caller => exact absurd (Stack.fiber.inj hhere).symm hroot
      | worker use_caller => cases hhere

/-- While the thread's own stack executes, no fiber is swapped in. -/
theorem Inv.of_thread (hs : Inv kind s) (h : s.here.stack = .thread) : ∀ f, s.entered f = none := by
  intro f
  cases hf : s.entered f with
  | none => rfl
  | some c =>
      rw [(hs.entered f c hf).1] at h
      cases h

/-- The write of a fiber's state and then a switch. -/
structure Turn (s t : State) (f : FiberId) (state : FiberState) (save load : FiberId) (ctx : Context) : Prop where
  ctx : ∀ g, (t.fibers g).m_ctx = if g = save then ctx else (s.fibers g).m_ctx
  state : ∀ g, (t.fibers g).m_state = if g = f then state else (s.fibers g).m_state
  use_caller : ∀ g, (t.fibers g).use_caller = (s.fibers g).use_caller
  nextFiber : t.nextFiber = s.nextFiber
  threadFiber : t.t_threadFiber = s.t_threadFiber
  scheduler : t.t_scheduler_fiber = s.t_scheduler_fiber
  here : t.here = (s.fibers load).m_ctx

theorem Jump.turn {u : State} {state : FiberState} {ctx : Context} (h : Jump u t save load ctx)
    (hfibers : u.fibers = (s.setState f state).fibers) (hnext : u.nextFiber = s.nextFiber)
    (hthread : u.t_threadFiber = s.t_threadFiber) (hscheduler : u.t_scheduler_fiber = s.t_scheduler_fiber) :
    Turn s t f state save load ctx where
  ctx g := by rw [h.ctx, hfibers, setState_ctx]
  state g := by rw [h.state, hfibers, setState_state]
  use_caller g := by rw [h.use_caller, hfibers, setState_use_caller]
  nextFiber := h.nextFiber.trans hnext
  threadFiber := h.threadFiber.trans hthread
  scheduler := h.scheduler.trans hscheduler
  here := by rw [h.here, hfibers, setState_ctx]

theorem Basic.turn (hs : Basic kind s) {state : FiberState} {ctx : Context} (h : Turn s t f state save load ctx)
    (hown : save ≠ main → ctx.stack = .fiber save) (hmain : f = main → state = .EXEC)
    (hfresh : (t.fibers root).m_state = .INIT → (t.fibers root).m_ctx.point = .entry) : Basic kind t where
  threadFiber := h.threadFiber.trans hs.threadFiber
  scheduler := h.scheduler.trans hs.scheduler
  own g hg := by
    rw [h.ctx]
    split_ifs with hsave
    · subst hsave
      exact hown hg
    · exact hs.own g hg
  mainExec := by
    rw [h.state]
    split_ifs with hf
    · exact hmain hf.symm
    · exact hs.mainExec
  next := h.nextFiber ▸ hs.next
  rootCaller := (h.use_caller root).trans hs.rootCaller
  fresh := hfresh

theorem inv_swapIn (hs : Inv kind s) (hruns : s.runs kind = true) (hf : s.names f) (h : swapIn s f = .next t) : Inv kind t := by
  obtain ⟨hstack, hentered⟩ := hs.of_runs hruns
  simp only [swapIn] at h
  split_ifs at h with hexec
  have hmain : f ≠ main := by
    rintro rfl
    exact hexec hs.mainExec
  have hsched := scheduler_ne kind hmain hf.1
  have hjump := jump_of_next (hs.scheduler ▸ hsched) h
  have hturn : Turn s t f .EXEC kind.scheduler f ⟨kind.stack, .after s.switches⟩ := by
    rw [← hs.scheduler, ← hstack]
    exact hjump.turn rfl rfl rfl rfl
  have hhere : t.here.stack = .fiber f := by rw [hturn.here, hs.own f hmain]
  have hnow : t.entered = Function.update s.entered f (some ⟨s.here.stack, .after s.switches⟩) := hjump.entered
  have hcalled : t.called = s.called := hjump.called
  have houtside : kind = .caller → (∃ c, s.called root = some c) ∧ (s.fibers root).m_state = .EXEC := by
    rintro rfl
    exact hs.outside rfl (by rw [hstack]; exact nofun)
  have hroot : (t.fibers root).m_state = (s.fibers root).m_state := by rw [hturn.state, if_neg (Ne.symm hf.1)]
  refine ⟨hs.toBasic.turn hturn (fun hsave => ?_) (fun heq => absurd heq hmain) fun hinit => ?_, ?_, fun heq => ?_,
    fun g c hg => ?_, fun g hg _ => ?_, fun g c hg => ?_, fun hkind _ => ?_⟩
  · cases kind with
    | caller => rfl
    | worker use_caller => exact absurd rfl hsave
  · rw [hroot] at hinit
    rw [hturn.ctx]
    split_ifs with heq
    · have hkind : kind = .caller := by
        cases kind with
        | caller => rfl
        | worker use_caller => exact absurd heq (show root ≠ main by decide)
      rw [(houtside hkind).2] at hinit
      cases hinit
    · exact hs.fresh hinit
  · rw [State.executing, hhere]
    exact hjump.t_fiber
  · rw [hhere] at heq
    exact absurd (Stack.fiber.inj heq) hf.1
  · rw [hnow] at hg
    by_cases hgf : g = f
    · subst hgf
      rw [Function.update_self] at hg
      cases hg
      exact ⟨hhere, hmain, hf.1, hstack, nofun, by rw [hturn.ctx, if_pos rfl, hstack]⟩
    · rw [Function.update_of_ne hgf, hentered] at hg
      cases hg
  · obtain rfl : f = g := Stack.fiber.inj (hhere.symm.trans hg)
    exact ⟨_, by rw [hnow, Function.update_self]⟩
  · obtain ⟨rfl, rfl, hthread, hlive, hsaved⟩ := hs.called g c (hcalled ▸ hg)
    exact ⟨rfl, rfl, hthread, hlive, by rw [hturn.ctx, if_neg (show main ≠ ThreadKind.caller.scheduler by decide), hsaved]⟩
  · rw [hcalled, hroot]
    exact houtside hkind

/-- A task that swaps itself out, in any state, goes on behind its `swapIn`. -/
theorem inv_swapOut (hs : Inv kind s) (hhere : s.here.stack = .fiber f) (hf : f ≠ root) (state : FiberState)
    (point : ℕ → Point) : ∃ t c, s.entered f = some c ∧ swapOut (s.setState f state) f point = .next t ∧ t.here = c ∧ Inv kind t ∧
      (t.fibers kind.scheduler).m_ctx = (s.fibers kind.scheduler).m_ctx ∧
      ∀ g, (t.fibers g).m_state = if g = f then state else (s.fibers g).m_state := by
  obtain ⟨c, hc⟩ := hs.inside f hhere hf
  obtain ⟨-, hmain, -, hstack, hlive, hsaved⟩ := hs.entered f c hc
  have hsched := scheduler_ne kind hmain hf
  have hload : ((s.setState f state).fibers s.t_scheduler_fiber).m_ctx = c := by rw [setState_ctx, hs.scheduler, hsaved]
  obtain ⟨t, hnext, hjump⟩ := swapcontext_jump { s.setState f state with
      t_fiber := s.t_scheduler_fiber, entered := (s.setState f state).left } f s.t_scheduler_fiber point
    (hs.scheduler ▸ Ne.symm hsched) (hload ▸ hlive)
  have hturn : Turn s t f state f s.t_scheduler_fiber ⟨.fiber f, point s.switches⟩ := by
    rw [← hhere]
    exact hjump.turn rfl rfl rfl rfl
  have hback : t.here = c := by rw [hturn.here, hs.scheduler, hsaved]
  have hnow : t.entered = Function.update s.entered f none := by
    rw [hjump.entered]
    simp only [State.left, State.setState, hhere]
  have hcalled : t.called = s.called := hjump.called
  have hroot : (t.fibers root).m_state = (s.fibers root).m_state := by rw [hturn.state, if_neg (Ne.symm hf)]
  have hkept : ∀ g, g ≠ f → (t.fibers g).m_ctx = (s.fibers g).m_ctx := fun g hg => by rw [hturn.ctx, if_neg hg]
  refine ⟨t, c, hc, hnext, hback, ⟨hs.toBasic.turn hturn (fun _ => rfl) (fun heq => absurd heq hmain) fun hinit => ?_, ?_,
    fun heq => ?_, fun g c' hg => ?_, fun g hg hne => ?_, fun g c' hg => ?_, fun hkind _ => ?_⟩, hkept _ hsched, hturn.state⟩
  · rw [hkept _ (Ne.symm hf)]
    exact hs.fresh (hroot ▸ hinit)
  · have hthis : t.t_fiber = s.t_scheduler_fiber := hjump.t_fiber
    rw [hthis, hs.scheduler, State.executing, hback, hstack, hturn.threadFiber, hs.threadFiber]
    cases kind <;> rfl
  · rw [hback, hstack] at heq
    cases kind with
    | caller => rfl
    | worker use_caller => cases heq
  · rw [hnow] at hg
    by_cases hgf : g = f
    · rw [hgf, Function.update_self] at hg
      cases hg
    · rw [Function.update_of_ne hgf] at hg
      have heq := (hs.entered g c' hg).1
      rw [hhere] at heq
      exact absurd (Stack.fiber.inj heq).symm hgf
  · rw [hback, hstack] at hg
    cases kind with
    | caller => exact absurd (Stack.fiber.inj hg).symm hne
    | worker use_caller => cases hg
  · obtain ⟨hkind, hg', hthread, hlive', hmainCtx⟩ := hs.called g c' (hcalled ▸ hg)
    exact ⟨hkind, hg', hthread, hlive', by rw [hkept _ (Ne.symm hmain), hmainCtx]⟩
  · rw [hcalled, hroot]
    exact hs.outside hkind (by rw [hhere]; exact nofun)

/-- The root fiber goes back behind its `call`. -/
theorem inv_back (hs : Inv kind s) (hhere : s.here.stack = .fiber root) {state : FiberState} (hstate : state ≠ .INIT) :
    ∃ t c, s.called root = some c ∧ back (s.setState root state) root = .next t ∧ t.here = c ∧ Inv kind t := by
  obtain rfl := hs.rootHere hhere
  obtain ⟨⟨c, hc⟩, -⟩ := hs.outside rfl (by rw [hhere]; exact nofun)
  obtain ⟨-, -, hthread, hlive, hsaved⟩ := hs.called root c hc
  have hne : root ≠ main := by decide
  have hload : ((s.setState root state).fibers s.t_threadFiber).m_ctx = c := by rw [setState_ctx, hs.threadFiber, hsaved]
  obtain ⟨t, hnext, hjump⟩ := swapcontext_jump { s.setState root state with
      t_fiber := s.t_threadFiber, entered := (s.setState root state).left, called := Function.update s.called root none }
    root s.t_threadFiber .last (hs.threadFiber ▸ hne) (hload ▸ hlive)
  have hturn : Turn s t root state root s.t_threadFiber ⟨.fiber root, .last s.switches⟩ := by
    rw [← hhere]
    exact hjump.turn rfl rfl rfl rfl
  have hback : t.here = c := by rw [hturn.here, hs.threadFiber, hsaved]
  have hnone : ∀ g, t.entered g = none := by
    intro g
    have hnow : t.entered = Function.update s.entered root none := by
      rw [hjump.entered]
      simp only [State.left, State.setState, hhere]
    rw [hnow]
    by_cases hg : g = root
    · rw [hg, Function.update_self]
    · rw [Function.update_of_ne hg]
      cases hentered : s.entered g with
      | none => rfl
      | some c' =>
          have heq := (hs.entered g c' hentered).1
          rw [hhere] at heq
          exact absurd (Stack.fiber.inj heq).symm hg
  have hcalled : t.called = Function.update s.called root none := hjump.called
  refine ⟨t, c, hc, hnext, hback, hs.toBasic.turn hturn (fun _ => rfl) (fun heq => absurd heq hne) fun hinit => ?_, ?_,
    fun _ => rfl, fun g c' hg => ?_, fun g hg _ => ?_, fun g c' hg => ?_, fun _ hout => ?_⟩
  · rw [hturn.state, if_pos rfl] at hinit
    exact absurd hinit hstate
  · have hthis : t.t_fiber = s.t_threadFiber := hjump.t_fiber
    rw [hthis, State.executing, hback, hthread, hturn.threadFiber]
  · rw [hnone g] at hg
    cases hg
  · rw [hback, hthread] at hg
    cases hg
  · rw [hcalled] at hg
    by_cases hgr : g = root
    · rw [hgr, Function.update_self] at hg
      cases hg
    · rw [Function.update_of_ne hgr] at hg
      exact absurd (hs.called g c' hg).2.1 hgr
  · exact absurd (hback ▸ hthread) hout

/-- A fresh root fiber can be called, and the call saves the caller in the thread's own fiber. -/
theorem call_jump (hs : Basic kind s) (hinit : (s.fibers root).m_state = .INIT) : ∃ t, call s root = .next t ∧
    Turn s t root .EXEC s.t_threadFiber root ⟨s.here.stack, .after s.switches⟩ := by
  have hlive : ((s.setState root .EXEC).fibers root).m_ctx.Live := by
    intro n
    rw [setState_ctx, hs.fresh hinit]
    exact nofun
  obtain ⟨t, hnext, hjump⟩ := swapcontext_jump { s.setState root .EXEC with
      t_fiber := root, called := Function.update s.called root (some ⟨s.here.stack, .after s.switches⟩) }
    s.t_threadFiber root .after (hs.threadFiber ▸ by decide) hlive
  exact ⟨t, hnext, hjump.turn rfl rfl rfl rfl⟩

/-- `stop` calls the root fiber from outside of fibers, where it has not run. -/
theorem inv_call (hs : Inv kind s) (hhere : s.here.stack = .thread) (hprograms : s.programs kind = true)
    (h : call s root = .next t) : Inv kind t := by
  obtain rfl : kind = .caller := by simpa [State.programs, hhere] using hprograms
  have hne : root ≠ main := by decide
  have hjump := jump_of_next (hs.threadFiber ▸ Ne.symm hne) h
  have hturn : Turn s t root .EXEC main root ⟨.thread, .after s.switches⟩ := by
    rw [← hs.threadFiber, ← hhere]
    exact hjump.turn rfl rfl rfl rfl
  have hstack : t.here.stack = .fiber root := by rw [hturn.here, hs.own root hne]
  have hnone : ∀ g, t.entered g = none := by
    intro g
    have hnow : t.entered = s.entered := hjump.entered
    rw [hnow, hs.of_thread hhere g]
  have hcalled : t.called = Function.update s.called root (some ⟨s.here.stack, .after s.switches⟩) := hjump.called
  have hexec : (t.fibers root).m_state = .EXEC := by rw [hturn.state, if_pos rfl]
  refine ⟨hs.toBasic.turn hturn (fun heq => absurd rfl heq) (fun heq => absurd heq hne) fun heq => ?_, ?_,
    fun _ => rfl, fun g c hg => ?_, fun g hg hroot => ?_, fun g c hg => ?_, fun _ _ => ⟨?_, hexec⟩⟩
  · rw [hexec] at heq
    cases heq
  · rw [State.executing, hstack]
    exact hjump.t_fiber
  · rw [hnone g] at hg
    cases hg
  · rw [hstack] at hg
    exact absurd (Stack.fiber.inj hg).symm hroot
  · rw [hcalled] at hg
    by_cases hgr : g = root
    · rw [hgr, Function.update_self] at hg
      cases hg
      exact ⟨rfl, hgr, hhere, nofun, by rw [hturn.ctx, if_pos rfl, hhere]⟩
    · rw [Function.update_of_ne hgr] at hg
      exact absurd (hs.called g c hg).2.1 hgr
  · exact ⟨_, by rw [hcalled, Function.update_self]⟩

/-! ### Steps without a switch -/

/-- A fiber that is not on this thread is written. -/
theorem Inv.update (hs : Inv kind s) {x : Fiber} {n : FiberId} (hn : s.nextFiber ≤ n) (hf : f ≠ main)
    (hstack : x.m_ctx.stack = .fiber f)
    (hroot : f = root → kind ≠ .caller ∧ x.use_caller = true ∧ (x.m_state = .INIT → x.m_ctx.point = .entry)) :
    Inv kind { s with fibers := Function.update s.fibers f x, nextFiber := n } := by
  have hmain : Function.update s.fibers f x main = s.fibers main := Function.update_of_ne (Ne.symm hf) _ _
  have hsched : Function.update s.fibers f x kind.scheduler = s.fibers kind.scheduler := by
    refine Function.update_of_ne (fun heq => ?_) _ _
    cases kind with
    | caller => exact (hroot heq.symm).1 rfl
    | worker use_caller => exact hf heq.symm
  have hcaller : kind = .caller → Function.update s.fibers f x root = s.fibers root := fun hkind =>
    Function.update_of_ne (fun heq => (hroot heq.symm).1 hkind) _ _
  refine ⟨⟨hs.threadFiber, hs.scheduler, fun g hg => ?_, ?_, Nat.lt_of_lt_of_le hs.next hn, ?_, fun hinit => ?_⟩, hs.this, hs.rootHere,
    fun g c hg => ?_, hs.inside, fun g c hg => ?_, fun hkind hout => ?_⟩
  · by_cases hgf : g = f
    · subst hgf
      simpa using hstack
    · simpa [hgf] using hs.own g hg
  · exact (congrArg Fiber.m_state hmain).trans hs.mainExec
  · by_cases hfr : f = root
    · subst hfr
      simpa using (hroot rfl).2.1
    · simpa [Ne.symm hfr] using hs.rootCaller
  · by_cases hfr : f = root
    · subst hfr
      simp only [Function.update_self] at hinit ⊢
      exact (hroot rfl).2.2 hinit
    · simp only [Function.update_of_ne (Ne.symm hfr)] at hinit ⊢
      exact hs.fresh hinit
  · obtain ⟨hhere, hgm, hgr, hc, hlive, hsaved⟩ := hs.entered g c hg
    exact ⟨hhere, hgm, hgr, hc, hlive, (congrArg Fiber.m_ctx hsched).trans hsaved⟩
  · obtain ⟨hkind, hgr, hc, hlive, hsaved⟩ := hs.called g c hg
    exact ⟨hkind, hgr, hc, hlive, (congrArg Fiber.m_ctx hmain).trans hsaved⟩
  · obtain ⟨hcalled, hexec⟩ := hs.outside hkind hout
    exact ⟨hcalled, (congrArg Fiber.m_state (hcaller hkind)).trans hexec⟩

/-- Who neither swaps nor calls goes on where it is, and leaves the scheduler fiber's context alone. -/
def stays : Action → Bool
  | .newFiber _ | .begin_ | .hold _ | .reset _ | .elsewhere .. => true
  | _ => false

theorem inv_stays (hs : Inv kind s) {a : Action} (ha : stays a = true) (h : step kind s a = .next t) :
    Inv kind t ∧ (t.fibers s.t_scheduler_fiber).m_ctx = (s.fibers s.t_scheduler_fiber).m_ctx := by
  have hupdate : ∀ (f : FiberId) (x : Fiber) (n : FiberId), s.nextFiber ≤ n → f ≠ main → x.m_ctx.stack = .fiber f →
      (f = root → kind ≠ .caller ∧ x.use_caller = true ∧ (x.m_state = .INIT → x.m_ctx.point = .entry)) →
      t = { s with fibers := Function.update s.fibers f x, nextFiber := n } →
      Inv kind t ∧ (t.fibers s.t_scheduler_fiber).m_ctx = (s.fibers s.t_scheduler_fiber).m_ctx := by
    rintro f x n hn hf hstack hroot rfl
    refine ⟨hs.update hn hf hstack hroot, ?_⟩
    have hne : s.t_scheduler_fiber ≠ f := by
      rw [hs.scheduler]
      rintro rfl
      cases kind with
      | caller => exact (hroot rfl).1 rfl
      | worker use_caller => exact hf rfl
    simp [hne]
  cases a with
  | newFiber use_caller =>
      cases h
      have hnext : 1 < s.nextFiber := hs.next
      have hmain : s.nextFiber ≠ main := fun heq => Nat.not_lt_zero _ (heq ▸ hnext)
      have hroot : s.nextFiber ≠ root := Nat.ne_of_gt hnext
      exact hupdate _ _ _ (Nat.le_succ _) hmain rfl (fun heq => absurd heq hroot) rfl
  | begin_ =>
      simp only [step] at h
      split_ifs at h with hbegin hkind
      · cases h
        exact ⟨⟨⟨hs.threadFiber, hs.scheduler, hs.own, hs.mainExec, hs.next, hs.rootCaller, hs.fresh⟩, hs.this, hs.rootHere, hs.entered,
          hs.inside, hs.called, hs.outside⟩, rfl⟩
      · exact absurd (hs.rootHere hbegin.1) hkind
  | hold f =>
      simp only [step] at h
      split_ifs at h with hok
      cases h
      exact hupdate f { s.fibers f with m_state := .HOLD } _ (Nat.le_refl _) hok.2.2.1 (hs.own f hok.2.2.1) (fun heq => absurd heq hok.2.1.1) rfl
  | reset f =>
      simp only [step, reset] at h
      split_ifs at h with hnames hok
      cases h
      exact hupdate f _ _ (Nat.le_refl _) hok.1 rfl (fun heq => absurd heq hnames.1) rfl
  | elsewhere f state point =>
      simp only [step] at h
      split_ifs at h with hok
      cases h
      refine hupdate f _ _ (Nat.le_refl _) hok.1 rfl (fun heq => ?_) rfl
      subst heq
      exact ⟨fun hkind => hok.2.1 ⟨hkind, rfl⟩, hs.rootCaller, hok.2.2.2.2.2⟩
  | _ => cases ha

/-! ### Whole runs -/

theorem programs_fiber (kind : ThreadKind) (hhere : s.here.stack = .fiber f) : s.programs kind = true ↔ f ≠ root := by
  simp [State.programs, hhere]

/-- A step goes well if the one state it leads to does. -/
theorem good_of_next {a : Action} (hnext : step kind s a = .next t) (hinv : Inv kind t)
    (hout : ∀ f, swapsOut kind s a = some f → s.entered f = some t.here)
    (hback : ∀ f, goesBack kind s a = some f → s.called f = some t.here)
    (hkept : ∀ f c, s.entered f = some c → (t.fibers s.t_scheduler_fiber).m_ctx = (s.fibers s.t_scheduler_fiber).m_ctx) :
    Good kind s a ∧ ∀ t, step kind s a = .next t → Inv kind t := by
  have huniq : ∀ u, step kind s a = .next u → u = t := fun u hu => Outcome.next.inj (hu.symm.trans hnext)
  refine ⟨⟨fun u hu => huniq u hu ▸ hinv.this, fun f hf => ⟨t, t.here, hout f hf, hnext, rfl⟩,
    fun f hf => ⟨t, t.here, hback f hf, hnext, rfl⟩, fun f c hc u hu => ?_⟩, fun u hu => huniq u hu ▸ hinv⟩
  rw [huniq u hu, hkept f c hc]

/-- A task swaps itself out: by `swapOut`, by one of the two yields, or at its end. -/
theorem good_swapOut (hs : Inv kind s) {a : Action} (state : FiberState) (point : ℕ → Point) (hhere : s.here.stack = .fiber f)
    (hf : f ≠ root) (hstep : step kind s a = swapOut (s.setState f state) f point) (hout : ∀ g, swapsOut kind s a = some g → g = f)
    (hback : goesBack kind s a = none) : Good kind s a ∧ ∀ t, step kind s a = .next t → Inv kind t := by
  obtain ⟨t, c, hc, hnext, rfl, hinv, hkept, -⟩ := inv_swapOut hs hhere hf state point
  refine good_of_next (hstep.trans hnext) hinv (fun g hg => ?_) (fun g hg => ?_) fun g c' hg => ?_
  · rw [hout g hg, hc]
  · rw [hback] at hg
    cases hg
  · rw [hs.scheduler, hkept]

/-- A step that swaps nothing out and goes back from nothing. -/
theorem good_of_none {a : Action} (hout : swapsOut kind s a = none) (hback : goesBack kind s a = none)
    (hstep : ∀ t, step kind s a = .next t → Inv kind t ∧ ((∀ f, s.entered f = none) ∨
      (t.fibers s.t_scheduler_fiber).m_ctx = (s.fibers s.t_scheduler_fiber).m_ctx)) :
    Good kind s a ∧ ∀ t, step kind s a = .next t → Inv kind t := by
  refine ⟨⟨fun t ht => (hstep t ht).1.this, fun g hg => ?_, fun g hg => ?_, fun g c hg t ht => ?_⟩, fun t ht => (hstep t ht).1⟩
  · rw [hout] at hg
    cases hg
  · rw [hback] at hg
    cases hg
  · rcases (hstep t ht).2 with hnone | hkept
    · rw [hnone g] at hg
      cases hg
    · exact hkept

theorem good_swapIn (hs : Inv kind s) (f : FiberId) : Good kind s (.swapIn f) ∧
    ∀ t, step kind s (.swapIn f) = .next t → Inv kind t := by
  refine good_of_none rfl rfl fun t h => ?_
  simp only [step] at h
  split_ifs at h with hok
  exact ⟨inv_swapIn hs hok.1 hok.2 h, .inl (hs.of_runs hok.1).2⟩

theorem good_call (hs : Inv kind s) (hd : Disciplined kind s .call) : Good kind s .call ∧
    ∀ t, step kind s .call = .next t → Inv kind t := by
  refine good_of_none rfl rfl fun t h => ?_
  simp only [step] at h
  split_ifs at h with hok
  have hhere := hd hok.1 hok.2.1 hok.2.2
  exact ⟨inv_call hs hhere hok.2.1 h, .inl (hs.of_thread hhere)⟩

theorem good_yield (hs : Inv kind s) {a : Action} (state : FiberState)
    (hstep : step kind s a = if s.programs kind then swapOut (s.setState s.t_fiber state) s.t_fiber .after else .disabled)
    (hout : swapsOut kind s a = if s.programs kind then some s.t_fiber else none) (hback : goesBack kind s a = none)
    (hd : s.programs kind → s.here.stack ≠ .thread) : Good kind s a ∧ ∀ t, step kind s a = .next t → Inv kind t := by
  by_cases hprograms : s.programs kind = true
  · rw [if_pos hprograms] at hstep hout
    cases hhere : s.here.stack with
    | thread => exact absurd hhere (hd hprograms)
    | fiber f =>
        have hthis : s.t_fiber = f := by rw [hs.this, State.executing, hhere]
        rw [hthis] at hstep hout
        exact good_swapOut hs state .after hhere ((programs_fiber kind hhere).1 hprograms) hstep
          (fun g hg => (Option.some.inj (hout.symm.trans hg)).symm) hback
  · rw [if_neg hprograms] at hstep hout
    refine good_of_none hout hback fun t h => ?_
    rw [hstep] at h
    cases h

/-- The root fiber comes to its end. -/
theorem good_back (hs : Inv kind s) {a : Action} (state : FiberState) (hhere : s.here.stack = .fiber root)
    (hstep : step kind s a = ends kind s state) (hout : swapsOut kind s a = swapsOut kind s .finish)
    (hback : goesBack kind s a = goesBack kind s .finish) (hstate : state ≠ .INIT) :
    Good kind s a ∧ ∀ t, step kind s a = .next t → Inv kind t := by
  have hcaller := hs.rootCaller
  have hprograms : s.programs kind = false := by simp [State.programs, hhere]
  have hnoOut : swapsOut kind s a = none := by
    rw [hout]
    simp [swapsOut, hhere, hcaller]
  by_cases hruns : s.runs kind = true
  · have hends : step kind s a = back (s.setState root state) root := by
      rw [hstep]
      simp [ends, hhere, hprograms, hruns, MainFunc, hcaller]
    obtain ⟨t, c, hc, hnext, rfl, hinv⟩ := inv_back hs hhere hstate
    refine good_of_next (hends.trans hnext) hinv (fun g hg => ?_) (fun g hg => ?_) fun g c' hg => ?_
    · rw [hnoOut] at hg
      cases hg
    · rw [hback] at hg
      obtain rfl : root = g := by simpa [goesBack, hhere, hcaller, hprograms, hruns] using hg
      exact hc
    · obtain ⟨hsame, -, hroot, -⟩ := hs.entered g c' hg
      rw [hhere] at hsame
      exact absurd (Stack.fiber.inj hsame).symm hroot
  · have hnoBack : goesBack kind s a = none := by
      rw [hback]
      simp [goesBack, hhere, hprograms, hruns]
    refine good_of_none hnoOut hnoBack fun t h => ?_
    rw [hstep] at h
    simp [ends, hhere, hprograms, hruns] at h

theorem good_ends (hs : Inv kind s) {a : Action} (state : FiberState) (hstep : step kind s a = ends kind s state)
    (hout : swapsOut kind s a = swapsOut kind s .finish) (hback : goesBack kind s a = goesBack kind s .finish)
    (hstate : state ≠ .INIT) (hd : ∀ f, s.here.stack = .fiber f → f ≠ root → (s.fibers f).use_caller = false) :
    Good kind s a ∧ ∀ t, step kind s a = .next t → Inv kind t := by
  cases hhere : s.here.stack with
  | thread =>
      have hnoOut : swapsOut kind s a = none := by
        rw [hout]
        simp [swapsOut, hhere]
      have hnoBack : goesBack kind s a = none := by
        rw [hback]
        simp [goesBack, hhere]
      refine good_of_none hnoOut hnoBack fun t h => ?_
      simp only [hstep, ends, hhere] at h
      cases h
  | fiber f =>
      by_cases hf : f = root
      · exact good_back hs state (hf ▸ hhere) hstep hout hback hstate
      · have hcaller := hd f hhere hf
        have hprograms := (programs_fiber kind hhere).2 hf
        refine good_swapOut hs state .last hhere hf ?_ (fun g hg => ?_) ?_
        · rw [hstep]
          simp [ends, hhere, hprograms, MainFunc, hcaller]
        · rw [hout] at hg
          have heq : f = g := by simpa [swapsOut, hhere, hprograms, hcaller] using hg
          exact heq.symm
        · rw [hback]
          simp [goesBack, hhere, hcaller]

theorem good_of_disciplined (hs : Inv kind s) {a : Action} (hd : Disciplined kind s a) :
    Good kind s a ∧ ∀ t, step kind s a = .next t → Inv kind t := by
  have hstays : stays a = true → swapsOut kind s a = none → goesBack kind s a = none →
      Good kind s a ∧ ∀ t, step kind s a = .next t → Inv kind t := fun ha hout hback =>
    good_of_none hout hback fun t h => ⟨(inv_stays hs ha h).1, .inr (inv_stays hs ha h).2⟩
  cases a with
  | newFiber use_caller | begin_ | hold f | reset f | elsewhere f state point => exact hstays rfl rfl rfl
  | swapIn f => exact good_swapIn hs f
  | call => exact good_call hs hd
  | swapOut f =>
      by_cases hok : s.programs kind = true ∧ s.names f
      · have hself : s.setState f (s.fibers f).m_state = s := by simp [State.setState]
        refine good_swapOut hs (s.fibers f).m_state .after (hd hok.1 hok.2) hok.2.1 ?_ (fun g hg => ?_) rfl
        · rw [hself]
          exact if_pos hok
        · have heq : f = g := by simpa [swapsOut, hok] using hg
          exact heq.symm
      · refine good_of_none (if_neg hok) rfl fun t h => ?_
        simp only [step, if_neg hok] at h
        cases h
  | yieldToReady => exact good_yield hs .READY rfl rfl rfl hd
  | yieldToHold => exact good_yield hs .HOLD rfl rfl rfl hd
  | finish => exact good_ends hs .TERM rfl rfl rfl (by decide) hd
  | throw => exact good_ends hs .EXCEPT rfl rfl rfl (by decide) hd

/-- A step out of the discipline goes wrong at once. -/
theorem disciplined_of_good (hs : Inv kind s) {a : Action} (h : Good kind s a) : Disciplined kind s a := by
  have hends : goesBack kind s a = goesBack kind s .finish →
      ∀ f, s.here.stack = .fiber f → f ≠ root → (s.fibers f).use_caller = false := by
    intro hback f hhere hf
    by_contra hcaller
    have hgo : goesBack kind s a = some f := by
      rw [hback]
      simp [goesBack, hhere, (programs_fiber kind hhere).2 hf, hcaller]
    obtain ⟨t, c, hc, -⟩ := h.back f hgo
    exact hf (hs.called f c hc).2.1
  have hyield : swapsOut kind s a = (if s.programs kind then some s.t_fiber else none) →
      s.programs kind → s.here.stack ≠ .thread := by
    intro hout hprograms hhere
    have hthis : s.t_fiber = main := by rw [hs.this, State.executing, hhere, hs.threadFiber]
    obtain ⟨t, c, hc, -⟩ := h.out s.t_fiber (by rw [hout, if_pos hprograms])
    exact (hs.entered _ c hc).2.1 hthis
  cases a with
  | newFiber use_caller | begin_ | hold f | reset f | elsewhere f state point | swapIn f => trivial
  | swapOut f =>
      intro hprograms hnames
      obtain ⟨t, c, hc, -⟩ := h.out f (if_pos ⟨hprograms, hnames⟩)
      exact (hs.entered f c hc).1
  | yieldToReady | yieldToHold => exact hyield rfl
  | finish | throw => exact hends rfl
  | call =>
      intro hkind hprograms hinit
      by_contra hout
      cases hhere : s.here.stack with
      | thread => exact hout hhere
      | fiber f =>
          have hf : f ≠ root := (programs_fiber kind hhere).1 hprograms
          obtain ⟨c, hc⟩ := hs.inside f hhere hf
          cases kind with
          | caller =>
              have hexec := (hs.outside rfl hout).2
              rw [hinit] at hexec
              cases hexec
          | worker use_caller =>
              obtain ⟨t, hnext, hjump⟩ := call_jump hs.toBasic hinit
              have hstep : step (.worker use_caller) s .call = .next t := (if_pos ⟨hkind, hprograms, hinit⟩).trans hnext
              obtain ⟨-, -, -, hstack, -, hsaved⟩ := hs.entered f c hc
              have hsched : s.t_scheduler_fiber = s.t_threadFiber := hs.scheduler.trans hs.threadFiber.symm
              have hkept : ⟨s.here.stack, .after s.switches⟩ = c := by
                rw [← hsaved, ← hs.scheduler, ← h.kept f c hc t hstep, hjump.ctx, if_pos hsched]
              rw [← hkept, hhere] at hstack
              cases hstack

/-- Control is transferred as it should be in exactly the runs in which fibers swap themselves out, code outside of fibers does not yield, fibers made with `use_caller` are not swapped in to their end, and `stop` is not called in a task that runs on a worker. -/
theorem good_iff_disciplined (kind : ThreadKind) (acts : List Action) :
    Along (step kind) (Good kind) (start kind) acts ↔ Along (step kind) (Disciplined kind) (start kind) acts :=
  (along_congr_of_along (fun _ _ t hs hd h => (good_of_disciplined hs hd).2 t h)
    (fun _ _ hs => ⟨fun hd => (good_of_disciplined hs hd).1, disciplined_of_good hs⟩) (inv_start kind) acts).symm

/-- A task on a worker that calls `stop`, whose assertion `run` has made true there, overwrites the context that its `swapIn` has saved. -/
theorem scheduler_context_overwritten :
    ¬ ∀ acts : List Action, Along (step (.worker true)) (Good (.worker true)) (start (.worker true)) acts := by
  intro h
  have halong := h ([.newFiber false, .swapIn 2] ++ [.call])
  obtain ⟨s, hrun⟩ : ∃ s, run (step (.worker true)) (start (.worker true)) [.newFiber false, .swapIn 2] = .next s := ⟨_, rfl⟩
  have hgood := along_singleton.1 ((along_append hrun).1 halong).2
  cases hrun
  have hkept := hgood.kept 2 _ rfl _ rfl
  exact absurd hkept (by decide)

/-! ### The steps of a worker -/

variable {C : Type*} {u u' : Scheduler.State C} {name : Scheduler.FiberId → FiberId} {w : Scheduler.ThreadId} {k : Scheduler.Kind}
  {x : Scheduler.FiberId}

/-- The fibers of the scheduler's model have the same states here, under the names they have here. -/
def SameStates (name : Scheduler.FiberId → FiberId) (s : State) (u : Scheduler.State C) : Prop :=
  ∀ x, (s.fibers (name x)).m_state = (u.fibers x).state

theorem SameStates.set (h : SameStates name s u) (hname : Function.Injective name) {state : FiberState}
    (ht : ∀ g, (t.fibers g).m_state = if g = name x then state else (s.fibers g).m_state)
    (hu : ∀ y, (u'.fibers y).state = if y = x then state else (u.fibers y).state) : SameStates name t u' := by
  intro y
  rw [ht, hu]
  by_cases heq : y = x
  · rw [if_pos heq, if_pos (congrArg name heq)]
  · rw [if_neg heq, if_neg fun hsame => heq (hname hsame), h y]

theorem state_setState (u : Scheduler.State C) (x : Scheduler.FiberId) (state : FiberState) (y : Scheduler.FiberId) :
    ((u.setState x state).fibers y).state = if y = x then state else (u.fibers y).state := by
  by_cases heq : y = x <;> simp [Scheduler.State.setState, heq]

/-- The three steps of `swapIn` in the scheduler's model take a fiber to where the one here takes it. -/
theorem swapIn_sameStates {workers : Finset Scheduler.ThreadId} (hw : w ∈ workers) (hs : Inv kind s) (hname : Function.Injective name)
    (hstates : SameStates name s u) (hpc : u.pc w = .swapIn k x) (hruns : s.runs kind = true) (hnames : s.names (name x))
    (hexec : (u.fibers x).state ≠ .EXEC) (hlive : (s.fibers (name x)).m_ctx.Live) :
    ∃ t u', step kind s (.swapIn (name x)) = .next t ∧ t.here.stack = .fiber (name x) ∧
      run (Scheduler.step workers) u [.run w, .run w, .run w] = .next u' ∧ u'.pc w = .running k x ∧ SameStates name t u' := by
  have hexec' : (s.fibers (name x)).m_state ≠ .EXEC := hstates x ▸ hexec
  have hmain : name x ≠ main := by
    intro heq
    exact hexec' (heq ▸ hs.mainExec)
  have hsched : s.t_scheduler_fiber ≠ name x := by
    rw [hs.scheduler]
    exact scheduler_ne kind hmain hnames.1
  have hload : ((s.setState (name x) .EXEC).fibers (name x)).m_ctx.Live := by
    rw [setState_ctx]
    exact hlive
  obtain ⟨t, hnext, hjump⟩ := swapcontext_jump { s.setState (name x) .EXEC with
      t_fiber := name x, entered := Function.update s.entered (name x) (some ⟨s.here.stack, .after s.switches⟩) }
    s.t_scheduler_fiber (name x) .after hsched hload
  have hturn : Turn s t (name x) .EXEC s.t_scheduler_fiber (name x) ⟨s.here.stack, .after s.switches⟩ :=
    hjump.turn rfl rfl rfl rfl
  have hstep : step kind s (.swapIn (name x)) = .next t := by
    rw [← hnext]
    simp only [step, if_pos (show s.runs kind = true ∧ s.names (name x) from ⟨hruns, hnames⟩), swapIn, if_neg hexec']
    rfl
  -- the assertion, the write of the state, the switch
  have hasserted : Scheduler.step workers u (.run w) = .next (u.goto w (.checked k x)) := by
    simp [Scheduler.step, hw, Scheduler.runStep, hpc, hexec]
  have hwritten : Scheduler.step workers (u.goto w (.checked k x)) (.run w) =
      .next (((u.goto w (.checked k x)).setState x .EXEC).goto w (.entering k x)) := by
    simp [Scheduler.step, hw, Scheduler.runStep, Scheduler.State.goto]
  have hentered : Scheduler.step workers (((u.goto w (.checked k x)).setState x .EXEC).goto w (.entering k x)) (.run w) =
      .next ((((u.goto w (.checked k x)).setState x .EXEC).goto w (.entering k x)).goto w (.running k x)) := by
    simp [Scheduler.step, hw, Scheduler.runStep, Scheduler.State.goto]
  refine ⟨t, (((u.goto w (.checked k x)).setState x .EXEC).goto w (.entering k x)).goto w (.running k x), hstep,
    by rw [hturn.here, hs.own _ hmain], ?_, ?_, hstates.set hname hturn.state fun y => ?_⟩
  · rw [run_cons_of_next _ hasserted, run_cons_of_next _ hwritten, run_cons_of_next _ hentered, run_nil]
  · simp [Scheduler.State.goto]
  · exact state_setState u x .EXEC y

/-- The action by which a fiber's code leaves it. -/
def ofExit (f : FiberId) : Scheduler.Exit → Action
  | .yieldToHold => .yieldToHold
  | .yieldToReady => .yieldToReady
  | .finish => .finish
  | .throw => .throw
  | .swapOut => .swapOut f

/-- The fiber states that a fiber's code leaves in the scheduler's model are those that it leaves here. -/
theorem exit_sameStates (hs : Inv kind s) (hname : Function.Injective name) (hstates : SameStates name s u)
    (hpc : u.pc w = .running k x) (hhere : s.here.stack = .fiber (name x)) (hnames : s.names (name x))
    (hcaller : (s.fibers (name x)).use_caller = false) {how : Scheduler.Exit} (hexit : Scheduler.exitStep u w how = .next u') :
    ∃ t, step kind s (ofExit (name x) how) = .next t ∧ SameStates name t u' := by
  have hprograms := (programs_fiber kind hhere).2 hnames.1
  have hthis : s.t_fiber = name x := by rw [hs.this, State.executing, hhere]
  have hleft : ∀ (state : FiberState) (point : ℕ → Point),
      step kind s (ofExit (name x) how) = swapOut (s.setState (name x) state) (name x) point →
      (∀ y, (u'.fibers y).state = if y = x then state else (u.fibers y).state) →
      ∃ t, step kind s (ofExit (name x) how) = .next t ∧ SameStates name t u' := by
    intro state point hstep hu
    obtain ⟨t, -, -, hnext, -, -, -, ht⟩ := inv_swapOut hs hhere hnames.1 state point
    exact ⟨t, hstep.trans hnext, hstates.set hname ht hu⟩
  simp only [Scheduler.exitStep, hpc] at hexit
  by_cases hcb : how ≠ .throw ∧ (u.fibers x).cb.isNone
  · rw [if_pos hcb] at hexit
    cases hexit
  rw [if_neg hcb] at hexit
  cases how with
  | yieldToHold =>
      cases hexit
      refine hleft .HOLD .after ?_ (state_setState u x .HOLD)
      simp [ofExit, step, hprograms, YieldToHold, hthis]
  | yieldToReady =>
      cases hexit
      refine hleft .READY .after ?_ (state_setState u x .READY)
      simp [ofExit, step, hprograms, YieldToReady, hthis]
  | finish =>
      cases hexit
      refine hleft .TERM .last ?_ fun y => ?_
      · simp [ofExit, step, ends, hhere, hprograms, MainFunc, hcaller]
      · by_cases heq : y = x <;> simp [Scheduler.State.setFiber, Scheduler.State.goto, heq]
  | throw =>
      cases hexit
      refine hleft .EXCEPT .last ?_ (state_setState u x .EXCEPT)
      simp [ofExit, step, ends, hhere, hprograms, MainFunc, hcaller]
  | swapOut =>
      simp only at hexit
      split_ifs at hexit
      cases hexit
      refine hleft (u.fibers x).state .after ?_ fun y => ?_
      · rw [← hstates x]
        simp [ofExit, step, hprograms, hnames, State.setState]
      · by_cases heq : y = x <;> simp [Scheduler.State.goto, heq]

end

end Awcotn.Switching
