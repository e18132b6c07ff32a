import Awcotn.Scheduler.Steps

/-!
# The life of a fiber

`run` on any number of workers together with `stop`, which runs one of them on the root fiber. A fiber is entered by `swapIn`, and the root fiber by `call`; once its function has returned or thrown it leaves for good, and a switch to its context would go on past its last `swapOut` or `back`, into the assertion that this is never reached.

`swapIn` asserts only that the fiber is not in `EXEC`, and `call` asserts nothing. What keeps finished fibers out is elsewhere: `run` tests a queued fiber before it swaps it in, resets the callback fiber, and tests its idle fiber for `TERM`; `stop` tests `stopping()`.
-/

namespace Awcotn.Lifecycle

open Transition Process Scheduler

/-- Where a thread stands in `Scheduler::stop`. -/
inductive StopPc
  | none
  /-- `m_autoStop = true` and the test of the root fiber are next. -/
  | called
  /-- Without other workers: `m_stopping = true` is next. -/
  | early
  | earlyCheck
  /-- The assertion on the caller and `m_stopping = true` are next. -/
  | marking
  | check
  /-- `m_rootFiber->call()` is next. -/
  | calling
  | rootRunning
  /-- `thrs.swap(m_threads)` is next. -/
  | swapping
  /-- The threads taken are joined. -/
  | joining (mine : Bool)
  deriving DecidableEq

/-- A scheduler with its workers and its root fiber. `stop` is for calls from outside `run` and `taskStop` for those a task makes. `finished` is not in the source: whether the context of a fiber is past its last `swapOut`. -/
structure State (C : Type*) where
  sched : Scheduler.State C
  finished : FiberId → Bool
  root : FiberState
  autoStop : Bool
  stopping : Bool
  taken : Bool
  stop : ThreadId → StopPc
  taskStop : ThreadId → StopPc

inductive Fault
  | sched (e : Scheduler.Fault)
  /-- `AWCOTN_ASSERT` on `GetThis()` in `stop` -/
  | wrongThread
  /-- `AWCOTN_ASSERT2(false, "never reach ...")` -/
  | neverReach
  /-- A task has called the root fiber. Its `run` goes on in the middle, or starts on another worker's thread; what comes of it is not modelled. -/
  | calledByTask
  deriving DecidableEq

inductive Action (C : Type*)
  /-- A step of `run`, of fiber code, or of whoever schedules. -/
  | sched (a : Scheduler.Action C)
  | callStop (t : ThreadId) (inTask : Bool)
  /-- A thread takes its next step in `stop`. `quiet` is what `stopping()` asks beyond `Scheduler::stopping`: an `IOManager` has no timer and no event pending. -/
  | stop (t : ThreadId) (inTask quiet : Bool)
  deriving DecidableEq

variable {C : Type*}

namespace State

def setStop (s : State C) (t : ThreadId) (inTask : Bool) (pc : StopPc) : State C :=
  if inTask then { s with taskStop := Function.update s.taskStop t pc }
  else { s with stop := Function.update s.stop t pc }

def stopPc (s : State C) (t : ThreadId) (inTask : Bool) : StopPc := if inTask then s.taskStop t else s.stop t

/-- `Scheduler::stopping` -/
def schedulerStopping (s : State C) : Bool :=
  s.autoStop && s.stopping && s.sched.queue.isEmpty && s.sched.activeThreadCount == 0

end State

/-- The threads that `start` creates, where `root` is the one that runs the root fiber. -/
def started (workers : Finset ThreadId) (root : Option ThreadId) : Finset ThreadId :=
  workers.filter fun w => root ≠ some w

/-- What a write to a fiber's state says of its context: `makecontext` comes with `INIT`, and a finished function with `TERM` or `EXCEPT`. -/
def finishedAfter (finished : FiberId → Bool) : Option (FiberId × FiberState) → FiberId → Bool
  | some (f, .INIT) => Function.update finished f false
  | some (f, .TERM) | some (f, .EXCEPT) => Function.update finished f true
  | _ => finished

/-- The thread of the root fiber runs `run` only inside `call`, and a task that is in `stop` does nothing else. -/
def mayStep (root : Option ThreadId) (s : State C) : Scheduler.Action C → Bool
  | .run w | .exit w _ | .register w => (root != some w || s.root == .EXEC) && s.taskStop w == .none
  | _ => true

/-- The step switches to the context of a finished fiber. -/
def resumesFinished (s : State C) : Scheduler.Action C → Bool
  | .run w =>
    match s.sched.pc w with
    | .entering _ f => s.finished f
    | _ => false
  | _ => false

/-- The next step of `Scheduler::stop`. -/
def stopStep (workers : Finset ThreadId) (root : Option ThreadId) (s : State C) (t : ThreadId) (inTask quiet : Bool) :
    Outcome Fault (State C) :=
  match s.stopPc t inTask with
  | .none => .disabled
  | .called =>
    let early := root.isSome ∧ started workers root = ∅ ∧ (s.root = .TERM ∨ s.root = .INIT)
    .next ({ s with autoStop := true }.setStop t inTask (if early then .early else .marking))
  | .early => .next ({ s with stopping := true }.setStop t inTask .earlyCheck)
  | .earlyCheck => .next (s.setStop t inTask (if quiet && s.schedulerStopping then .none else .marking))
  | .marking =>
    if root.isSome = (inTask || root == some t) then
      .next ({ s with stopping := true }.setStop t inTask (if root.isSome then .check else .swapping))
    else .abort .wrongThread
  | .check => .next (s.setStop t inTask (if quiet && s.schedulerStopping then .swapping else .calling))
  | .calling =>
    if s.root.dead then .abort .neverReach
    else if inTask then .abort .calledByTask
    else .next ({ s with root := .EXEC }.setStop t inTask .rootRunning)
  | .rootRunning =>
    match s.sched.pc t with
    | .exited => .next ({ s with root := .TERM }.setStop t inTask .swapping)
    | _ => .disabled
  | .swapping => .next ({ s with taken := true }.setStop t inTask (.joining !s.taken))
  | .joining mine =>
    if mine = false ∨ ∀ w ∈ started workers root, hasExited (s.sched.pc w) then .next (s.setStop t inTask .none)
    else .disabled
where
  /-- `run` has returned. -/
  hasExited : Pc C → Bool
    | .exited => true
    | _ => false

def step (workers : Finset ThreadId) (root : Option ThreadId) (s : State C) : Action C → Outcome Fault (State C)
  | .sched a =>
    if mayStep root s a then
      if resumesFinished s a then .abort .neverReach
      else
        match Scheduler.step workers s.sched a with
        | .next sched => .next { s with sched := sched, finished := finishedAfter s.finished (writes s.sched a) }
        | .abort e => .abort (.sched e)
        | .disabled => .disabled
    else .disabled
  | .callStop t true =>
    match s.sched.pc t with
    | .running .. =>
      if t ∈ workers ∧ (root ≠ some t ∨ s.root = .EXEC) ∧ s.taskStop t = .none then .next (s.setStop t true .called)
      else .disabled
    | _ => .disabled
  | .callStop t false =>
    if t ∉ started workers root ∧ s.stop t = .none then .next (s.setStop t false .called) else .disabled
  | .stop t inTask quiet => stopStep workers root s t inTask quiet

/-- The workers about to run, and the root fiber not yet called. -/
def start (workers : Finset ThreadId) (idleCb : C) : State C where
  sched := Scheduler.start workers idleCb
  finished := fun _ => false
  root := .INIT
  autoStop := false
  stopping := false
  taken := false
  stop := fun _ => .none
  taskStop := fun _ => .none

/-! ### What is to be shown -/

/-- The states in which a fiber may be entered. -/
def enterable : FiberState → Bool
  | .INIT | .HOLD | .READY => true
  | _ => false

/-- A fiber that this step enters, by the write of `EXEC` in `swapIn` or in `call`, is `INIT`, `HOLD` or `READY`. -/
def EntersLive (s : State C) : Action C → Prop
  | .sched (.run w) => ∀ kind f, s.sched.pc w = .checked kind f → enterable (s.sched.fibers f).state
  | .stop t inTask _ => s.stopPc t inTask = .calling → enterable s.root
  | _ => True

/-- The fiber that a worker is about to swap in, having tested or reset it. -/
def awaits : Pc C → Option FiberId
  | .swapIn _ f | .checked _ f => some f
  | _ => none

/-- The fiber whose code a worker has switched to or is about to. -/
def active : Pc C → Option FiberId
  | .entering _ f | .running _ f => some f
  | _ => none

/-- The fiber that a worker has put in `EXEC`. An idle function may leave its fiber so. -/
def executing : Pc C → Option FiberId
  | .entering _ f | .running _ f | .leaving .idle f | .counted .idle f | .hold .idle f => some f
  | _ => none

/-- What the life of a fiber depends on. No fiber finishes while another worker is past its test of it; no fiber is put in `EXEC` while another worker has it in `EXEC`; `HOLD` is not written over the state of a finished fiber; no idle function has thrown; and `stop` calls the root fiber once, and not from a task. -/
def Orderly (s : State C) : Action C → Prop
  | .sched (.exit w how) => how = .finish ∨ how = .throw →
      ∀ kind f, s.sched.pc w = .running kind f → ∀ v, v ≠ w → awaits (s.sched.pc v) ≠ some f
  | .sched (.run w) =>
    match s.sched.pc w with
    | .checked _ f => ∀ v, v ≠ w → executing (s.sched.pc v) ≠ some f
    | .hold _ f => (s.sched.fibers f).state.dead = false
    | .noTask => (s.sched.fibers (s.sched.idleFiber w)).state ≠ .EXCEPT
    | _ => True
  | .stop t inTask _ => s.stopPc t inTask = .calling → inTask = false ∧ s.root = .INIT
  | _ => True

/-! ### The invariant -/

/-- A fiber in `EXEC` is with a worker; a fiber that a worker awaits has not finished; a finished fiber is in `TERM` or `EXCEPT`, and no worker is in it; and no two workers are in one fiber. -/
structure LifeInv (s : State C) : Prop where
  exec : ∀ f, (s.sched.fibers f).state = .EXEC → ∃ w, executing (s.sched.pc w) = some f
  awaited : ∀ w f, awaits (s.sched.pc w) = some f → (s.sched.fibers f).state.dead = false
  finished : ∀ f, s.finished f = true → (s.sched.fibers f).state.dead = true
  live : ∀ w f, active (s.sched.pc w) = some f → s.finished f = false
  apart : Apart active s.sched.pc

theorem lifeInv_start (workers : Finset ThreadId) (idleCb : C) : LifeInv (start workers idleCb) where
  exec := nofun
  awaited := nofun
  finished := nofun
  live := nofun
  apart := nofun

theorem executing_of_active {pc : Pc C} {f : FiberId} (h : active pc = some f) : executing pc = some f := by
  cases pc with
  | entering kind g | running kind g => exact h
  | _ => cases h

section

variable {workers : Finset ThreadId} {root : Option ThreadId} {s : State C} {t : Scheduler.State C} {w : ThreadId}

/-- A fiber that is not written stays finished or not. -/
theorem finishedAfter_of_notWritten {finished : FiberId → Bool} {write : Option (FiberId × FiberState)} {f : FiberId}
    (h : ∀ state, write ≠ some (f, state)) : finishedAfter finished write f = finished f := by
  cases write with
  | none => rfl
  | some entry =>
      obtain ⟨g, state⟩ := entry
      have hne : f ≠ g := by
        rintro rfl
        exact h state rfl
      cases state <;> simp [finishedAfter, Function.update_of_ne hne]

theorem written_of_notWritten {write : Option (FiberId × FiberState)} {f : FiberId}
    (h : ∀ state, write ≠ some (f, state)) (state : FiberState) : written write f state = state := by
  cases write with
  | none => rfl
  | some entry =>
      obtain ⟨g, new⟩ := entry
      have hne : f ≠ g := by
        rintro rfl
        exact h new rfl
      simp [written, hne]

@[simp] theorem written_self (f : FiberId) (new state : FiberState) : written (some (f, new)) f state = new := by
  simp [written]

/-- What keeps the invariant when worker `w` moves to a point and a fiber is written. -/
structure Moves (s : State C) (write : Option (FiberId × FiberState)) (w : ThreadId) (point : Pc C) : Prop where
  exec : ∀ f, written write f (s.sched.fibers f).state = .EXEC →
    executing (s.sched.pc w) = some f ∨ write = some (f, .EXEC) → executing point = some f
  dead : ∀ f state, write = some (f, state) → state.dead = true →
    active (s.sched.pc w) = some f ∧ active point = none ∧ ∀ v, v ≠ w → awaits (s.sched.pc v) ≠ some f
  awaited : ∀ f, awaits point = some f → (written write f (s.sched.fibers f).state).dead = false
  unfinished : ∀ f state, write = some (f, state) → state.dead = false → state = .INIT ∨ s.finished f = false
  live : ∀ f, active point = some f → s.finished f = false ∧
    (active (s.sched.pc w) = some f ∨ ∀ v, v ≠ w → active (s.sched.pc v) ≠ some f)

theorem LifeInv.move (hs : LifeInv s) {write : Option (FiberId × FiberState)} {point : Pc C}
    (hstate : ∀ f, (t.fibers f).state = written write f (s.sched.fibers f).state)
    (hpc : t.pc = Function.update s.sched.pc w point) (hmoves : Moves s write w point) :
    LifeInv { s with sched := t, finished := finishedAfter s.finished write } where
  exec := by
    intro f hf
    have hf' : written write f (s.sched.fibers f).state = .EXEC := (hstate f).symm.trans hf
    show ∃ v, executing (t.pc v) = some f
    rw [hpc]
    by_cases hw : executing (s.sched.pc w) = some f ∨ write = some (f, .EXEC)
    · exact ⟨w, by rw [Function.update_self]; exact hmoves.exec f hf' hw⟩
    · rw [not_or] at hw
      have hnot : ∀ state, write ≠ some (f, state) := by
        rintro state rfl
        rw [written_self] at hf'
        exact hw.2 (by rw [hf'])
      rw [written_of_notWritten hnot] at hf'
      obtain ⟨v, hv⟩ := hs.exec f hf'
      have hvw : v ≠ w := by
        rintro rfl
        exact hw.1 hv
      exact ⟨v, by rwa [Function.update_of_ne hvw]⟩
  awaited := by
    intro v f hv
    show (t.fibers f).state.dead = false
    rw [hstate]
    change awaits (t.pc v) = some f at hv
    rw [hpc] at hv
    by_cases hvw : v = w
    · subst hvw
      rw [Function.update_self] at hv
      exact hmoves.awaited f hv
    · rw [Function.update_of_ne hvw] at hv
      by_cases hwritten : ∃ state, write = some (f, state)
      · obtain ⟨state, rfl⟩ := hwritten
        rw [written_self]
        by_contra hdead
        exact (hmoves.dead f state rfl (by simpa using hdead)).2.2 v hvw hv
      · rw [written_of_notWritten (not_exists.1 hwritten)]
        exact hs.awaited v f hv
  finished := by
    intro f hf
    change finishedAfter s.finished write f = true at hf
    show (t.fibers f).state.dead = true
    rw [hstate]
    by_cases hwritten : ∃ state, write = some (f, state)
    · obtain ⟨state, rfl⟩ := hwritten
      rw [written_self]
      by_contra hnot
      have hdead : state.dead = false := by simpa using hnot
      rcases hmoves.unfinished f state rfl hdead with rfl | hfalse
      · simp [finishedAfter] at hf
      · cases state <;> simp_all [finishedAfter, FiberState.dead]
    · rw [finishedAfter_of_notWritten (not_exists.1 hwritten)] at hf
      rw [written_of_notWritten (not_exists.1 hwritten)]
      exact hs.finished f hf
  live := by
    intro v f hv
    change active (t.pc v) = some f at hv
    show finishedAfter s.finished write f = false
    rw [hpc] at hv
    have hbefore : s.finished f = false := by
      by_cases hvw : v = w
      · subst hvw
        rw [Function.update_self] at hv
        exact (hmoves.live f hv).1
      · rw [Function.update_of_ne hvw] at hv
        exact hs.live v f hv
    by_cases hwritten : ∃ state, write = some (f, state)
    · obtain ⟨state, rfl⟩ := hwritten
      cases hdead : state.dead with
      | false => cases state <;> simp_all [finishedAfter, FiberState.dead]
      | true =>
          obtain ⟨hown, hnone, -⟩ := hmoves.dead f state rfl hdead
          by_cases hvw : v = w
          · subst hvw
            rw [Function.update_self, hnone] at hv
            cases hv
          · rw [Function.update_of_ne hvw] at hv
            exact absurd (hs.apart v w f hv hown) hvw
    · rw [finishedAfter_of_notWritten (not_exists.1 hwritten), hbefore]
  apart := by
    show Apart active t.pc
    rw [hpc]
    exact hs.apart.update fun f hf => (hmoves.live f hf).2

/-- A step that moves no worker and writes at most a new fiber. -/
theorem Moves.stay (hs : LifeInv s) {write : Option (FiberId × FiberState)}
    (hwrite : ∀ f state, write = some (f, state) → state = .INIT) (w : ThreadId) : Moves s write w (s.sched.pc w) where
  exec := by
    rintro f - (hown | hexec)
    · exact hown
    · cases hwrite f _ hexec
  dead := by
    intro f state hstate hdead
    obtain rfl := hwrite f state hstate
    cases hdead
  awaited := by
    intro f hf
    by_cases hwritten : ∃ state, write = some (f, state)
    · obtain ⟨state, rfl⟩ := hwritten
      obtain rfl := hwrite f state rfl
      rw [written_self]
      rfl
    · rw [written_of_notWritten (not_exists.1 hwritten)]
      exact hs.awaited w f hf
  unfinished := fun f state hstate _ => .inl (hwrite f state hstate)
  live := fun f hf => ⟨hs.live w f hf, .inl hf⟩

/-- Fiber code leaves, and nobody else is past its test of the fiber if it has finished. -/
theorem Moves.exit (hs : LifeInv s) {kind : Kind} {f : FiberId} {how : Exit} (hpc : s.sched.pc w = .running kind f)
    (hkind : how = .swapOut → kind = .idle) (horderly : Orderly s (.sched (.exit w how))) :
    Moves s (writes s.sched (.exit w how)) w (.leaving kind f) where
  exec := by
    intro g hg hw
    have hgf : g = f := by
      rcases hw with hown | hexec
      · rw [hpc] at hown
        exact (Option.some.inj hown).symm
      · cases how <;> simp [writes, hpc, Exit.state] at hexec
    subst hgf
    cases how with
    | swapOut =>
        rw [hkind rfl]
        rfl
    | _ => simp [writes, hpc, Exit.state] at hg
  dead := by
    intro g state hwrite hdead
    have hgf : f = g ∧ how.state = some state := by
      cases how <;> simp_all [writes, Exit.state]
    obtain ⟨rfl, hstate⟩ := hgf
    refine ⟨by rw [hpc]; rfl, rfl, horderly ?_ kind f hpc⟩
    cases how with
    | finish => exact .inl rfl
    | throw => exact .inr rfl
    | yieldToHold | yieldToReady =>
        cases hstate
        cases hdead
    | swapOut => cases hstate
  awaited := nofun
  unfinished := by
    intro g state hwrite hdead
    have hgf : f = g := by
      cases how <;> simp_all [writes, Exit.state]
    subst hgf
    exact .inr (hs.live w f (by rw [hpc]; rfl))
  live := nofun

/-- A worker keeps the fiber it has in `EXEC` until it writes `HOLD` or has read that the fiber has finished. -/
theorem next_executing {sched : Scheduler.State C} {before point : Pc C} (h : Next sched w before point) {f : FiberId}
    (hf : executing before = some f) : executing point = some f ∨ (∃ kind, before = .hold kind f) ∨
      (∃ kind, before = .counted kind f ∧ (sched.fibers f).state.dead = true) := by
  cases h with
  | enter kind g => exact .inl hf
  | backIdle g => exact .inl hf
  | read kind g =>
      cases kind with
      | idle =>
          obtain rfl : g = f := Option.some.inj hf
          cases hdead : (sched.fibers g).state.dead with
          | true => exact .inr (.inr ⟨.idle, rfl, rfl⟩)
          | false => exact .inl (by simp [bookkeeping, hdead, executing])
      | _ => cases hf
  | held kind g hkind =>
      cases kind with
      | idle => exact absurd rfl hkind
      | _ => cases hf
  | heldIdle g =>
      obtain rfl : g = f := Option.some.inj hf
      exact .inr (.inl ⟨.idle, rfl⟩)
  | back kind g hkind =>
      cases kind with
      | idle => exact absurd rfl hkind
      | _ => cases hf
  | _ => cases hf

theorem next_active {sched : Scheduler.State C} {before point : Pc C} (h : Next sched w before point) {f : FiberId}
    (hf : active point = some f) : active before = some f ∨ ∃ kind, before = .checked kind f := by
  cases h with
  | exec kind g =>
      obtain rfl : g = f := Option.some.inj hf
      exact .inr ⟨kind, rfl⟩
  | enter kind g => exact .inl hf
  | read kind g =>
      cases kind <;> simp only [bookkeeping] at hf <;> (repeat' split at hf) <;> cases hf
  | _ => cases hf

/-- A worker awaits a fiber that it has tested, that it has reset or created, or that is its idle fiber and not in `TERM`. -/
theorem run_awaits {sched : Scheduler.State C} (h : runStep sched w = .next t) {f : FiberId}
    (hf : awaits (t.pc w) = some f) :
    writes sched (.run w) = some (f, .INIT) ∨ (writes sched (.run w) = none ∧
      (awaits (sched.pc w) = some f ∨ (sched.fibers f).state.dead = false ∨
        (sched.pc w = .noTask ∧ f = sched.idleFiber w ∧ (sched.fibers f).state ≠ .TERM))) := by
  obtain ⟨point, hrun⟩ := runStep_eq_next h
  have hpoint : t.pc w = point := by rw [hrun.pc, Function.update_self]
  rw [hpoint] at hf
  have hnext := hrun.next
  cases hpc : sched.pc w with
  | picked ft =>
      simp only [runStep, hpc, Outcome.next.injEq] at h
      subst h
      simp only [writes, hpc]
      simp only [branch] at hpoint
      split at hpoint
      · rename_i g hg
        have hcreates : createsCb sched w ft = false := by simp [createsCb, hg]
        obtain ⟨-, hlive⟩ := Option.filter_eq_some_iff.1 hg
        simp only [State.goto, Function.update_self] at hpoint
        subst hpoint
        obtain rfl : g = f := Option.some.inj hf
        exact .inr ⟨by simp [hcreates], .inr (.inl (by simpa using hlive))⟩
      · rename_i hnone
        split at hpoint
        · rename_i c hc
          split at hpoint
          · rename_i g hg
            simp only [State.goto, Function.update_self] at hpoint
            subst hpoint
            cases hf
          · rename_i hcbFiber
            have hcreates : createsCb sched w ft = true := by simp [createsCb, hnone, hc, hcbFiber]
            simp only [State.goto, Function.update_self] at hpoint
            subst hpoint
            obtain rfl : sched.nextFiber = f := Option.some.inj hf
            exact .inl (by simp [hcreates])
        · simp only [State.goto, Function.update_self] at hpoint
          subst hpoint
          cases hf
  | noTask =>
      simp only [runStep, hpc] at h
      split at h
      · cases h
        simp only [State.goto, Function.update_self] at hpoint
        subst hpoint
        cases hf
      · rename_i hterm
        cases h
        simp only [State.goto, Function.update_self] at hpoint
        subst hpoint
        obtain rfl : sched.idleFiber w = f := Option.some.inj hf
        exact .inr ⟨by simp [writes, hpc], .inr (.inr ⟨rfl, rfl, hterm⟩)⟩
  | initing g cb =>
      rw [hpc] at hnext
      cases hnext with
      | init g c =>
          obtain rfl : g = f := Option.some.inj hf
          exact .inl (by simp [writes, hpc])
      | cleared g => cases hf
  | swapIn kind g =>
      rw [hpc] at hnext
      cases hnext with
      | check kind g => exact .inr ⟨by simp [writes, hpc], .inl hf⟩
  | counted kind g =>
      rw [hpc] at hnext
      cases hnext with
      | read kind g =>
          cases kind <;> simp only [bookkeeping] at hf <;> (repeat' split at hf) <;> cases hf
  | _ =>
      rw [hpc] at hnext
      cases hnext <;> cases hf

/-- A step of `run` keeps the invariant where it is orderly. -/
theorem Moves.run (hs : LifeInv s) (h : runStep s.sched w = .next t) (horderly : Orderly s (.sched (.run w))) :
    Moves s (writes s.sched (.run w)) w (t.pc w) := by
  obtain ⟨point, hrun⟩ := runStep_eq_next h
  have hpoint : t.pc w = point := by rw [hrun.pc, Function.update_self]
  have hunfinished : ∀ f, (s.sched.fibers f).state.dead = false → s.finished f = false := by
    intro f hlive
    by_contra hfinished
    have := hs.finished f (by simpa using hfinished)
    simp [hlive] at this
  refine ⟨?_, ?_, ?_, ?_, ?_⟩
  · rw [hpoint]
    rintro f hexec (hown | hwrite)
    · rcases next_executing hrun.next hown with hkeeps | ⟨kind, hhold⟩ | ⟨kind, hcounted, hdead⟩
      · exact hkeeps
      · simp [writes, hhold] at hexec
      · simp only [writes, hcounted, written] at hexec
        simp [hexec, FiberState.dead] at hdead
    · obtain hinit | ⟨-, kind, hpc⟩ | ⟨hhold, -⟩ := writes_run hwrite
      · cases hinit
      · have hnext := hrun.next
        rw [hpc] at hnext
        cases hnext with
        | exec kind g => rfl
      · cases hhold
  · intro f state hwrite hdead
    obtain rfl | ⟨rfl, -⟩ | ⟨rfl, -⟩ := writes_run hwrite <;> cases hdead
  · intro f hf
    obtain hwrite | ⟨hwrite, hbefore | hlive | ⟨hpc, rfl, hterm⟩⟩ := run_awaits h hf
    · rw [hwrite, written_self]
      rfl
    · rw [hwrite]
      exact hs.awaited w f hbefore
    · rw [hwrite]
      exact hlive
    · rw [hwrite]
      simp only [Orderly, hpc] at horderly
      show ((s.sched.fibers (s.sched.idleFiber w)).state).dead = false
      cases hstate : (s.sched.fibers (s.sched.idleFiber w)).state <;> simp_all [FiberState.dead]
  · intro f state hwrite _
    obtain rfl | ⟨rfl, kind, hpc⟩ | ⟨rfl, kind, hpc⟩ := writes_run hwrite
    · exact .inl rfl
    · exact .inr (hunfinished f (hs.awaited w f (by rw [hpc]; rfl)))
    · simp only [Orderly, hpc] at horderly
      exact .inr (hunfinished f horderly)
  · rw [hpoint]
    intro f hf
    rcases next_active hrun.next hf with hactive | ⟨kind, hpc⟩
    · exact ⟨hs.live w f hactive, .inl hactive⟩
    · simp only [Orderly, hpc] at horderly
      refine ⟨hunfinished f (hs.awaited w f (by rw [hpc]; rfl)), .inr fun v hv hactive => ?_⟩
      exact horderly v hv (executing_of_active hactive)

/-! ### Runs -/

theorem exit_kind {sched : Scheduler.State C} {how : Exit} (h : exitStep sched w how = .next t) {kind : Kind}
    {f : FiberId} (hpc : sched.pc w = .running kind f) (hhow : how = .swapOut) : kind = .idle := by
  subst hhow
  simp only [exitStep, hpc] at h
  split at h
  · cases h
  · split at h
    · assumption
    · cases h

theorem sched_lifeInv (hs : LifeInv s) {a : Scheduler.Action C} (horderly : Orderly s (.sched a))
    (h : Scheduler.step workers s.sched a = .next t) :
    LifeInv { s with sched := t, finished := finishedAfter s.finished (writes s.sched a) } := by
  have hstate := step_state h
  cases a with
  | run w =>
      obtain ⟨-, h⟩ := step_run_eq_next h
      obtain ⟨point, hrun⟩ := runStep_eq_next h
      have hpoint : t.pc w = point := by rw [hrun.pc, Function.update_self]
      exact hs.move hstate (hpoint ▸ hrun.pc) (Moves.run hs h horderly)
  | exit w how =>
      obtain ⟨-, h⟩ := step_exit_eq_next h
      obtain ⟨kind, f, hpc, hgoto, -⟩ := exitStep_eq_next h
      exact hs.move hstate hgoto (Moves.exit hs hpc (exit_kind h hpc) horderly)
  | schedule ft | newFiber cb | register w | trigger i =>
      have hpc := (step_eq_next_of_worker_eq_none h rfl).1
      refine hs.move hstate (w := 0) (by rw [hpc, Function.update_eq_self]) (Moves.stay hs (fun f state hwrite => ?_) 0)
      simp_all [writes]

/-- `stop` leaves the fibers of the workers alone. -/
theorem stopStep_frame {u : State C} {v : ThreadId} {inTask quiet : Bool}
    (h : stopStep workers root s v inTask quiet = .next u) : u.sched = s.sched ∧ u.finished = s.finished := by
  have hset : ∀ (x : State C) pc, (x.setStop v inTask pc).sched = x.sched ∧ (x.setStop v inTask pc).finished = x.finished := by
    intro x pc
    simp only [State.setStop]
    split <;> exact ⟨rfl, rfl⟩
  simp only [stopStep] at h
  split at h
  · cases h
  · cases h
    exact hset _ _
  · cases h
    exact hset _ _
  · cases h
    exact hset _ _
  · split at h
    · cases h
      exact hset _ _
    · cases h
  · cases h
    exact hset _ _
  · split at h
    · cases h
    · split at h
      · cases h
      · cases h
        exact hset _ _
  · split at h
    · cases h
      exact hset _ _
    · cases h
  · cases h
    exact hset _ _
  · split at h
    · cases h
      exact hset _ _
    · cases h

theorem LifeInv.frame (hs : LifeInv s) {u : State C} (hframe : u.sched = s.sched ∧ u.finished = s.finished) :
    LifeInv u := by
  obtain ⟨hsched, hfinished⟩ := hframe
  exact ⟨hsched ▸ hs.exec, hsched ▸ hs.awaited, by rw [hsched, hfinished]; exact hs.finished,
    by rw [hsched, hfinished]; exact hs.live, hsched ▸ hs.apart⟩

theorem step_lifeInv (hs : LifeInv s) {a : Action C} {u : State C} (horderly : Orderly s a)
    (h : step workers root s a = .next u) : LifeInv u := by
  cases a with
  | sched a =>
      simp only [step] at h
      split at h
      · split at h
        · cases h
        · split at h
          · rename_i t ht
            cases h
            exact sched_lifeInv hs horderly ht
          · cases h
          · cases h
      · cases h
  | callStop v inTask =>
      refine hs.frame ?_
      cases inTask with
      | true =>
          simp only [step] at h
          split at h
          · split at h
            · cases h
              exact ⟨rfl, rfl⟩
            · cases h
          · cases h
      | false =>
          simp only [step] at h
          split at h
          · cases h
            exact ⟨rfl, rfl⟩
          · cases h
  | stop v inTask quiet => exact hs.frame (stopStep_frame h)

theorem entersLive_of_orderly (hs : LifeInv s) {a : Action C} (horderly : Orderly s a) : EntersLive s a := by
  cases a with
  | sched a =>
      cases a with
      | run w =>
          intro kind f hpc
          have hlive := hs.awaited w f (by rw [hpc]; rfl)
          simp only [Orderly, hpc] at horderly
          have hexec : (s.sched.fibers f).state ≠ .EXEC := by
            intro heq
            obtain ⟨v, hv⟩ := hs.exec f heq
            refine horderly v ?_ hv
            rintro rfl
            rw [hpc] at hv
            cases hv
          cases hstate : (s.sched.fibers f).state <;> simp_all [enterable, FiberState.dead]
      | _ => trivial
  | stop v inTask quiet =>
      intro hcalling
      rw [(horderly hcalling).2]
      rfl
  | callStop v inTask => trivial

theorem ne_neverReach_of_orderly (hs : LifeInv s) {a : Action C} (horderly : Orderly s a) :
    step workers root s a ≠ .abort .neverReach := by
  cases a with
  | sched a =>
      simp only [step]
      split
      · split
        · rename_i hresumes
          cases a with
          | run w =>
              simp only [resumesFinished] at hresumes
              split at hresumes
              · rename_i kind f hpc
                rw [hs.live w f (by rw [hpc]; rfl)] at hresumes
                cases hresumes
              · cases hresumes
          | _ => cases hresumes
        · split <;> simp
      · simp
  | callStop v inTask =>
      cases inTask with
      | true =>
          simp only [step]
          split
          · split <;> simp
          · simp
      | false =>
          simp only [step]
          split <;> simp
  | stop v inTask quiet =>
      simp only [step, stopStep]
      split
      case h_7 hcalling =>
        rw [if_neg (by rw [(horderly hcalling).2]; simp [FiberState.dead])]
        split <;> simp
      all_goals (repeat' split) <;> simp

end

/-- `Orderly`, with the workers of the run in the place of all threads. -/
def orderlyAmong (workers : Finset ThreadId) (s : State C) : Action C → Bool
  | .sched (.exit w how) =>
    match s.sched.pc w with
    | .running _ f => decide (how = .finish ∨ how = .throw → ∀ v ∈ workers, v ≠ w → awaits (s.sched.pc v) ≠ some f)
    | _ => true
  | .sched (.run w) =>
    match s.sched.pc w with
    | .checked _ f => decide (∀ v ∈ workers, v ≠ w → executing (s.sched.pc v) ≠ some f)
    | .hold _ f => !(s.sched.fibers f).state.dead
    | .noTask => (s.sched.fibers (s.sched.idleFiber w)).state != .EXCEPT
    | _ => true
  | .stop t inTask _ => decide (s.stopPc t inTask = .calling → inTask = false ∧ s.root = .INIT)
  | _ => true

theorem step_outside {workers : Finset ThreadId} {root : Option ThreadId} {s u : State C}
    (hs : ∀ v ∉ workers, s.sched.pc v = .head) {a : Action C} (h : step workers root s a = .next u) :
    ∀ v ∉ workers, u.sched.pc v = .head := by
  intro v hv
  cases a with
  | sched a =>
      simp only [step] at h
      split at h
      · split at h
        · cases h
        · split at h
          · rename_i t ht
            cases h
            exact (step_pc_of_notMem ht hv).trans (hs v hv)
          · cases h
          · cases h
      · cases h
  | callStop x inTask =>
      have hsched : u.sched = s.sched := by
        cases inTask with
        | true =>
            simp only [step] at h
            split at h
            · split at h <;> cases h
              rfl
            · cases h
        | false =>
            simp only [step] at h
            split at h <;> cases h
            rfl
      rw [hsched, hs v hv]
  | stop x inTask quiet => rw [(stopStep_frame h).1, hs v hv]

/-- Threads that are no workers are in nobody's way. -/
theorem orderly_of_among {workers : Finset ThreadId} {s : State C} {a : Action C}
    (hs : ∀ v ∉ workers, s.sched.pc v = .head) (h : orderlyAmong workers s a = true) : Orderly s a := by
  cases a with
  | sched a =>
      cases a with
      | run u =>
          simp only [Orderly]
          split
          · rename_i kind f hpc
            simp only [orderlyAmong, hpc, decide_eq_true_eq] at h
            intro v hv hexec
            by_cases hmem : v ∈ workers
            · exact h v hmem hv hexec
            · rw [hs v hmem] at hexec
              cases hexec
          · rename_i kind f hpc
            simpa [orderlyAmong, hpc] using h
          · rename_i hpc
            simpa [orderlyAmong, hpc] using h
          · trivial
      | exit u how =>
          intro hends kind f hpc v hv hawaits
          simp only [orderlyAmong, hpc, decide_eq_true_eq] at h
          by_cases hmem : v ∈ workers
          · exact h hends v hmem hv hawaits
          · rw [hs v hmem] at hawaits
            cases hawaits
      | _ => trivial
  | callStop x inTask => trivial
  | stop x inTask quiet =>
      simp only [orderlyAmong, decide_eq_true_eq] at h
      exact h

theorem along_orderly {workers : Finset ThreadId} {root : Option ThreadId} {idleCb : C} {acts : List (Action C)}
    (h : Along (step workers root) (fun s a => orderlyAmong workers s a = true) (start workers idleCb) acts) :
    Along (step workers root) Orderly (start workers idleCb) acts :=
  (throughout_of_along (I := fun s : State C => ∀ v ∉ workers, s.sched.pc v = .head)
    (fun _ _ _ hs _ ht => step_outside hs ht) (fun _ _ => rfl) h).2.mono fun _ _ hs => orderly_of_among hs.1 hs.2

/-- In every run that is orderly, every fiber that is entered by `swapIn` or `call` is `INIT`, `HOLD` or `READY`, and no finished fiber is resumed. -/
theorem enters_live_of_orderly (workers : Finset ThreadId) (root : Option ThreadId) (idleCb : C) (acts : List (Action C))
    (h : Along (step workers root) Orderly (start workers idleCb) acts) :
    Along (step workers root) EntersLive (start workers idleCb) acts ∧
      run (step workers root) (start workers idleCb) acts ≠ .abort .neverReach := by
  have halong := (throughout_of_along (fun _ _ _ hs ha ht => step_lifeInv hs ha ht) (lifeInv_start workers idleCb) h).2
  refine ⟨halong.mono fun s a hs => entersLive_of_orderly hs.1 hs.2, ?_⟩
  rw [run_ne_abort_iff_along (P := fun s a => step workers root s a ≠ .abort .neverReach) (fun s a => by simp)]
  exact halong.mono fun s a hs => ne_neverReach_of_orderly hs.1 hs.2

/-- Two workers, of which the first runs on the root fiber. Worker 2 runs fiber 3, which has been queued twice, yields to `READY` and then returns; it drops the entry that is left over, and its idle fiber yields. `stop` calls the root fiber, in which worker 1 runs a callback, and its idle fiber yields too. -/
def stoppedRun : List (Action Unit) :=
  [[.sched (.newFiber ()), .sched (.schedule ⟨some 3, none, none⟩), .sched (.schedule ⟨some 3, none, none⟩)],
    List.replicate 5 (.sched (.run 2)), [.sched (.exit 2 .yieldToReady)], List.replicate 9 (.sched (.run 2)),
    [.sched (.exit 2 .finish)], List.replicate 3 (.sched (.run 2)), List.replicate 6 (.sched (.run 2)),
    [.sched (.schedule ⟨none, some (), none⟩), .callStop 1 false], List.replicate 4 (.stop 1 false true),
    List.replicate 5 (.sched (.run 1)), [.sched (.exit 2 .yieldToHold)], List.replicate 4 (.sched (.run 2)),
    [.sched (.exit 1 .finish)], List.replicate 10 (.sched (.run 1)), [.sched (.exit 1 .yieldToHold)],
    List.replicate 4 (.sched (.run 1))].flatten

theorem enters_live_stopped :
    (∃ t, run (step {1, 2} (some 1)) (start {1, 2} ()) stoppedRun = .next t ∧ t.finished 3 = true ∧ t.root = .EXEC ∧
      t.sched.pc 1 = .head ∧ (t.sched.fibers 1).state = .HOLD) ∧
    Along (step {1, 2} (some 1)) EntersLive (start {1, 2} ()) stoppedRun ∧
      run (step {1, 2} (some 1)) (start {1, 2} ()) stoppedRun ≠ .abort .neverReach :=
  ⟨⟨_, rfl, by decide +kernel, by decide +kernel, by decide +kernel, by decide +kernel⟩,
    enters_live_of_orderly {1, 2} (some 1) () _ (along_orderly (by decide +kernel))⟩

/-- The idle function throws, and the worker swaps its fiber in again; a fiber queued twice finishes on one worker after another has tested it; and `stop` is called again with a task scheduled since. -/
theorem finished_fibers_resumed :
    (run (step {1} none) (start {1} ())
      ([List.replicate 5 (.sched (.run 1)), [.sched (.exit 1 .throw)], List.replicate 9 (.sched (.run 1))] :
        List (List (Action Unit))).flatten = .abort .neverReach) ∧
    (run (step {1, 2} none) (start {1, 2} ())
      ([[.sched (.newFiber ()), .sched (.schedule ⟨some 3, none, none⟩), .sched (.schedule ⟨some 3, none, none⟩)],
        List.replicate 2 (.sched (.run 1)), List.replicate 2 (.sched (.run 2)), List.replicate 3 (.sched (.run 1)),
        [.sched (.exit 1 .finish)], List.replicate 3 (.sched (.run 2))] : List (List (Action Unit))).flatten =
          .abort .neverReach) ∧
    run (step {1} (some 1)) (start {1} ())
      ([[.sched (.schedule ⟨none, some (), none⟩), .callStop 1 false], List.replicate 6 (.stop 1 false true),
        List.replicate 5 (.sched (.run 1)), [.sched (.exit 1 .finish)], List.replicate 10 (.sched (.run 1)),
        [.sched (.exit 1 .finish)], List.replicate 5 (.sched (.run 1)), List.replicate 3 (.stop 1 false true),
        [.sched (.schedule ⟨none, some (), none⟩), .callStop 1 false], List.replicate 6 (.stop 1 false true)] :
          List (List (Action Unit))).flatten = .abort .neverReach := by
  refine ⟨Outcome.reason?_eq_some.1 ?_, Outcome.reason?_eq_some.1 ?_, Outcome.reason?_eq_some.1 ?_⟩ <;> decide +kernel

end Awcotn.Lifecycle
