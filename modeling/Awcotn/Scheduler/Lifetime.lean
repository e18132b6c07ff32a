import Awcotn.Scheduler.Worker

/-!
# Lifetimes of schedulers

The hooks of a thread are on once it has entered `Scheduler::run`, and stay on. They work with `IOManager::GetThis()`, which is the thread's `t_scheduler` if that is an IO manager. The constructor sets `t_scheduler` on the caller's thread, `run` on every thread that enters it, and the destructor takes it away on the thread it runs on.

The model has any number of threads that construct, start, stop and destroy schedulers, plain ones and IO managers, and call the functions whose hooks wait: `sleep`, `usleep`, `nanosleep`, and `connect` or `do_io` where the raw call would block. What tasks a scheduler has is left to the environment, and so is what `stopping()` returns.
-/

namespace Awcotn.Lifetime

open Transition

abbrev ThreadId := Scheduler.ThreadId
abbrev SchedulerId := ℕ

/-- The fields of a `Scheduler` that its life depends on. `isIOManager` is its dynamic type. -/
structure Scheduler where
  isIOManager : Bool
  threadCount : ℕ
  rootThread : Option ThreadId
  rootFiber : Option Scheduler.FiberState
  threads : List ThreadId
  stopping : Bool
  autoStop : Bool
  destroyed : Bool
  deriving DecidableEq

/-- What a thread is in the middle of, beside its own code. `isDestructor` says that `stop` was called by `~IOManager`. -/
inductive Frame
  /-- A new worker, before `run`. -/
  | born (m : SchedulerId)
  /-- In `run`, as a worker or on the root fiber. -/
  | run (m : SchedulerId)
  /-- In `stop`, past its assertions. -/
  | stopping (m : SchedulerId) (isDestructor : Bool)
  /-- In `stop`, past the root fiber. -/
  | joining (m : SchedulerId) (isDestructor : Bool)
  | exited
  deriving DecidableEq

/-- A thread: `t_hook_enable`, `t_scheduler` and its frames, innermost first. -/
structure Thread where
  hookEnable : Bool
  scheduler : Option SchedulerId
  frames : List Frame
  deriving DecidableEq

/-- The process. `last` is not in the source: the scheduler that the thread has last taken on, by constructing it with `use_caller` or by entering its `run`; and `entered` says that the thread has entered some `run`. -/
structure State where
  schedulers : SchedulerId → Option Scheduler
  nextScheduler : SchedulerId
  thread : ThreadId → Thread
  nextThread : ThreadId
  last : ThreadId → Option SchedulerId
  entered : ThreadId → Bool

inductive Fault
  /-- An assertion of `scheduler.cc`. -/
  | assertion
  /-- A root fiber that has finished is called again, past its last `back`. -/
  | neverReach
  /-- A hook has no IO manager to work with. -/
  | noIOManager
  deriving DecidableEq

inductive Action
  | newThread
  | construct (t : ThreadId) (isIOManager : Bool) (threads : ℕ) (useCaller : Bool)
  | start (t : ThreadId) (m : SchedulerId)
  /-- A new worker enters `run`. -/
  | enter (t : ThreadId)
  /-- `run` of a worker returns. -/
  | leave (t : ThreadId)
  /-- `stop` up to the root fiber; `stopping` is what the first test of `stopping()` returns. -/
  | stop (t : ThreadId) (m : SchedulerId) (stopping : Bool)
  /-- `stop` calls the root fiber, unless the second test of `stopping()` forbids it. -/
  | callRoot (t : ThreadId) (stopping : Bool)
  /-- `run` returns on the root fiber. -/
  | back (t : ThreadId)
  /-- `stop` has joined the workers. -/
  | join (t : ThreadId)
  | destroy (t : ThreadId) (m : SchedulerId) (stopping : Bool)
  /-- A call whose hook waits. -/
  | call (t : ThreadId)
  deriving DecidableEq

/-- The thread is running code of the program: its own, or a task in `run`. -/
def Thread.inCode (t : Thread) : Bool :=
  match t.frames with
  | [] => true
  | .run _ :: _ => true
  | _ => false

namespace State

def setThread (s : State) (t : ThreadId) (thread : Thread) : State :=
  { s with thread := Function.update s.thread t thread }

def setScheduler (s : State) (m : SchedulerId) (scheduler : Scheduler) : State :=
  { s with schedulers := Function.update s.schedulers m (some scheduler) }

def setFrames (s : State) (t : ThreadId) (frames : List Frame) : State :=
  s.setThread t { s.thread t with frames := frames }

/-- A scheduler that can be used: it has been constructed and not destroyed. -/
def live (s : State) (m : SchedulerId) : Option Scheduler := (s.schedulers m).filter fun c => !c.destroyed

/-- `t_scheduler = m`. -/
def setThis (s : State) (t : ThreadId) (m : SchedulerId) : State :=
  { s.setThread t { s.thread t with scheduler := some m } with last := Function.update s.last t (some m) }

/-- The beginning of `Scheduler::run` on thread `t`. -/
def enterRun (s : State) (t : ThreadId) (m : SchedulerId) : State :=
  let s := { s.setThread t { s.thread t with hookEnable := true } with entered := Function.update s.entered t true }
  s.setThis t m

/-- `n` new threads, each to enter `run` of `m`. -/
def spawn (s : State) (m : SchedulerId) (n : ℕ) : State :=
  { s with
    thread := fun t => if s.nextThread ≤ t ∧ t < s.nextThread + n then ⟨false, none, [.born m]⟩ else s.thread t
    nextThread := s.nextThread + n }

/-- `Scheduler::start`. -/
def start (s : State) (m : SchedulerId) (c : Scheduler) : Outcome Fault State :=
  if !c.stopping then .next s
  else if c.threads ≠ [] then .abort .assertion
  else
    let s := s.setScheduler m
      { c with stopping := false, threads := List.range' s.nextThread c.threadCount }
    .next (s.spawn m c.threadCount)

/-- `Scheduler::Scheduler`. -/
def construct (s : State) (t : ThreadId) (isIOManager : Bool) (threads : ℕ) (useCaller : Bool) : Outcome Fault State :=
  if threads = 0 then .abort .assertion
  else
    let m := s.nextScheduler
    let s' := { s with nextScheduler := m + 1 }
    if useCaller then
      if (s.thread t).scheduler ≠ none then .abort .assertion
      else .next ((s'.setThis t m).setScheduler m ⟨isIOManager, threads - 1, some t, some .INIT, [], true, false, false⟩)
    else .next (s'.setScheduler m ⟨isIOManager, threads, none, none, [], true, false, false⟩)

/-- `Scheduler::~Scheduler`. -/
def destruct (s : State) (t : ThreadId) (m : SchedulerId) (c : Scheduler) : Outcome Fault State :=
  if !c.stopping then .abort .assertion
  else
    let s := s.setScheduler m { c with destroyed := true }
    .next (if (s.thread t).scheduler = some m then s.setThread t { s.thread t with scheduler := none } else s)

/-- The end of `stop`, in the destructor of an IO manager or not. -/
def stopped (s : State) (t : ThreadId) (m : SchedulerId) (c : Scheduler) (isDestructor : Bool) : Outcome Fault State :=
  if isDestructor then s.destruct t m c else .next s

/-- `Scheduler::stop` up to the root fiber. -/
def stop (s : State) (t : ThreadId) (m : SchedulerId) (c : Scheduler) (stopping isDestructor : Bool) : Outcome Fault State :=
  let early := c.rootFiber.any (fun f => f = .TERM ∨ f = .INIT) ∧ c.threadCount = 0
  let c := { c with autoStop := true, stopping := c.stopping || decide early }
  let s := s.setScheduler m c
  if early ∧ stopping then s.stopped t m c isDestructor
  else if c.rootThread.isSome ≠ decide ((s.thread t).scheduler = some m) then .abort .assertion
  else .next ((s.setScheduler m { c with stopping := true }).setFrames t (.stopping m isDestructor :: (s.thread t).frames))

/-- `IOManager::GetThis()`, or none where the scheduler is gone. -/
def getThis (s : State) (t : ThreadId) : Option SchedulerId :=
  (s.thread t).scheduler.filter fun m => (s.live m).any Scheduler.isIOManager

end State

/-- An operation of the program's on a scheduler that exists. -/
def onLive (s : State) (t : ThreadId) (m : SchedulerId) (f : Scheduler → Outcome Fault State) : Outcome Fault State :=
  if t < s.nextThread ∧ (s.thread t).inCode then
    match s.live m with
    | some c => f c
    | none => .disabled
  else .disabled

namespace State

/-- A new worker enters `Scheduler::run`. -/
def enter (s : State) (t : ThreadId) : Outcome Fault State :=
  match (s.thread t).frames with
  | [.born m] => .next ((s.enterRun t m).setFrames t [.run m])
  | _ => .disabled

/-- `Scheduler::run` of a worker returns, and its thread ends. -/
def leave (s : State) (t : ThreadId) : Outcome Fault State :=
  match (s.thread t).frames with
  | [.run _] => .next (s.setFrames t [.exited])
  | _ => .disabled

/-- `stop` comes to the root fiber. One that is running already goes on where it is. -/
def callRoot (s : State) (t : ThreadId) (stopping : Bool) : Outcome Fault State :=
  match (s.thread t).frames with
  | .stopping m isDestructor :: rest =>
    match s.schedulers m with
    | none => .disabled
    | some c =>
      match c.rootFiber with
      | none => .next (s.setFrames t (.joining m isDestructor :: rest))
      | some f =>
        if stopping then .next (s.setFrames t (.joining m isDestructor :: rest))
        else if f.dead then .abort .neverReach
        else
          let s := s.setScheduler m { c with rootFiber := some .EXEC }
          .next ((s.enterRun t m).setFrames t (.run m :: .joining m isDestructor :: rest))
  | _ => .disabled

/-- `Scheduler::run` returns on the root fiber. -/
def back (s : State) (t : ThreadId) : Outcome Fault State :=
  match (s.thread t).frames with
  | .run m :: .joining n isDestructor :: rest =>
    match s.schedulers m with
    | none => .disabled
    | some c => .next ((s.setScheduler m { c with rootFiber := some .TERM }).setFrames t (.joining n isDestructor :: rest))
  | _ => .disabled

/-- `stop` has joined the workers. -/
def join (s : State) (t : ThreadId) : Outcome Fault State :=
  match (s.thread t).frames with
  | .joining m isDestructor :: rest =>
    match s.schedulers m with
    | none => .disabled
    | some c =>
      if c.threads.all fun w => (s.thread w).frames = [.exited] then
        let c := { c with threads := [] }
        ((s.setScheduler m c).setFrames t rest).stopped t m c isDestructor
      else .disabled
  | _ => .disabled

end State

def step (s : State) : Action → Outcome Fault State
  | .newThread => .next { s with nextThread := s.nextThread + 1 }
  | .construct t isIOManager threads useCaller =>
    if t < s.nextThread ∧ (s.thread t).inCode then
      match s.construct t isIOManager threads useCaller with
      | .next u =>
        -- the constructor of `IOManager` ends with `start`
        if isIOManager then
          match u.schedulers s.nextScheduler with
          | some c => u.start s.nextScheduler c
          | none => .disabled
        else .next u
      | .abort e => .abort e
      | .disabled => .disabled
    else .disabled
  | .start t m => onLive s t m fun c => s.start m c
  | .stop t m stopping => onLive s t m fun c => s.stop t m c stopping false
  | .destroy t m stopping =>
    onLive s t m fun c => if c.isIOManager then s.stop t m c stopping true else s.destruct t m c
  | .call t =>
    if t < s.nextThread ∧ (s.thread t).inCode then
      if (s.thread t).hookEnable ∧ s.getThis t = none then .abort .noIOManager else .next s
    else .disabled
  | .enter t => s.enter t
  | .leave t => s.leave t
  | .callRoot t stopping => s.callRoot t stopping
  | .back t => s.back t
  | .join t => s.join t

/-- The main thread, and nothing else. -/
def start : State where
  schedulers := fun _ => none
  nextScheduler := 0
  thread := fun _ => ⟨false, none, []⟩
  nextThread := 1
  last := fun _ => none
  entered := fun _ => false

/-! ### The condition -/

/-- A call whose hook waits is made on a thread that has entered no `run`, or whose last scheduler is an IO manager that has not been destroyed. -/
def CallsHome (s : State) : Action → Prop
  | .call t => t < s.nextThread → (s.thread t).inCode = true → s.entered t = true →
      ∃ m c, s.last t = some m ∧ s.live m = some c ∧ c.isIOManager = true
  | _ => True

/-! ### The invariant -/

def Frame.scheduler? : Frame → Option SchedulerId
  | .born m | .run m | .stopping m _ | .joining m _ => some m
  | .exited => none

/-- The frames name schedulers that exist. -/
def Known (s : State) (frames : List Frame) : Prop := ∀ f ∈ frames, ∀ m, f.scheduler? = some m → m < s.nextScheduler

theorem Known.cons {s : State} {f : Frame} {frames : List Frame} (hf : ∀ m, f.scheduler? = some m → m < s.nextScheduler)
    (h : Known s frames) : Known s (f :: frames) := by
  intro g hg m hm
  obtain rfl | hmem := List.mem_cons.1 hg
  · exact hf m hm
  · exact h g hmem m hm

/-- The hook flag and `t_scheduler` of a thread are what its history makes them, but for the schedulers that are gone. -/
structure ThreadInv (s : State) (thread : Thread) (last : Option SchedulerId) (entered : Bool) : Prop where
  hookEnable : thread.hookEnable = entered
  last_of_this : ∀ m, thread.scheduler = some m → last = some m
  this_of_last : ∀ m, last = some m → s.live m ≠ none → thread.scheduler = some m
  known : ∀ m, last = some m → m < s.nextScheduler
  frames : Known s thread.frames

structure LifetimeInv (s : State) : Prop where
  threads : ∀ t, ThreadInv s (s.thread t) (s.last t) (s.entered t)
  schedulers : ∀ m, s.nextScheduler ≤ m → s.schedulers m = none
  unborn : ∀ t, s.nextThread ≤ t → (s.thread t).frames = [] ∧ s.last t = none ∧ s.entered t = false

theorem lifetimeInv_start : LifetimeInv start where
  threads := fun _ => ⟨rfl, nofun, nofun, nofun, nofun⟩
  schedulers := fun _ _ => rfl
  unborn := fun _ _ => ⟨rfl, rfl, rfl⟩

/-- A thread is concerned with what becomes of the schedulers only as far as they live, and with the number of them. -/
theorem ThreadInv.mono {s u : State} {thread : Thread} {last : Option SchedulerId} {entered : Bool}
    (h : ThreadInv s thread last entered) (hlive : ∀ m, m < s.nextScheduler → u.live m ≠ none → s.live m ≠ none)
    (hnext : s.nextScheduler ≤ u.nextScheduler) : ThreadInv u thread last entered where
  hookEnable := h.hookEnable
  last_of_this := h.last_of_this
  this_of_last := fun m hm hu => h.this_of_last m hm (hlive m (h.known m hm) hu)
  known := fun m hm => (h.known m hm).trans_le hnext
  frames := fun f hf m hm => (h.frames f hf m hm).trans_le hnext

section

variable {s u : State} {t : ThreadId} {m : SchedulerId} {c : Scheduler}

theorem LifetimeInv.lt_of_live (hs : LifetimeInv s) (h : s.live m = some c) : m < s.nextScheduler := by
  by_contra hge
  rw [State.live, hs.schedulers m (Nat.le_of_not_lt hge)] at h
  cases h

theorem LifetimeInv.lt_of_frames (hs : LifetimeInv s) (h : (s.thread t).frames ≠ []) : t < s.nextThread := by
  by_contra hge
  exact h (hs.unborn t (Nat.le_of_not_lt hge)).1

/-- One thread changes. -/
theorem LifetimeInv.setThread (hs : LifetimeInv s) (ht : t < s.nextThread) (thread : Thread) {last : Option SchedulerId}
    {entered : Bool} (h : ThreadInv s thread last entered) :
    LifetimeInv { s.setThread t thread with
      last := Function.update s.last t last, entered := Function.update s.entered t entered } where
  threads := by
    intro v
    by_cases hv : v = t
    · subst hv
      simp only [State.setThread, Function.update_self]
      exact h.mono (fun _ _ => id) (Nat.le_refl _)
    · simp only [State.setThread, Function.update_of_ne hv]
      exact (hs.threads v).mono (fun _ _ => id) (Nat.le_refl _)
  schedulers := hs.schedulers
  unborn := by
    intro v hv
    have hne : v ≠ t := by
      rintro rfl
      exact absurd ht (Nat.not_lt.2 hv)
    simpa only [State.setThread, Function.update_of_ne hne] using hs.unborn v hv

theorem LifetimeInv.setFrames (hs : LifetimeInv s) (ht : t < s.nextThread) {frames : List Frame} (hframes : Known s frames) :
    LifetimeInv (s.setFrames t frames) := by
  have h := hs.threads t
  have := hs.setThread ht { s.thread t with frames := frames }
    ⟨h.hookEnable, h.last_of_this, h.this_of_last, h.known, hframes⟩
  rwa [Function.update_eq_self, Function.update_eq_self] at this

theorem LifetimeInv.enterRun (hs : LifetimeInv s) (ht : t < s.nextThread) (hm : m < s.nextScheduler) :
    LifetimeInv (s.enterRun t m) := by
  have := hs.setThread ht { s.thread t with hookEnable := true, scheduler := some m }
    ⟨rfl, fun _ => id, fun _ hn _ => hn, fun n hn => Option.some.inj hn ▸ hm, (hs.threads t).frames⟩
  simpa [State.enterRun, State.setThis, State.setThread] using this

theorem LifetimeInv.setThis (hs : LifetimeInv s) (ht : t < s.nextThread) (hm : m < s.nextScheduler) :
    LifetimeInv (s.setThis t m) := by
  have h := hs.threads t
  have := hs.setThread ht { s.thread t with scheduler := some m }
    ⟨h.hookEnable, fun _ => id, fun _ hn _ => hn, fun n hn => Option.some.inj hn ▸ hm, h.frames⟩
  rwa [Function.update_eq_self] at this

/-- The thread lets go of a scheduler that is gone. -/
theorem LifetimeInv.forget (hs : LifetimeInv s) (ht : t < s.nextThread) (hthis : (s.thread t).scheduler = some m)
    (hgone : s.live m = none) : LifetimeInv (s.setThread t { s.thread t with scheduler := none }) := by
  have h := hs.threads t
  have hlast : ∀ n, s.last t = some n → s.live n ≠ none → (none : Option SchedulerId) = some n := by
    intro n hn hlive
    obtain rfl := Option.some.inj ((h.this_of_last n hn hlive).symm.trans hthis)
    exact absurd hgone hlive
  have := hs.setThread ht { s.thread t with scheduler := none } ⟨h.hookEnable, nofun, hlast, h.known, h.frames⟩
  rwa [Function.update_eq_self, Function.update_eq_self] at this

/-- A scheduler is created, changes or is destroyed. -/
theorem LifetimeInv.setScheduler (hs : LifetimeInv s) (hm : m < s.nextScheduler)
    (hlive : c.destroyed = false → s.live m ≠ none) : LifetimeInv (s.setScheduler m c) where
  threads := by
    intro t
    refine (hs.threads t).mono (fun n _ hn => ?_) (Nat.le_refl _)
    by_cases heq : n = m
    · subst heq
      refine hlive ?_
      simpa [State.live, State.setScheduler, Option.filter] using hn
    · simpa [State.live, State.setScheduler, heq] using hn
  schedulers := by
    intro n hn
    have hne : n ≠ m := by
      rintro rfl
      exact absurd hm (Nat.not_lt.2 hn)
    exact (Function.update_of_ne hne _ _).trans (hs.schedulers n hn)
  unborn := hs.unborn

theorem LifetimeInv.spawn (hs : LifetimeInv s) (hm : m < s.nextScheduler) (n : ℕ) : LifetimeInv (s.spawn m n) where
  threads := by
    intro t
    by_cases ht : s.nextThread ≤ t ∧ t < s.nextThread + n
    · obtain ⟨_, hlast, hentered⟩ := hs.unborn t ht.1
      simp only [State.spawn, if_pos ht, hlast, hentered]
      exact ⟨rfl, nofun, nofun, nofun, Known.cons (fun k hk => Option.some.inj hk ▸ hm) nofun⟩
    · simp only [State.spawn, if_neg ht]
      exact (hs.threads t).mono (fun _ _ => id) (Nat.le_refl _)
  schedulers := hs.schedulers
  unborn := by
    intro t ht
    have hge : s.nextThread + n ≤ t := ht
    have hnot : ¬ (s.nextThread ≤ t ∧ t < s.nextThread + n) := fun hlt => absurd hlt.2 (Nat.not_lt.2 hge)
    simpa only [State.spawn, if_neg hnot] using hs.unborn t ((Nat.le_add_right _ n).trans hge)

/-! ### The operations keep the invariant -/

theorem start_lifetimeInv (hs : LifetimeInv s) (hlive : s.live m = some c) (h : s.start m c = .next u) : LifetimeInv u := by
  have hm := hs.lt_of_live hlive
  unfold State.start at h
  split at h
  · exact Outcome.next.inj h ▸ hs
  · split at h
    · cases h
    · exact Outcome.next.inj h ▸ (hs.setScheduler hm fun _ => by simp [hlive]).spawn hm _

theorem destruct_lifetimeInv (hs : LifetimeInv s) (hm : m < s.nextScheduler) (ht : t < s.nextThread)
    (h : s.destruct t m c = .next u) : LifetimeInv u := by
  unfold State.destruct at h
  split at h
  · cases h
  · have hdead := hs.setScheduler hm (c := { c with destroyed := true }) nofun
    dsimp only at h
    split at h
    · next hthis =>
        have hgone : (s.setScheduler m { c with destroyed := true }).live m = none := by
          simp [State.live, State.setScheduler, Option.filter]
        exact Outcome.next.inj h ▸ hdead.forget ht hthis hgone
    · exact Outcome.next.inj h ▸ hdead

theorem stopped_lifetimeInv (hs : LifetimeInv s) (hm : m < s.nextScheduler) (ht : t < s.nextThread) {isDestructor : Bool}
    (h : s.stopped t m c isDestructor = .next u) : LifetimeInv u := by
  unfold State.stopped at h
  split at h
  · exact destruct_lifetimeInv hs hm ht h
  · exact Outcome.next.inj h ▸ hs

theorem stop_lifetimeInv (hs : LifetimeInv s) (ht : t < s.nextThread) (hlive : s.live m = some c)
    {stopping isDestructor : Bool} (h : s.stop t m c stopping isDestructor = .next u) : LifetimeInv u := by
  have hm := hs.lt_of_live hlive
  have hset : ∀ c, LifetimeInv (s.setScheduler m c) := fun c => hs.setScheduler hm fun _ => by simp [hlive]
  unfold State.stop at h
  dsimp only at h
  split at h
  · exact stopped_lifetimeInv (hset _) hm ht h
  · split at h
    · cases h
    · have hframes : Known s (.stopping m isDestructor :: (s.thread t).frames) :=
        (hs.threads t).frames.cons fun n hn => Option.some.inj hn ▸ hm
      have hstopped := (hset { c with autoStop := true, stopping := true }).setFrames ht hframes
      have hsame : ∀ c c' : Scheduler, (s.setScheduler m c).setScheduler m c' = s.setScheduler m c' := by
        intro c c'
        simp [State.setScheduler]
      rw [hsame] at h
      exact Outcome.next.inj h ▸ hstopped

theorem LifetimeInv.create (hs : LifetimeInv s) (c : Scheduler) :
    LifetimeInv ({ s with nextScheduler := s.nextScheduler + 1 }.setScheduler s.nextScheduler c) where
  threads := by
    intro t
    refine (hs.threads t).mono (fun n hlt hn => ?_) (Nat.le_succ _)
    have hne : n ≠ s.nextScheduler := Nat.ne_of_lt hlt
    simpa [State.live, State.setScheduler, hne] using hn
  schedulers := by
    intro n hn
    have hne : n ≠ s.nextScheduler := by
      rintro rfl
      exact absurd (Nat.lt_succ_self _) (Nat.not_lt.2 hn)
    exact (Function.update_of_ne hne _ _).trans (hs.schedulers n (Nat.le_of_succ_le hn))
  unborn := hs.unborn

/-- A new scheduler is live. -/
theorem construct_lifetimeInv (hs : LifetimeInv s) (ht : t < s.nextThread) {isIOManager useCaller : Bool} {threads : ℕ}
    (h : s.construct t isIOManager threads useCaller = .next u) :
    LifetimeInv u ∧ ∀ c, u.schedulers s.nextScheduler = some c → u.live s.nextScheduler = some c := by
  unfold State.construct at h
  split at h
  · cases h
  · dsimp only at h
    split at h
    · split at h
      · cases h
      · obtain rfl := Outcome.next.inj h
        refine ⟨(hs.create _).setThis ht (Nat.lt_succ_self _), fun c hc => ?_⟩
        obtain rfl : _ = c := by simpa [State.setScheduler] using hc
        simp [State.live, State.setScheduler, Option.filter]
    · obtain rfl := Outcome.next.inj h
      refine ⟨hs.create _, fun c hc => ?_⟩
      obtain rfl : _ = c := by simpa [State.setScheduler] using hc
      simp [State.live, State.setScheduler, Option.filter]

/-- A thread in the middle of something is known, and so is what it is in the middle of. -/
theorem LifetimeInv.top (hs : LifetimeInv s) {f : Frame} {rest : List Frame} (h : (s.thread t).frames = f :: rest)
    (hm : f.scheduler? = some m) : t < s.nextThread ∧ m < s.nextScheduler ∧ Known s rest := by
  have hframes := (hs.threads t).frames
  rw [h] at hframes
  exact ⟨hs.lt_of_frames (by simp [h]), hframes f List.mem_cons_self m hm,
    fun g hg => hframes g (List.mem_cons_of_mem _ hg)⟩

/-- A scheduler changes and lives on if it did. -/
theorem LifetimeInv.change (hs : LifetimeInv s) (hm : m < s.nextScheduler) (hget : s.schedulers m = some c) (c' : Scheduler)
    (hsame : c'.destroyed = c.destroyed) : LifetimeInv (s.setScheduler m c') := by
  refine hs.setScheduler hm fun hlive => ?_
  rw [hsame] at hlive
  simp [State.live, hget, Option.filter, hlive]

theorem enter_lifetimeInv (hs : LifetimeInv s) (h : s.enter t = .next u) : LifetimeInv u := by
  unfold State.enter at h
  split at h
  · next m hframes =>
      obtain ⟨ht, hm, _⟩ := hs.top hframes rfl
      have hrun : Known (s.enterRun t m) [.run m] := Known.cons (fun n hn => Option.some.inj hn ▸ hm) nofun
      exact Outcome.next.inj h ▸ (hs.enterRun ht hm).setFrames ht hrun
  · cases h

theorem leave_lifetimeInv (hs : LifetimeInv s) (h : s.leave t = .next u) : LifetimeInv u := by
  unfold State.leave at h
  split at h
  · next m hframes =>
      obtain ⟨ht, _, _⟩ := hs.top hframes rfl
      have hexited : Known s [.exited] := Known.cons nofun fun f hf => absurd hf List.not_mem_nil
      exact Outcome.next.inj h ▸ hs.setFrames ht hexited
  · cases h

theorem callRoot_lifetimeInv (hs : LifetimeInv s) {stopping : Bool} (h : s.callRoot t stopping = .next u) :
    LifetimeInv u := by
  unfold State.callRoot at h
  split at h
  · next m isDestructor rest hframes =>
      obtain ⟨ht, hm, hrest⟩ := hs.top hframes rfl
      have hjoining : Known s (.joining m isDestructor :: rest) := hrest.cons fun n hn => Option.some.inj hn ▸ hm
      split at h
      · cases h
      · next c hget =>
          split at h
          · exact Outcome.next.inj h ▸ hs.setFrames ht hjoining
          · split at h
            · exact Outcome.next.inj h ▸ hs.setFrames ht hjoining
            · split at h
              · cases h
              · have hcalled := hs.change hm hget { c with rootFiber := some .EXEC } rfl
                exact Outcome.next.inj h ▸ (hcalled.enterRun ht hm).setFrames ht
                  (hjoining.cons fun n hn => Option.some.inj hn ▸ hm)
  · cases h

theorem back_lifetimeInv (hs : LifetimeInv s) (h : s.back t = .next u) : LifetimeInv u := by
  unfold State.back at h
  split at h
  · next m n isDestructor rest hframes =>
      obtain ⟨ht, hm, hrest⟩ := hs.top hframes rfl
      split at h
      · cases h
      · next c hget =>
          have hback := hs.change hm hget { c with rootFiber := some .TERM } rfl
          exact Outcome.next.inj h ▸ hback.setFrames ht hrest
  · cases h

theorem join_lifetimeInv (hs : LifetimeInv s) (h : s.join t = .next u) : LifetimeInv u := by
  unfold State.join at h
  split at h
  · next m isDestructor rest hframes =>
      obtain ⟨ht, hm, hrest⟩ := hs.top hframes rfl
      split at h
      · cases h
      · next c hget =>
          split at h
          · have hjoined := hs.change hm hget { c with threads := [] } rfl
            exact stopped_lifetimeInv (hjoined.setFrames ht hrest) hm ht h
          · cases h
  · cases h

theorem onLive_eq_next {f : Scheduler → Outcome Fault State} (h : onLive s t m f = .next u) :
    t < s.nextThread ∧ ∃ c, s.live m = some c ∧ f c = .next u := by
  unfold onLive at h
  split at h
  · next hin =>
      split at h
      · next c hlive => exact ⟨hin.1, c, hlive, h⟩
      · cases h
  · cases h

theorem step_lifetimeInv (hs : LifetimeInv s) {a : Action} (h : step s a = .next u) : LifetimeInv u := by
  cases a with
  | newThread =>
      obtain rfl := Outcome.next.inj h
      exact ⟨fun t => (hs.threads t).mono (fun _ _ => id) (Nat.le_refl _), hs.schedulers,
        fun t ht => hs.unborn t (Nat.le_of_succ_le ht)⟩
  | construct t isIOManager threads useCaller =>
      simp only [step] at h
      split at h
      · next hin =>
          split at h
          · next v hv =>
              obtain ⟨hnew, hlive⟩ := construct_lifetimeInv hs hin.1 hv
              split at h
              · split at h
                · next c hget => exact start_lifetimeInv hnew (hlive c hget) h
                · cases h
              · exact Outcome.next.inj h ▸ hnew
          · cases h
          · cases h
      · cases h
  | start t m =>
      obtain ⟨_, c, hlive, hstart⟩ := onLive_eq_next h
      exact start_lifetimeInv hs hlive hstart
  | stop t m stopping =>
      obtain ⟨ht, c, hlive, hstop⟩ := onLive_eq_next h
      exact stop_lifetimeInv hs ht hlive hstop
  | destroy t m stopping =>
      obtain ⟨ht, c, hlive, hdestroy⟩ := onLive_eq_next h
      split at hdestroy
      · exact stop_lifetimeInv hs ht hlive hdestroy
      · exact destruct_lifetimeInv hs (hs.lt_of_live hlive) ht hdestroy
  | call t =>
      simp only [step] at h
      split at h
      · split at h
        · cases h
        · exact Outcome.next.inj h ▸ hs
      · cases h
  | enter t => exact enter_lifetimeInv hs h
  | leave t => exact leave_lifetimeInv hs h
  | callRoot t stopping => exact callRoot_lifetimeInv hs h
  | back t => exact back_lifetimeInv hs h
  | join t => exact join_lifetimeInv hs h

end

/-! ### Exactness -/

section

variable {s : State}

/-- The IO manager of a thread is its last scheduler, if that is an IO manager and not gone. -/
theorem LifetimeInv.getThis_ne_none (hs : LifetimeInv s) (t : ThreadId) :
    s.getThis t ≠ none ↔ ∃ m c, s.last t = some m ∧ s.live m = some c ∧ c.isIOManager = true := by
  have h := hs.threads t
  constructor
  · intro hthis
    obtain ⟨m, hm⟩ := Option.ne_none_iff_exists'.1 hthis
    obtain ⟨hsched, hlive⟩ := Option.filter_eq_some_iff.1 hm
    obtain ⟨c, hc, hio⟩ := (Option.any_eq_true _ _).1 hlive
    exact ⟨m, c, h.last_of_this m hsched, hc, hio⟩
  · rintro ⟨m, c, hlast, hlive, hio⟩
    have hsched := h.this_of_last m hlast (by simp [hlive])
    simp [State.getThis, hsched, Option.filter, hlive, hio]

/-- The assertions and the root fiber are other reasons to abort. -/
theorem start_ne_noIOManager (m : SchedulerId) (c : Scheduler) : s.start m c ≠ .abort .noIOManager := by
  unfold State.start
  split
  · simp
  · split
    · simp
    · simp

theorem destruct_ne_noIOManager (t : ThreadId) (m : SchedulerId) (c : Scheduler) :
    s.destruct t m c ≠ .abort .noIOManager := by
  unfold State.destruct
  split
  · simp
  · simp

theorem stopped_ne_noIOManager (t : ThreadId) (m : SchedulerId) (c : Scheduler) (isDestructor : Bool) :
    s.stopped t m c isDestructor ≠ .abort .noIOManager := by
  unfold State.stopped
  split
  · exact destruct_ne_noIOManager t m c
  · simp

theorem stop_ne_noIOManager (t : ThreadId) (m : SchedulerId) (c : Scheduler) (stopping isDestructor : Bool) :
    s.stop t m c stopping isDestructor ≠ .abort .noIOManager := by
  unfold State.stop
  dsimp only
  split
  · exact stopped_ne_noIOManager t m _ isDestructor
  · split
    · simp
    · simp

theorem construct_ne_noIOManager (t : ThreadId) (isIOManager : Bool) (threads : ℕ) (useCaller : Bool) :
    s.construct t isIOManager threads useCaller ≠ .abort .noIOManager := by
  unfold State.construct
  split
  · simp
  · dsimp only
    split
    · split
      · simp
      · simp
    · simp

theorem onLive_ne_noIOManager (t : ThreadId) (m : SchedulerId) {f : Scheduler → Outcome Fault State}
    (h : ∀ c, f c ≠ .abort .noIOManager) : onLive s t m f ≠ .abort .noIOManager := by
  unfold onLive
  split
  · split
    · next c _ => exact h c
    · simp
  · simp

theorem aborts_iff (a : Action) (hs : LifetimeInv s) : step s a = .abort .noIOManager ↔ ¬ CallsHome s a := by
  cases a with
  | call t =>
      simp only [step, CallsHome, ← hs.getThis_ne_none, ← (hs.threads t).hookEnable]
      by_cases hin : t < s.nextThread ∧ (s.thread t).inCode = true
      · simp only [hin, and_self, if_true, true_implies]
        by_cases hook : (s.thread t).hookEnable = true
        · by_cases hthis : s.getThis t = none
          · simp [hook, hthis]
          · simp [hook, hthis]
        · simp [hook]
      · simp only [hin, if_false, reduceCtorEq, false_iff, not_not]
        intro ht hcode
        exact absurd ⟨ht, hcode⟩ hin
  | start t m =>
      simp only [CallsHome, not_true, iff_false]
      exact onLive_ne_noIOManager t m fun c => start_ne_noIOManager m c
  | stop t m stopping =>
      simp only [CallsHome, not_true, iff_false]
      exact onLive_ne_noIOManager t m fun c => stop_ne_noIOManager t m c stopping false
  | destroy t m stopping =>
      simp only [CallsHome, not_true, iff_false]
      refine onLive_ne_noIOManager t m fun c => ?_
      split
      · exact stop_ne_noIOManager t m c stopping true
      · exact destruct_ne_noIOManager t m c
  | construct t isIOManager threads useCaller =>
      simp only [CallsHome, not_true, iff_false, step]
      split
      · split
        · split
          · split
            · exact start_ne_noIOManager _ _
            · simp
          · simp
        · next e he =>
            rintro heq
            rw [heq] at he
            exact construct_ne_noIOManager t isIOManager threads useCaller he
        · simp
      · simp
  | newThread => simp [step, CallsHome]
  | enter t =>
      simp only [CallsHome, not_true, iff_false, step, State.enter]
      split <;> simp
  | leave t =>
      simp only [CallsHome, not_true, iff_false, step, State.leave]
      split <;> simp
  | callRoot t stopping =>
      simp only [CallsHome, not_true, iff_false, step, State.callRoot]
      split
      · split
        · simp
        · split
          · simp
          · split
            · simp
            · split <;> simp
      · simp
  | back t =>
      simp only [CallsHome, not_true, iff_false, step, State.back]
      split
      · split <;> simp
      · simp
  | join t =>
      simp only [CallsHome, not_true, iff_false, step, State.join]
      split
      · split
        · simp
        · split
          · exact stopped_ne_noIOManager t _ _ _
          · simp
      · simp

end

/-- In every run, no hook misses its IO manager exactly where every call whose hook waits is made on a thread that has entered no `run` or whose last scheduler is an IO manager that still lives. -/
theorem never_noIOManager_iff (acts : List Action) :
    run step start acts ≠ .abort .noIOManager ↔ Along step CallsHome start acts :=
  run_ne_abort_iff_along_of_invariant (fun _ _ _ hs h => step_lifetimeInv hs h) (fun _ a hs => aborts_iff a hs)
    lifetimeInv_start acts

/-- A task of a plain scheduler sleeps on a worker; and a program that has stopped and destroyed an IO manager that used its thread sleeps. -/
theorem sleep_without_manager :
    run step start [.construct 0 false 1 false, .start 0 0, .enter 1, .call 1] = .abort .noIOManager ∧
      run step start [.construct 0 true 1 true, .destroy 0 0 false, .callRoot 0 false, .back 0, .join 0, .call 0] =
        .abort .noIOManager :=
  ⟨rfl, rfl⟩

end Awcotn.Lifetime
