import Awcotn.Scheduler.Queue
import Awcotn.Timer.Manager

/-!
# Waking idle workers

`IOManager::tickle` and its callers: `schedule` where the queue was empty, `run` where it leaves entries behind, and `onTimerInsertedAtFront`. The queue test, the `m_tickled` test, the guard of `tickle` and its write are separate steps, and the workers, which keep the idle count, go on between them.

`idle` blocks in `epoll_wait` until the pipe has a byte or a second has passed. An idle worker may do anything that `idle` does: read the pipe, ask for the next timer, collect expired ones, schedule.
-/

namespace Awcotn.Wakeup

open Transition Scheduler

/-- Where a thread stands in a call. `owes` and `drained` are not in the source: whether the call owes a wake-up, and whether an idle worker has read from the pipe since the write. -/
inductive CallPc
  | none
  /-- In `tickle`, before its guard. -/
  | guard (owes : Bool)
  /-- In `tickle`, before its write. -/
  | writing (owes : Bool)
  /-- The byte is written; the call returns next. -/
  | written (owes drained : Bool)
  deriving DecidableEq

/-- A running IO manager: its workers and their queue, its timers, the bytes in the tickle pipe, and the calls. -/
structure State (C : Type*) where
  sched : Scheduler.State C
  timers : TimerManager C
  pipe : ℕ
  call : ThreadId → CallPc

inductive Fault
  | sched (e : Scheduler.Fault)
  | timer
  deriving DecidableEq

inductive Action (C : Type*)
  /-- A thread takes a step that is modelled in `Worker.lean`. -/
  | sched (t : ThreadId) (a : Scheduler.Action C)
  /-- A thread passes a range to `schedule`. -/
  | range (t : ThreadId) (range : List (FiberOrCb C))
  | timer (t : ThreadId) (op : TimerManager.Action C)
  /-- A thread calls `tickle` for another reason, as `stop` does. -/
  | callTickle (t : ThreadId)
  /-- A thread takes its next step in `tickle`. -/
  | tickle (t : ThreadId)
  /-- An idle worker reads a byte from the pipe. -/
  | read (w : ThreadId)

variable {C : Type*}

/-- `hasIdleThreads` -/
def State.hasIdleThreads (s : State C) : Bool := 0 < s.sched.idleThreadCount

def State.setCall (s : State C) (t : ThreadId) (pc : CallPc) : State C :=
  { s with call := Function.update s.call t pc }

/-- Whether the scan of the queue passes an entry for another thread. -/
def passesPinned (fibers : FiberId → Fiber C) (w : ThreadId) : List (FiberAndThread C) → Bool
  | [] => false
  | ft :: rest =>
    if ft.thread.isSome && ft.thread != some w then true
    else if ft.fiber.any fun f => (fibers f).state == .EXEC then passesPinned fibers w rest
    else false

/-- Whether a step of the scheduler goes on to `tickle`: `need_tickle` of `schedule` and `tickle_me` of `run`. -/
def wantsTickle (s t : Scheduler.State C) (a : Scheduler.Action C) : Bool :=
  match pushed s a with
  | some ft => (s.scheduleNoLock ft).1
  | none =>
    match a with
    | .run w =>
      match s.pc w with
      | .head => passesPinned s.fibers w s.queue || !t.queue.isEmpty
      | _ => false
    | _ => false

/-- Whether an operation on the timers calls `onTimerInsertedAtFront`. -/
def insertsAtFront (m : TimerManager C) : TimerManager.Action C → Bool
  | .addTimer a ms cb recurring now => (m.addTimer a ms cb recurring now).1
  | .refresh a now => (m.refresh a now).any fun r => r.2.1
  | .reset a ms fromNow now => (m.reset a ms fromNow now).any fun r => r.2.1
  | _ => false

/-- A worker takes its own steps, and everybody schedules. -/
def mayAct (t : ThreadId) : Scheduler.Action C → Bool
  | .run w | .exit w _ | .register w => w == t
  | _ => true

/-- The queue has turned from empty to non-empty while a worker was counted idle. -/
def turned (s : State C) (sched : Scheduler.State C) : Bool :=
  s.sched.queue.isEmpty && !sched.queue.isEmpty && s.hasIdleThreads

/-- A `schedule` is past its section: it calls `tickle`, or returns. -/
def State.scheduled (s : State C) (t : ThreadId) (sched : Scheduler.State C) (needTickle : Bool) : State C :=
  { s with sched := sched }.setCall t (if needTickle then .guard (turned s sched) else .none)

/-- The next step of `tickle`. The write waits while the pipe is full. -/
def tickleStep (capacity : ℕ) (s : State C) (t : ThreadId) : Outcome Fault (State C) :=
  match s.call t with
  | .none => .disabled
  | .guard owes => if s.hasIdleThreads then .next (s.setCall t .none) else .next (s.setCall t (.writing owes))
  | .writing owes =>
    if s.pipe < capacity then .next ({ s with pipe := s.pipe + 1 }.setCall t (.written owes false)) else .disabled
  | .written _ _ => .next (s.setCall t .none)

/-- Everybody who has written is told that the pipe has been read from. -/
def CallPc.drain : CallPc → CallPc
  | .written owes _ => .written owes true
  | pc => pc

def step (workers : Finset ThreadId) (capacity : ℕ) (s : State C) : Action C → Outcome Fault (State C)
  | .sched t a =>
    if s.call t = .none ∧ mayAct t a then
      match Scheduler.step workers s.sched a with
      | .next sched => .next (s.scheduled t sched (wantsTickle s.sched sched a))
      | .abort e => .abort (.sched e)
      | .disabled => .disabled
    else .disabled
  | .range t range =>
    if s.call t = .none then
      let r := s.sched.scheduleRange range false
      .next (s.scheduled t r.2 r.1)
    else .disabled
  | .timer t op =>
    if s.call t = .none then
      match TimerManager.step s.timers op with
      | .next timers =>
        .next ({ s with timers := timers }.setCall t
          (if insertsAtFront s.timers op then .guard s.hasIdleThreads else .none))
      | .abort _ => .abort .timer
      | .disabled => .disabled
    else .disabled
  | .callTickle t => if s.call t = .none then .next (s.setCall t (.guard false)) else .disabled
  | .tickle t => tickleStep capacity s t
  | .read w =>
    match s.sched.pc w with
    | .running .idle _ =>
      if 0 < s.pipe then .next { s with pipe := s.pipe - 1, call := fun t => (s.call t).drain } else .disabled
    | _ => .disabled

/-- The workers at the top of their loops, with an empty pipe. -/
def start (workers : Finset ThreadId) (idleCb : C) (now : UInt64) : State C where
  sched := Scheduler.start workers idleCb
  timers := TimerManager.init now
  pipe := 0
  call := fun _ => .none

/-! ### What is to be shown -/

/-- The thread whose call goes on in a step. -/
def Action.caller : Action C → Option ThreadId
  | .sched t _ | .range t _ | .timer t _ | .callTickle t | .tickle t => some t
  | .read _ => none

/-- Whether the call that goes on in a step owes a wake-up: it has turned the queue from empty to non-empty, or it has called `onTimerInsertedAtFront`, while a worker was counted idle. -/
def owes (s u : State C) : Action C → Bool
  | .sched .. | .range .. => turned s u.sched
  | .timer _ op => insertsAtFront s.timers op && s.hasIdleThreads
  | .callTickle _ | .read _ => false
  | .tickle t =>
    match s.call t with
    | .none => false
    | .guard owes | .writing owes | .written owes _ => owes

/-- Whether the pipe has been read from since the call wrote to it. -/
def drained (s : State C) : Action C → Bool
  | .tickle t =>
    match s.call t with
    | .written _ drained => drained
    | _ => false
  | _ => false

/-- A call that owes a wake-up and returns in this step leaves a byte in the pipe, unless an idle worker has read from it since the write. -/
def LeavesByte (workers : Finset ThreadId) (capacity : ℕ) (s : State C) (a : Action C) : Prop :=
  ∀ u t, step workers capacity s a = .next u → a.caller = some t → u.call t = .none → owes s u a →
    0 < u.pipe ∨ drained s a

/-- A call that owes a wake-up comes to the guard of `tickle` while no worker is counted idle, or while the pipe has a byte already. -/
def FindsNobodyIdle (s : State C) : Action C → Prop
  | .tickle t => s.call t = .guard true → s.hasIdleThreads → 0 < s.pipe
  | _ => True

/-! ### The invariant -/

/-- The byte that a call has written is there until somebody reads from the pipe. -/
def WrittenInv (s : State C) : Prop := ∀ t owes, s.call t = .written owes false → 0 < s.pipe

section

variable {workers : Finset ThreadId} {capacity : ℕ} {s u : State C}

theorem writtenInv_start (workers : Finset ThreadId) (idleCb : C) (now : UInt64) :
    WrittenInv (start workers idleCb now) := nofun

theorem sched_eq_next {t : ThreadId} {a : Scheduler.Action C} (h : step workers capacity s (.sched t a) = .next u) :
    ∃ sched, Scheduler.step workers s.sched a = .next sched ∧
      u = s.scheduled t sched (wantsTickle s.sched sched a) := by
  simp only [step] at h
  split_ifs at h
  split at h
  · next sched hstep => exact ⟨sched, hstep, (Outcome.next.inj h).symm⟩
  · cases h
  · cases h

theorem range_eq_next {t : ThreadId} {range : List (Scheduler.FiberOrCb C)}
    (h : step workers capacity s (.range t range) = .next u) :
    u = s.scheduled t (s.sched.scheduleRange range false).2 (s.sched.scheduleRange range false).1 := by
  simp only [step] at h
  split_ifs at h
  exact (Outcome.next.inj h).symm

theorem timer_eq_next {t : ThreadId} {op : TimerManager.Action C}
    (h : step workers capacity s (.timer t op) = .next u) :
    ∃ timers, u = { s with timers := timers }.setCall t
      (if insertsAtFront s.timers op then .guard s.hasIdleThreads else .none) := by
  simp only [step] at h
  split at h
  · split at h
    · next timers _ => exact ⟨timers, (Outcome.next.inj h).symm⟩
    · cases h
    · cases h
  · cases h

/-- A step outside `tickle` and the loop over the pipe leaves the pipe alone and takes a call to the guard at most. -/
theorem step_call {a : Action C} (h : step workers capacity s a = .next u) (htickle : ∀ t, a ≠ .tickle t)
    (hread : ∀ w, a ≠ .read w) :
    u.pipe = s.pipe ∧ ∃ t pc, u.call = Function.update s.call t pc ∧ (pc = .none ∨ ∃ owes, pc = .guard owes) := by
  cases a with
  | sched t a =>
      obtain ⟨sched, -, rfl⟩ := sched_eq_next h
      refine ⟨rfl, t, _, rfl, ?_⟩
      split <;> simp
  | range t range =>
      obtain rfl := range_eq_next h
      refine ⟨rfl, t, _, rfl, ?_⟩
      split <;> simp
  | timer t op =>
      obtain ⟨timers, rfl⟩ := timer_eq_next h
      refine ⟨rfl, t, _, rfl, ?_⟩
      split <;> simp
  | callTickle t =>
      simp only [step] at h
      split at h
      · cases h
        exact ⟨rfl, t, _, rfl, .inr ⟨false, rfl⟩⟩
      · cases h
  | tickle t => exact absurd rfl (htickle t)
  | read w => exact absurd rfl (hread w)

/-- A call may go on to anything but having written, as long as the pipe stays as it is. -/
theorem WrittenInv.update (hs : WrittenInv s) (hpipe : u.pipe = s.pipe) {t : ThreadId} {pc : CallPc}
    (hcall : u.call = Function.update s.call t pc) (hpc : ∀ owes, pc ≠ .written owes false) : WrittenInv u := by
  intro v owes hv
  rw [hpipe]
  rw [hcall] at hv
  by_cases hvt : v = t
  · subst hvt
    rw [Function.update_self] at hv
    exact absurd hv (hpc owes)
  · rw [Function.update_of_ne hvt] at hv
    exact hs v owes hv

theorem tickleStep_writtenInv (hs : WrittenInv s) {t : ThreadId} (h : tickleStep capacity s t = .next u) :
    WrittenInv u := by
  simp only [tickleStep] at h
  split at h
  · cases h
  · split at h
    · cases h
      exact hs.update rfl rfl nofun
    · cases h
      exact hs.update rfl rfl nofun
  · split at h
    · cases h
      exact fun _ _ _ => Nat.succ_pos _
    · cases h
  · cases h
    exact hs.update rfl rfl nofun

theorem step_writtenInv (hs : WrittenInv s) {a : Action C} (h : step workers capacity s a = .next u) :
    WrittenInv u := by
  cases a with
  | tickle t => exact tickleStep_writtenInv hs h
  | read w =>
      simp only [step] at h
      split at h
      · split at h
        · cases h
          intro t owes ht
          cases hcall : s.call t <;> simp [hcall, CallPc.drain] at ht
        · cases h
      · cases h
  | _ =>
      obtain ⟨hpipe, t, pc, hcall, hpc⟩ := step_call h nofun nofun
      refine hs.update hpipe hcall fun owes => ?_
      obtain rfl | ⟨owed, rfl⟩ := hpc <;> simp

/-! ### While a worker is idle -/

/-- Nothing has been written, and nobody is past the guard of `tickle`. -/
def Unwoken (s : State C) : Prop := s.pipe = 0 ∧ ∀ t, s.call t = .none ∨ ∃ owes, s.call t = .guard owes

theorem step_unwoken (hs : Unwoken s) {a : Action C} (ha : ∀ t, a = .tickle t → s.hasIdleThreads = true)
    (h : step workers capacity s a = .next u) : Unwoken u := by
  obtain ⟨hpipe, hcalls⟩ := hs
  have hupdate : ∀ {t pc}, (pc = .none ∨ ∃ owes, pc = .guard owes) →
      ∀ v, Function.update s.call t pc v = .none ∨ ∃ owes, Function.update s.call t pc v = .guard owes := by
    intro t pc hpc v
    by_cases hvt : v = t
    · subst hvt
      rwa [Function.update_self]
    · rw [Function.update_of_ne hvt]
      exact hcalls v
  cases a with
  | tickle t =>
      have hidle := ha t rfl
      simp only [step, tickleStep] at h
      rcases hcalls t with hnone | ⟨owes, hguard⟩
      · rw [hnone] at h
        cases h
      · rw [hguard] at h
        simp only [hidle, if_true] at h
        cases h
        exact ⟨hpipe, hupdate (.inl rfl)⟩
  | read w =>
      simp only [step, hpipe, lt_self_iff_false, if_false] at h
      split at h <;> cases h
  | _ =>
      obtain ⟨hsame, t, pc, hcall, hpc⟩ := step_call h nofun nofun
      exact ⟨hsame.trans hpipe, by rw [hcall]; exact hupdate hpc⟩

/-- While every call of `tickle` finds an idle worker to wake, nothing is ever written to the pipe. -/
theorem pipe_empty_of_idle (workers : Finset ThreadId) (capacity : ℕ) (idleCb : C) (now : UInt64) (acts : List (Action C))
    (h : Along (step workers capacity) (fun s a => ∀ t, a = .tickle t → s.hasIdleThreads = true)
      (start workers idleCb now) acts) :
    Throughout (step workers capacity) (fun s => s.pipe = 0) (start workers idleCb now) acts :=
  (throughout_of_along (fun _ _ _ hs ha hstep => step_unwoken hs ha hstep) ⟨rfl, fun _ => .inl rfl⟩ h).1.mono
    fun _ hs => hs.1

/-! ### The calls that return -/

/-- A call of `schedule` that does not go on to `tickle` has not turned the queue. -/
theorem turned_of_wantsTickle {sched : Scheduler.State C} {a : Scheduler.Action C}
    (hstep : Scheduler.step workers s.sched a = .next sched) (h : wantsTickle s.sched sched a = false) :
    turned s sched = false := by
  cases hempty : s.sched.queue.isEmpty with
  | false => simp [turned, hempty]
  | true =>
      have hnil : s.sched.queue = [] := List.isEmpty_iff.1 hempty
      suffices hqueue : sched.queue = [] by simp [turned, hqueue]
      cases hpushed : pushed s.sched a with
      | some ft => simp [wantsTickle, hpushed, Scheduler.State.scheduleNoLock, hnil] at h
      | none =>
          by_cases hhead : ∃ w, a = .run w ∧ s.sched.pc w = .head
          · obtain ⟨w, rfl, hpc⟩ := hhead
            simp only [wantsTickle, hpushed, hpc, Bool.or_eq_false_iff, Bool.not_eq_false',
              List.isEmpty_iff] at h
            exact h.2
          · have hqueue := step_queue hstep fun w ha hpc => hhead ⟨w, ha, hpc⟩
            rw [hqueue, hpushed, hnil]
            rfl

/-- A range call that does not go on to `tickle` has not turned the queue either. -/
theorem turned_of_scheduleRange {range : List (FiberOrCb C)} (h : (s.sched.scheduleRange range false).1 = false) :
    turned s (s.sched.scheduleRange range false).2 = false := by
  rw [scheduleRange_fst, Bool.false_or] at h
  rw [scheduleRange_snd]
  cases hempty : s.sched.queue.isEmpty with
  | false => simp [turned, hempty]
  | true =>
      rw [hempty, Bool.true_and] at h
      have hrange : range = [] := by simpa using h
      have hnil : s.sched.queue = [] := List.isEmpty_iff.1 hempty
      simp [turned, hrange, hnil]

/-- The call of `schedule` is over only if it has not gone on to `tickle`. -/
theorem scheduled_call {t : ThreadId} {sched : Scheduler.State C} {needTickle : Bool}
    (h : (s.scheduled t sched needTickle).call t = .none) : needTickle = false := by
  cases needTickle with
  | false => rfl
  | true => simp [State.scheduled, State.setCall] at h

/-- A step leaves a byte exactly where it is not the guard that stops a call that owes one. -/
theorem leavesByte_iff (hs : WrittenInv s) (a : Action C) :
    LeavesByte workers capacity s a ↔ FindsNobodyIdle s a := by
  cases a with
  | sched t a =>
      simp only [FindsNobodyIdle, iff_true]
      rintro u _ h ⟨⟩ hover howes
      obtain ⟨sched, hstep, rfl⟩ := sched_eq_next h
      have hfalse := turned_of_wantsTickle hstep (scheduled_call hover)
      exact absurd howes (by simp [owes, State.scheduled, State.setCall, hfalse])
  | range t range =>
      simp only [FindsNobodyIdle, iff_true]
      rintro u _ h ⟨⟩ hover howes
      obtain rfl := range_eq_next h
      have hfalse := turned_of_scheduleRange (scheduled_call hover)
      exact absurd howes (by simp [owes, State.scheduled, State.setCall, hfalse])
  | timer t op =>
      simp only [FindsNobodyIdle, iff_true]
      rintro u _ h ⟨⟩ hover howes
      obtain ⟨timers, rfl⟩ := timer_eq_next h
      simp only [owes, Bool.and_eq_true] at howes
      simp [State.setCall, howes.1] at hover
  | callTickle t =>
      simp only [FindsNobodyIdle, iff_true]
      rintro u _ h ⟨⟩ hover howes
      cases howes
  | read w =>
      simp only [FindsNobodyIdle, iff_true]
      rintro u _ h ⟨⟩
  | tickle t =>
      simp only [FindsNobodyIdle, LeavesByte, step, tickleStep, Action.caller, owes, drained]
      cases hcall : s.call t with
      | none => simp
      | guard owed =>
          cases hidle : s.hasIdleThreads with
          | true => cases owed <;> simp [State.setCall]
          | false => simp [State.setCall]
      | writing owed =>
          simp only [reduceCtorEq, false_implies, iff_true]
          rintro u _ h ⟨⟩ hover
          split at h <;> cases h
          simp [State.setCall] at hover
      | written owed isDrained =>
          simp only [reduceCtorEq, false_implies, iff_true]
          rintro u _ h ⟨⟩ - -
          cases h
          cases isDrained with
          | true => exact .inr rfl
          | false => exact .inl (hs t owed hcall)

/-- The guard of `tickle` sends a call that owes a wake-up home while a worker is counted idle. -/
theorem not_leavesByte_of_guard {t : ThreadId} (hcall : s.call t = .guard true) (hidle : s.hasIdleThreads = true)
    (hpipe : s.pipe = 0) : ¬ LeavesByte workers capacity s (.tickle t) := by
  intro h
  have hstep : step workers capacity s (.tickle t) = .next (s.setCall t .none) := by
    simp only [step, tickleStep, hcall, hidle, if_true]
  have hbyte := h (s.setCall t .none) t hstep rfl (by simp [State.setCall]) (by simp [owes, hcall])
  simp [State.setCall, hpipe, drained, hcall] at hbyte

end

/-- In every run, every call that owes a wake-up leaves a byte in the pipe exactly where every such call comes to the guard of `tickle` while no worker is counted idle or the pipe has a byte already. -/
theorem leaves_byte_iff (workers : Finset ThreadId) (capacity : ℕ) (idleCb : C) (now : UInt64) (acts : List (Action C)) :
    Along (step workers capacity) (LeavesByte workers capacity) (start workers idleCb now) acts ↔
      Along (step workers capacity) FindsNobodyIdle (start workers idleCb now) acts :=
  along_congr (fun _ _ _ hs h => step_writtenInv hs h) (fun _ a hs => leavesByte_iff hs a)
    (writtenInv_start workers idleCb now) acts

/-- A worker goes idle. A thread then schedules a callback, or adds a timer, and returns from the guard of `tickle`. -/
theorem idle_worker_not_woken :
    (¬ Along (step {1} 65536) (LeavesByte {1} 65536) (start {1} () 0) [.sched 1 (.run 1), .sched 1 (.run 1),
      .sched 1 (.run 1), .sched 1 (.run 1), .sched 1 (.run 1), .sched 0 (.schedule ⟨none, some (), none⟩), .tickle 0]) ∧
    ¬ Along (step {1} 65536) (LeavesByte {1} 65536) (start {1} () 0) [.sched 1 (.run 1), .sched 1 (.run 1),
      .sched 1 (.run 1), .sched 1 (.run 1), .sched 1 (.run 1), .timer 0 (.addTimer 7 10 (some ()) false 5), .tickle 0] := by
  constructor
  · intro h
    have hprefix : run (step {1} 65536) (start {1} () 0) ([.sched 1 (.run 1), .sched 1 (.run 1), .sched 1 (.run 1),
      .sched 1 (.run 1), .sched 1 (.run 1), .sched 0 (.schedule ⟨none, some (), none⟩)] : List (Action Unit)) = .next _ := rfl
    exact not_leavesByte_of_guard rfl (by decide +kernel) rfl ((along_append hprefix).1 h).2.1
  · intro h
    have hprefix : run (step {1} 65536) (start {1} () 0) ([.sched 1 (.run 1), .sched 1 (.run 1), .sched 1 (.run 1),
      .sched 1 (.run 1), .sched 1 (.run 1), .timer 0 (.addTimer 7 10 (some ()) false 5)] : List (Action Unit)) = .next _ := rfl
    exact not_leavesByte_of_guard rfl (by decide +kernel) rfl ((along_append hprefix).1 h).2.1

end Awcotn.Wakeup
