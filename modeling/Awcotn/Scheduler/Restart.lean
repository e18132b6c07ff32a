import Awcotn.Foundation.Process
import Awcotn.Foundation.Run
import Mathlib.Algebra.BigOperators.Group.Finset.Basic
import Mathlib.Data.Fintype.Basic
import Mathlib.Data.List.Range
import Mathlib.Logic.Function.Basic

/-!
# Starting and stopping a scheduler again

`start` creates the worker threads and `stop` joins them, and a scheduler may be started again after it was stopped. Both may be called from anywhere at any time. `start` does all it does under the mutex. `stop` takes the mutex only to take the threads out of `m_threads`; it sets `m_stopping` before, without the mutex, so that a call of `start` in between finds the scheduler stopped while the threads are still there.

With `use_caller` the creator's thread is a worker as well: `stop` runs it on the root fiber, which is called where `stopping()` is still false. The fiber is never made anew, so it can be called once.

`joined_once` is about all runs: no thread is lost or joined twice, and the assertion in `start` can fail only for that reason. `whole_between_calls` is about those in which no `start` writes `m_stopping` in between and threads can be created: whenever no call is under way, a stopped scheduler has no thread, and one that is not has all its workers, none of which has left its loop.
-/

namespace Awcotn.Restart

open Transition

/-- Where a caller stands in `Scheduler::start` or `Scheduler::stop`. -/
inductive Pc
  | idle
  /-- The mutex is next. -/
  | starting
  /-- `if(!m_stopping)` is next. -/
  | examining
  /-- `m_stopping = false` is next. -/
  | writing
  /-- `AWCOTN_ASSERT(m_threads.empty())` and the resize are next. -/
  | asserting
  /-- The loop that creates the threads. -/
  | creating (i : ℕ)
  /-- `m_autoStop = true` and the test of the root fiber are next. -/
  | called
  /-- Without other workers: `m_stopping = true` is next. -/
  | early
  | earlyCheck
  /-- The assertion on the caller and `m_stopping = true` are next. -/
  | marking
  | check
  /-- `m_rootFiber->call()` is next. -/
  | calling
  /-- In the root fiber, in the loop of `run`. -/
  | rootRunning
  /-- In the root fiber, with its idle fiber finished. -/
  | rootLeaving
  /-- `thrs.swap(m_threads)` is next. -/
  | swapping
  /-- What is left to be joined; a pointer is null where no thread was created. -/
  | joining (thrs : List (Option ℕ))
  deriving DecidableEq

/-- What has become of a worker thread: its `run` is in its loop, or on its way out with its idle fiber finished, or it has returned. -/
inductive Worker
  | absent
  | running
  | leaving
  | ended
  deriving DecidableEq

/-- The states of the root fiber, which does not yield. -/
inductive RootState
  | INIT
  | EXEC
  | TERM
  deriving DecidableEq

/-- Threads are numbered as they are created. `m_rootFiber` is the state of that fiber where `use_caller` has made one. `joins` is not in the source: how often a thread was joined. -/
structure State (κ : Type*) where
  m_mutex : Option κ
  m_threads : List (Option ℕ)
  m_stopping : Bool
  m_autoStop : Bool
  m_rootFiber : RootState
  pc : κ → Pc
  worker : ℕ → Worker
  created : ℕ
  joins : ℕ → ℕ

inductive Fault
  /-- `AWCOTN_ASSERT(m_threads.empty())` in `start` -/
  | threadsLeft
  /-- `AWCOTN_ASSERT` on `GetThis()` in `stop` -/
  | wrongThread
  /-- `AWCOTN_ASSERT2(false, "never reach ...")` of `CallerMainFunc` -/
  | neverReach
  /-- The root fiber is called while it runs. What comes of it is not modelled. -/
  | calledTwice
  /-- `i->join()` through a null pointer -/
  | nullThread
  deriving DecidableEq

inductive Action (κ : Type*)
  | start (c : κ)
  | stop (c : κ)
  /-- A caller takes its next step. `choice` is what `stopping()` asks beyond the two flags, and whether a thread can be created. -/
  | advance (c : κ) (choice : Bool)
  /-- `stopping()` has returned true in the worker's idle fiber. -/
  | leave (i : ℕ)
  | finish (i : ℕ)

variable {κ : Type*} [DecidableEq κ]

/-- A scheduler that has been constructed. -/
def start : State κ where
  m_mutex := none
  m_threads := []
  m_stopping := true
  m_autoStop := false
  m_rootFiber := .INIT
  pc := fun _ => .idle
  worker := fun _ => .absent
  created := 0
  joins := fun _ => 0

/-- The caller goes on at another point. -/
def State.move (s : State κ) (c : κ) (point : Pc) : State κ := { s with pc := Function.update s.pc c point }

/-- The next step of a caller. `rooted` says whether the scheduler uses its creator's thread, and `inside` of which callers `GetThis()` is this scheduler. The tickles wake workers, which does nothing here. -/
def advance (m_threadCount : ℕ) (rooted : Bool) (inside : κ → Bool) (s : State κ) (c : κ) (choice : Bool) :
    Outcome Fault (State κ) :=
  match s.pc c with
  | .idle => .disabled
  | .starting => if s.m_mutex = none then .next { s.move c .examining with m_mutex := some c } else .disabled
  | .examining => .next (if s.m_stopping then s.move c .writing else { s.move c .idle with m_mutex := none })
  | .writing => .next { s.move c .asserting with m_stopping := false }
  | .asserting =>
    if s.m_threads.isEmpty then .next { s.move c (.creating 0) with m_threads := List.replicate m_threadCount none }
    else .abort .threadsLeft
  | .creating i =>
    if i < m_threadCount ∧ choice then
      .next { s.move c (.creating (i + 1)) with
        m_threads := s.m_threads.set i (some s.created)
        worker := Function.update s.worker s.created .running
        created := s.created + 1 }
    -- The loop is over, or the constructor of `Thread` has thrown; the lock is released in both cases.
    else .next { s.move c .idle with m_mutex := none }
  | .called =>
    let fresh := s.m_rootFiber = .TERM ∨ s.m_rootFiber = .INIT
    .next { s.move c (if rooted ∧ m_threadCount = 0 ∧ fresh then .early else .marking) with m_autoStop := true }
  | .early => .next { s.move c .earlyCheck with m_stopping := true }
  | .earlyCheck =>
    if s.m_mutex = none then .next (s.move c (if s.m_autoStop && s.m_stopping && choice then .idle else .marking)) else .disabled
  | .marking =>
    if inside c = rooted then .next { s.move c (if rooted then .check else .swapping) with m_stopping := true }
    else .abort .wrongThread
  | .check =>
    if s.m_mutex = none then .next (s.move c (if s.m_autoStop && s.m_stopping && choice then .swapping else .calling))
    else .disabled
  | .calling =>
    match s.m_rootFiber with
    | .INIT => .next { s.move c .rootRunning with m_rootFiber := .EXEC }
    | .EXEC => .abort .calledTwice
    | .TERM => .abort .neverReach
  | .rootRunning => if s.m_mutex = none ∧ s.m_autoStop ∧ s.m_stopping then .next (s.move c .rootLeaving) else .disabled
  | .rootLeaving => .next { s.move c .swapping with m_rootFiber := .TERM }
  | .swapping => if s.m_mutex = none then .next { s.move c (.joining s.m_threads) with m_threads := [] } else .disabled
  | .joining [] => .next (s.move c .idle)
  | .joining (none :: _) => .abort .nullThread
  | .joining (some i :: thrs) =>
    if s.worker i = .ended then .next { s.move c (.joining thrs) with joins := Function.update s.joins i (s.joins i + 1) }
    else .disabled

/-- Calls of `start` and `stop`, their steps, and the ends of the workers. -/
def step (m_threadCount : ℕ) (rooted : Bool) (inside : κ → Bool) (s : State κ) : Action κ → Outcome Fault (State κ)
  | .start c => if s.pc c = .idle then .next (s.move c .starting) else .disabled
  | .stop c => if s.pc c = .idle then .next (s.move c .called) else .disabled
  | .advance c choice => advance m_threadCount rooted inside s c choice
  | .leave i =>
    if s.worker i = .running ∧ s.m_mutex = none ∧ s.m_autoStop ∧ s.m_stopping then
      .next { s with worker := Function.update s.worker i .leaving }
    else .disabled
  | .finish i => if s.worker i = .leaving then .next { s with worker := Function.update s.worker i .ended } else .disabled

/-! ### What is to hold -/

/-- The caller has the mutex. -/
def Pc.locked : Pc → Bool
  | .examining | .writing | .asserting | .creating _ => true
  | _ => false

/-- The call of `stop` has set `m_stopping` and not yet taken the threads. -/
def Pc.marked : Pc → Bool
  | .check | .calling | .rootRunning | .rootLeaving | .swapping => true
  | _ => false

/-- The call of `stop` is between its `m_stopping = true` and the end of the root fiber. -/
def Pc.inRoot : Pc → Bool
  | .check | .calling | .rootRunning | .rootLeaving => true
  | _ => false

/-- The threads the caller is about to join. -/
def Pc.taken : Pc → List (Option ℕ)
  | .joining thrs => thrs
  | _ => []

@[simp] theorem Pc.taken_joining (thrs : List (Option ℕ)) : (Pc.joining thrs).taken = thrs := rfl

@[simp] theorem Pc.taken_swapping : Pc.swapping.taken = [] := rfl

/-- In how many places a thread is: in `m_threads`, with a call of `stop` that is to join it, or joined. -/
def places [Fintype κ] (s : State κ) (i : ℕ) : ℕ :=
  s.m_threads.count (some i) + ∑ c, (s.pc c).taken.count (some i) + s.joins i

/-- The thread has returned and was joined, once. -/
def Gone (s : State κ) (i : ℕ) : Prop := s.worker i = .ended ∧ s.joins i = 1

/-- Stopped with all threads gone, or with the latest `m_threadCount` threads in their loops and all others gone. -/
def Whole (m_threadCount : ℕ) (s : State κ) : Prop :=
  if s.m_stopping then s.m_threads = [] ∧ ∀ i < s.created, Gone s i
  else ∃ first, s.created = first + m_threadCount ∧ s.m_threads = (List.range' first m_threadCount).map some ∧
    (∀ i, first ≤ i → i < s.created → s.worker i = .running) ∧ ∀ i < first, Gone s i

/-- `start` does not write `m_stopping` while a call of `stop` has set it and not yet taken the threads, and threads can be created. -/
def Orderly (m_threadCount : ℕ) (s : State κ) : Action κ → Prop
  | .advance c choice =>
    (s.pc c = .writing → ∀ d, (s.pc d).marked = false) ∧ ∀ i < m_threadCount, s.pc c = .creating i → choice = true
  | _ => True

instance decidableOrderly [Fintype κ] (m_threadCount : ℕ) (s : State κ) : (a : Action κ) → Decidable (Orderly m_threadCount s a)
  | .advance c choice => inferInstanceAs (Decidable ((s.pc c = .writing → ∀ d, (s.pc d).marked = false) ∧
      ∀ i < m_threadCount, s.pc c = .creating i → choice = true))
  | .start _ | .stop _ | .leave _ | .finish _ => .isTrue trivial

/-! ### The threads in `m_threads` -/

/-- `m_threads` when the loop of `start` has created `i` threads, numbered from `first`. -/
def rack (m_threadCount first i : ℕ) : List (Option ℕ) :=
  (List.range' first i).map some ++ List.replicate (m_threadCount - i) none

variable {m_threadCount : ℕ}

theorem rack_zero (first : ℕ) : rack m_threadCount first 0 = List.replicate m_threadCount none := by
  simp [rack]

theorem rack_full (first : ℕ) : rack m_threadCount first m_threadCount = (List.range' first m_threadCount).map some := by
  simp [rack]

theorem length_rack {first i : ℕ} (hi : i ≤ m_threadCount) : (rack m_threadCount first i).length = m_threadCount := by
  simp only [rack, List.length_append, List.length_map, List.length_range', List.length_replicate]
  omega

theorem set_rack {first i : ℕ} (hi : i < m_threadCount) :
    (rack m_threadCount first i).set i (some (first + i)) = rack m_threadCount first (i + 1) := by
  obtain ⟨k, hk⟩ : ∃ k, m_threadCount - i = k + 1 := ⟨m_threadCount - i - 1, by omega⟩
  have hrest : m_threadCount - (i + 1) = k := by omega
  rw [rack, rack, hk, hrest, List.replicate_succ, List.set_append_right _ _ (by simp)]
  simp [List.range'_concat]

theorem count_rack_succ (first i j : ℕ) :
    (rack m_threadCount first (i + 1)).count (some j) =
      (rack m_threadCount first i).count (some j) + if j = first + i then 1 else 0 := by
  simp only [rack, List.range'_concat, List.map_append, List.count_append, List.count_replicate, List.map_cons, List.map_nil,
    List.count_singleton, one_mul]
  by_cases hj : j = first + i
  · simp [hj]
  · simp [hj, Ne.symm hj]

theorem mem_rack {first i j : ℕ} : some j ∈ rack m_threadCount first i ↔ first ≤ j ∧ j < first + i := by
  simp [rack]

theorem none_notMem_rack (first : ℕ) : none ∉ rack m_threadCount first m_threadCount := by
  simp [rack]

/-! ### Steps -/

variable {rooted : Bool} {inside : κ → Bool} {s t : State κ} {c : κ} {point : Pc}

/-- A caller goes on from one point to another and leaves the threads as they are. -/
structure Quiet (m_threadCount : ℕ) (s : State κ) (c : κ) (point : Pc) (m : Option κ) : Prop where
  mutex : m = s.m_mutex ∨ s.m_mutex = none ∨ (s.pc c).locked = true
  locked : point.locked = true → m = some c ∨ m = s.m_mutex ∧ (s.pc c).locked = true
  taken : (s.pc c).taken = [] ∧ point.taken = []
  marked : point.marked = (s.pc c).marked
  early : point = .early → m_threadCount = 0
  writing : point = .writing → s.m_stopping = true
  asserting : s.pc c ≠ .asserting ∧ point ≠ .asserting
  creating : ∀ i, point ≠ .creating i

/-- What a step of a caller can do. -/
inductive Moves (m_threadCount : ℕ) (s : State κ) (c : κ) (choice : Bool) : State κ → Prop
  | quiet (point : Pc) (m : Option κ) (b : Bool) (r : RootState) (h : Quiet m_threadCount s c point m)
      (hpc : ∀ i, s.pc c ≠ .creating i) :
      Moves m_threadCount s c choice { s.move c point with m_mutex := m, m_autoStop := b, m_rootFiber := r }
  | write (hpc : s.pc c = .writing) : Moves m_threadCount s c choice { s.move c .asserting with m_stopping := false }
  | reserve (hpc : s.pc c = .asserting) (hempty : s.m_threads = []) :
      Moves m_threadCount s c choice { s.move c (.creating 0) with m_threads := List.replicate m_threadCount none }
  | create (i : ℕ) (hpc : s.pc c = .creating i) (hi : i < m_threadCount) :
      Moves m_threadCount s c choice { s.move c (.creating (i + 1)) with
        m_threads := s.m_threads.set i (some s.created)
        worker := Function.update s.worker s.created .running
        created := s.created + 1 }
  | finish (i : ℕ) (hpc : s.pc c = .creating i) (hi : i < m_threadCount → choice = false) :
      Moves m_threadCount s c choice { s.move c .idle with m_mutex := none }
  | mark (point : Pc) (hpc : s.pc c = .early ∧ point = .earlyCheck ∨ s.pc c = .marking ∧ (point = .check ∨ point = .swapping)) :
      Moves m_threadCount s c choice { s.move c point with m_stopping := true }
  | swap (hpc : s.pc c = .swapping) (hm : s.m_mutex = none) :
      Moves m_threadCount s c choice { s.move c (.joining s.m_threads) with m_threads := [] }
  | join (i : ℕ) (thrs : List (Option ℕ)) (hpc : s.pc c = .joining (some i :: thrs)) (hended : s.worker i = .ended) :
      Moves m_threadCount s c choice { s.move c (.joining thrs) with joins := Function.update s.joins i (s.joins i + 1) }

omit [DecidableEq κ] in
theorem quiet_of_call (hpc : s.pc c = .idle) (hpoint : point = .starting ∨ point = .called) :
    Quiet m_threadCount s c point s.m_mutex := by
  rcases hpoint with rfl | rfl
  · constructor <;> simp [hpc, Pc.locked, Pc.taken, Pc.marked]
  · constructor <;> simp [hpc, Pc.locked, Pc.taken, Pc.marked]

omit [DecidableEq κ] in
theorem quiet_of_created {i : ℕ} (hpc : s.pc c = .creating i) : Quiet m_threadCount s c .idle none := by
  constructor <;> simp [hpc, Pc.locked, Pc.taken, Pc.marked]

theorem moves_of_advance {choice : Bool} (hstep : advance m_threadCount rooted inside s c choice = .next t) :
    Moves m_threadCount s c choice t := by
  rw [advance] at hstep
  cases hpc : s.pc c with
  | idle =>
      rw [hpc] at hstep
      cases hstep
  | starting =>
      simp only [hpc] at hstep
      split_ifs at hstep with hm
      cases hstep
      refine .quiet .examining (some c) s.m_autoStop s.m_rootFiber ?_ (by simp [hpc])
      constructor <;> simp [hpc, hm, Pc.taken, Pc.marked]
  | examining =>
      simp only [hpc] at hstep
      cases hstep
      split_ifs with hstopping
      · refine .quiet .writing s.m_mutex s.m_autoStop s.m_rootFiber ?_ (by simp [hpc])
        constructor <;> simp [hpc, hstopping, Pc.locked, Pc.taken, Pc.marked]
      · refine .quiet .idle none s.m_autoStop s.m_rootFiber ?_ (by simp [hpc])
        constructor <;> simp [hpc, Pc.locked, Pc.taken, Pc.marked]
  | writing =>
      simp only [hpc] at hstep
      cases hstep
      exact .write hpc
  | asserting =>
      simp only [hpc] at hstep
      split_ifs at hstep with hempty
      cases hstep
      exact .reserve hpc (List.isEmpty_iff.1 hempty)
  | creating i =>
      simp only [hpc] at hstep
      split_ifs at hstep with hi
      · cases hstep
        exact .create i hpc hi.1
      · cases hstep
        exact .finish i hpc fun hlt => by simpa [hlt] using hi
  | called =>
      simp only [hpc] at hstep
      cases hstep
      refine .quiet _ s.m_mutex true s.m_rootFiber ?_ (by simp [hpc])
      split_ifs with hearly
      · constructor <;> simp [hpc, hearly, Pc.locked, Pc.taken, Pc.marked]
      · constructor <;> simp [hpc, Pc.locked, Pc.taken, Pc.marked]
  | early =>
      simp only [hpc] at hstep
      cases hstep
      exact .mark _ (.inl ⟨hpc, rfl⟩)
  | earlyCheck =>
      simp only [hpc] at hstep
      split_ifs at hstep with hm hquiet
      · cases hstep
        refine .quiet _ s.m_mutex s.m_autoStop s.m_rootFiber ?_ (by simp [hpc])
        constructor <;> simp [hpc, Pc.locked, Pc.taken, Pc.marked]
      · cases hstep
        refine .quiet _ s.m_mutex s.m_autoStop s.m_rootFiber ?_ (by simp [hpc])
        constructor <;> simp [hpc, Pc.locked, Pc.taken, Pc.marked]
  | marking =>
      simp only [hpc] at hstep
      split_ifs at hstep with hinside hrooted
      · cases hstep
        exact .mark _ (.inr ⟨hpc, .inl rfl⟩)
      · cases hstep
        exact .mark _ (.inr ⟨hpc, .inr rfl⟩)
  | check =>
      simp only [hpc] at hstep
      split_ifs at hstep with hm hquiet
      · cases hstep
        refine .quiet _ s.m_mutex s.m_autoStop s.m_rootFiber ?_ (by simp [hpc])
        constructor <;> simp [hpc, Pc.locked, Pc.taken, Pc.marked]
      · cases hstep
        refine .quiet _ s.m_mutex s.m_autoStop s.m_rootFiber ?_ (by simp [hpc])
        constructor <;> simp [hpc, Pc.locked, Pc.taken, Pc.marked]
  | calling =>
      simp only [hpc] at hstep
      split at hstep
      · cases hstep
        refine .quiet .rootRunning s.m_mutex s.m_autoStop .EXEC ?_ (by simp [hpc])
        constructor <;> simp [hpc, Pc.locked, Pc.taken, Pc.marked]
      · cases hstep
      · cases hstep
  | rootRunning =>
      simp only [hpc] at hstep
      split_ifs at hstep with hquiet
      cases hstep
      refine .quiet .rootLeaving s.m_mutex s.m_autoStop s.m_rootFiber ?_ (by simp [hpc])
      constructor <;> simp [hpc, Pc.locked, Pc.taken, Pc.marked]
  | rootLeaving =>
      simp only [hpc] at hstep
      cases hstep
      refine .quiet .swapping s.m_mutex s.m_autoStop .TERM ?_ (by simp [hpc])
      constructor <;> simp [hpc, Pc.locked, Pc.taken, Pc.marked]
  | swapping =>
      simp only [hpc] at hstep
      split_ifs at hstep with hm
      cases hstep
      exact .swap hpc hm
  | joining thrs =>
      cases thrs with
      | nil =>
          simp only [hpc] at hstep
          cases hstep
          refine .quiet .idle s.m_mutex s.m_autoStop s.m_rootFiber ?_ (by simp [hpc])
          constructor <;> simp [hpc, Pc.locked, Pc.taken, Pc.marked]
      | cons thr thrs =>
          cases thr with
          | none =>
              simp only [hpc] at hstep
              cases hstep
          | some i =>
              simp only [hpc] at hstep
              split_ifs at hstep with hended
              cases hstep
              exact .join i thrs hpc hended

/-! ### Where the threads are -/

/-- The loop of `start` has created `i` threads. -/
def Built (m_threadCount : ℕ) (s : State κ) (i : ℕ) : Prop :=
  i ≤ m_threadCount ∧ ∃ first, s.created = first + i ∧ s.m_threads = rack m_threadCount first i

/-- What holds in every run. -/
structure Inv [Fintype κ] (m_threadCount : ℕ) (s : State κ) : Prop where
  lock : ∀ c, (s.pc c).locked = true → s.m_mutex = some c
  early : ∀ c, s.pc c = .early → m_threadCount = 0
  creating : ∀ c i, s.pc c = .creating i → Built m_threadCount s i
  length : s.m_threads = [] ∨ s.m_threads.length = m_threadCount
  places : ∀ i, places s i = if i < s.created then 1 else 0
  joined : ∀ i, s.joins i ≠ 0 → s.worker i = .ended
  writing : ∀ c, s.pc c = .writing → s.m_stopping = true
  asserting : ∀ c, s.pc c = .asserting → (∀ d, (s.pc d).marked = false) → s.m_threads = []
  cleared : s.m_stopping = true → (∀ c, (s.pc c).marked = false) →
    s.m_threads = [] ∧ (m_threadCount = 0 ∨ ∀ c, s.pc c ≠ .asserting)

omit [DecidableEq κ] in
theorem start_inv [Fintype κ] : Inv m_threadCount (start : State κ) := by
  constructor <;> simp [start, Pc.locked, Restart.places, Pc.taken]

/-- The mutex passes from nobody or to nobody, or its holder goes on. -/
theorem lock_move (h : ∀ d, (s.pc d).locked = true → s.m_mutex = some d) {m : Option κ}
    (hm : m = s.m_mutex ∨ s.m_mutex = none ∨ (s.pc c).locked = true) (hpoint : point.locked = true → m = some c) (d : κ)
    (hd : (Function.update s.pc c point d).locked = true) : m = some d := by
  by_cases hdc : d = c
  · subst hdc
    rw [Function.update_self] at hd
    exact hpoint hd
  · rw [Function.update_of_ne hdc] at hd
    rcases hm with hm | hm | hm
    · exact hm.trans (h d hd)
    · simp [hm] at h
      simp [h d] at hd
    · have hsame : some d = some c := (h d hd).symm.trans (h c hm)
      exact absurd (Option.some.inj hsame) hdc

/-- What holds at a point holds after one caller has moved, if it holds of that caller. -/
theorem forall_move {P : κ → Pc → Prop} (h : ∀ d, P d (s.pc d)) (hc : P c point) (d : κ) :
    P d (Function.update s.pc c point d) := by
  by_cases hdc : d = c
  · subst hdc
    rwa [Function.update_self]
  · rw [Function.update_of_ne hdc]
    exact h d

theorem marked_move (hmarked : (s.pc c).marked = true → point.marked = true)
    (h : ∀ d, (Function.update s.pc c point d).marked = false) (d : κ) : (s.pc d).marked = false := by
  by_cases hdc : d = c
  · subst hdc
    have hpoint := h d
    rw [Function.update_self] at hpoint
    rw [Bool.eq_false_iff]
    intro hd
    rw [hmarked hd] at hpoint
    cases hpoint
  · have hd := h d
    rwa [Function.update_of_ne hdc] at hd

section

variable [Fintype κ]

theorem sum_move (s : State κ) (c : κ) (point : Pc) (i : ℕ) :
    ∑ d, (Function.update s.pc c point d).taken.count (some i) + (s.pc c).taken.count (some i) =
      ∑ d, (s.pc d).taken.count (some i) + point.taken.count (some i) :=
  Process.sum_update (Finset.mem_univ c) (fun p : Pc => p.taken.count (some i)) s.pc point

theorem sum_move_of_empty (hpc : (s.pc c).taken = []) (hpoint : point.taken = []) (i : ℕ) :
    ∑ d, (Function.update s.pc c point d).taken.count (some i) = ∑ d, (s.pc d).taken.count (some i) := by
  simpa [hpc, hpoint] using sum_move s c point i

theorem Inv.keep_early (h : Inv m_threadCount s) (hpoint : point = .early → m_threadCount = 0) (d : κ)
    (hd : Function.update s.pc c point d = .early) : m_threadCount = 0 :=
  forall_move (P := fun _ p => p = .early → m_threadCount = 0) h.early hpoint d hd

theorem Inv.keep_creating (h : Inv m_threadCount s) (hpoint : ∀ i, point ≠ .creating i) (d : κ) (i : ℕ)
    (hd : Function.update s.pc c point d = .creating i) : Built m_threadCount s i :=
  forall_move (P := fun _ p => ∀ i, p = .creating i → Built m_threadCount s i) h.creating (fun i hi => absurd hi (hpoint i)) d i hd

theorem Inv.keep_writing (h : Inv m_threadCount s) (hpoint : point = .writing → s.m_stopping = true) (d : κ)
    (hd : Function.update s.pc c point d = .writing) : s.m_stopping = true :=
  forall_move (P := fun _ p => p = .writing → s.m_stopping = true) h.writing hpoint d hd

theorem Inv.keep_asserting (h : Inv m_threadCount s) (hmarked : (s.pc c).marked = true → point.marked = true)
    (hpoint : point ≠ .asserting) (d : κ) (hd : Function.update s.pc c point d = .asserting)
    (hnone : ∀ e, (Function.update s.pc c point e).marked = false) : s.m_threads = [] :=
  forall_move (P := fun _ p => p = .asserting → s.m_threads = [])
    (fun e he => h.asserting e he (marked_move hmarked hnone)) (fun hp => absurd hp hpoint) d hd

theorem Inv.keep_cleared (h : Inv m_threadCount s) (hmarked : (s.pc c).marked = true → point.marked = true)
    (hpoint : point ≠ .asserting) (hstopping : s.m_stopping = true)
    (hnone : ∀ e, (Function.update s.pc c point e).marked = false) :
    s.m_threads = [] ∧ (m_threadCount = 0 ∨ ∀ d, Function.update s.pc c point d ≠ .asserting) := by
  obtain ⟨hthreads, hrest⟩ := h.cleared hstopping (marked_move hmarked hnone)
  exact ⟨hthreads, hrest.imp_right fun hrest => forall_move (P := fun _ p => p ≠ .asserting) hrest hpoint⟩

theorem Inv.quiet (h : Inv m_threadCount s) {m : Option κ} {b : Bool} {r : RootState}
    (hquiet : Quiet m_threadCount s c point m) :
    Inv m_threadCount { s.move c point with m_mutex := m, m_autoStop := b, m_rootFiber := r } where
  lock := by
    refine lock_move h.lock hquiet.mutex fun hpoint => ?_
    rcases hquiet.locked hpoint with hm | ⟨hm, hlocked⟩
    · exact hm
    · exact hm.trans (h.lock c hlocked)
  early := h.keep_early hquiet.early
  creating := h.keep_creating hquiet.creating
  length := h.length
  places i := by
    refine Eq.trans ?_ (h.places i)
    simp only [Restart.places, State.move]
    rw [sum_move_of_empty hquiet.taken.1 hquiet.taken.2]
  joined := h.joined
  writing := h.keep_writing hquiet.writing
  asserting := h.keep_asserting hquiet.marked.trans hquiet.asserting.2
  cleared := h.keep_cleared hquiet.marked.trans hquiet.asserting.2

omit [DecidableEq κ] in
/-- Nobody is in the critical section but the holder of the mutex. -/
theorem Inv.unlocked (h : Inv m_threadCount s) (hm : s.m_mutex = none) (d : κ) : (s.pc d).locked = false := by
  rw [Bool.eq_false_iff]
  intro hd
  have hsome := h.lock d hd
  rw [hm] at hsome
  cases hsome

omit [DecidableEq κ] in
theorem Inv.unlocked_of_ne (h : Inv m_threadCount s) (hc : (s.pc c).locked = true) {d : κ} (hd : d ≠ c) :
    (s.pc d).locked = false := by
  rw [Bool.eq_false_iff]
  intro hlocked
  exact hd (Option.some.inj ((h.lock d hlocked).symm.trans (h.lock c hc)))

theorem Inv.creating_move (h : Inv m_threadCount s) (hc : (s.pc c).locked = true) {P : ℕ → Prop}
    (hpoint : ∀ i, point = .creating i → P i) (d : κ) (i : ℕ) (hd : Function.update s.pc c point d = .creating i) : P i := by
  by_cases hdc : d = c
  · subst hdc
    exact hpoint i (by rwa [Function.update_self] at hd)
  · rw [Function.update_of_ne hdc] at hd
    have hfree := h.unlocked_of_ne hc hdc
    rw [hd] at hfree
    cases hfree

/-- Where the holder of the mutex goes on, nobody is at another point in the critical section. -/
theorem Inv.alone (h : Inv m_threadCount s) (hc : (s.pc c).locked = true) {p : Pc} (hp : p.locked = true) (hpoint : point ≠ p)
    (d : κ) : Function.update s.pc c point d ≠ p := by
  by_cases hdc : d = c
  · subst hdc
    rwa [Function.update_self]
  · rw [Function.update_of_ne hdc]
    rintro rfl
    rw [h.unlocked_of_ne hc hdc] at hp
    cases hp

/-- `start` sets `m_stopping` to false. -/
theorem Inv.write (h : Inv m_threadCount s) (hpc : s.pc c = .writing) :
    Inv m_threadCount { s.move c .asserting with m_stopping := false } where
  lock := lock_move h.lock (.inl rfl) fun _ => h.lock c (by simp [hpc, Pc.locked])
  early := h.keep_early (by simp)
  creating := h.keep_creating (by simp)
  length := h.length
  places i := by
    refine Eq.trans ?_ (h.places i)
    simp only [Restart.places, State.move]
    rw [sum_move_of_empty (by simp [hpc, Pc.taken]) rfl]
  joined := h.joined
  writing d hd := absurd hd (h.alone (by simp [hpc, Pc.locked]) rfl (by simp) d)
  asserting _ _ hnone := (h.cleared (h.writing c hpc) (marked_move (by simp [hpc, Pc.marked]) hnone)).1
  cleared hstopping := by cases hstopping

/-- `start` makes room for the threads. -/
theorem Inv.reserve (h : Inv m_threadCount s) (hpc : s.pc c = .asserting) (hthreads : s.m_threads = []) :
    Inv m_threadCount { s.move c (.creating 0) with m_threads := List.replicate m_threadCount none } where
  lock := lock_move h.lock (.inl rfl) fun _ => h.lock c (by simp [hpc, Pc.locked])
  early := h.keep_early (by simp)
  creating := by
    refine h.creating_move (by simp [hpc, Pc.locked]) fun i hi => ?_
    cases hi
    exact ⟨Nat.zero_le _, s.created, rfl, (rack_zero _).symm⟩
  length := .inr List.length_replicate
  places i := by
    refine Eq.trans ?_ (h.places i)
    simp only [Restart.places, State.move, hthreads, List.count_nil, List.count_replicate]
    rw [sum_move_of_empty (by simp [hpc, Pc.taken]) rfl]
    simp
  joined := h.joined
  writing := h.keep_writing (by simp)
  asserting d hd := absurd hd (h.alone (by simp [hpc, Pc.locked]) rfl (by simp) d)
  cleared hstopping hnone := by
    obtain ⟨-, hrest⟩ := h.cleared hstopping (marked_move (by simp [hpc, Pc.marked]) hnone)
    rcases hrest with hzero | hrest
    · exact ⟨by simp [hzero], .inl hzero⟩
    · exact absurd hpc (hrest c)

/-- `start` creates a thread. -/
theorem Inv.create (h : Inv m_threadCount s) {i : ℕ} (hpc : s.pc c = .creating i) (hi : i < m_threadCount) :
    Inv m_threadCount { s.move c (.creating (i + 1)) with
      m_threads := s.m_threads.set i (some s.created)
      worker := Function.update s.worker s.created .running
      created := s.created + 1 } := by
  obtain ⟨hle, first, hcreated, hthreads⟩ := h.creating c i hpc
  have hset : s.m_threads.set i (some s.created) = rack m_threadCount first (i + 1) := by rw [hthreads, hcreated, set_rack hi]
  refine ⟨?_, ?_, ?_, ?_, ?_, ?_, ?_, ?_, ?_⟩
  · exact lock_move h.lock (.inl rfl) fun _ => h.lock c (by simp [hpc, Pc.locked])
  · exact h.keep_early (by simp)
  · refine h.creating_move (by simp [hpc, Pc.locked]) fun j hj => ?_
    cases hj
    exact ⟨hi, first, by simp [hcreated, Nat.add_assoc], hset⟩
  · right
    change (s.m_threads.set i (some s.created)).length = m_threadCount
    rw [hset, length_rack hi]
  · intro j
    have hplaces := h.places j
    simp only [Restart.places, State.move] at hplaces ⊢
    rw [sum_move_of_empty (by simp [hpc, Pc.taken]) rfl, hset, count_rack_succ, ← hthreads, ← hcreated]
    split_ifs at hplaces ⊢ <;> omega
  · intro j hj
    change Function.update s.worker s.created .running j = .ended
    have hne : j ≠ s.created := by
      rintro rfl
      have hplaces := h.places s.created
      simp only [Restart.places, lt_irrefl, if_false] at hplaces
      change s.joins s.created ≠ 0 at hj
      omega
    rw [Function.update_of_ne hne]
    exact h.joined j hj
  · exact h.keep_writing (by simp)
  · exact fun d hd => absurd hd (h.alone (by simp [hpc, Pc.locked]) rfl (by simp) d)
  · intro hstopping hnone
    obtain ⟨hempty, -⟩ := h.cleared hstopping (marked_move (by simp [hpc, Pc.marked]) hnone)
    have hlength : (rack m_threadCount first i).length = m_threadCount := length_rack hle
    rw [← hthreads, hempty] at hlength
    simp only [List.length_nil] at hlength
    omega

omit [Fintype κ] [DecidableEq κ] in
/-- Where `stop` sets `m_stopping` it has no threads yet and is not in the critical section. -/
theorem point_of_mark
    (hpc : s.pc c = .early ∧ point = .earlyCheck ∨ s.pc c = .marking ∧ (point = .check ∨ point = .swapping)) :
    ((s.pc c).taken = [] ∧ point.taken = []) ∧ (s.pc c).marked = false ∧ point ≠ .early ∧
      (s.pc c).locked = false ∧ point.locked = false := by
  rcases hpc with ⟨hpc, rfl⟩ | ⟨hpc, rfl | rfl⟩ <;> simp [hpc, Pc.taken, Pc.marked, Pc.locked]

theorem ne_of_locked {p q : Pc} (hp : p.locked = false) (hq : q.locked = true) : p ≠ q := by
  rintro rfl
  rw [hp] at hq
  cases hq

/-- `stop` sets `m_stopping`. -/
theorem Inv.mark (h : Inv m_threadCount s)
    (hpc : s.pc c = .early ∧ point = .earlyCheck ∨ s.pc c = .marking ∧ (point = .check ∨ point = .swapping)) :
    Inv m_threadCount { s.move c point with m_stopping := true } := by
  obtain ⟨hempty, hunmarked, hearly, -, hfree⟩ := point_of_mark hpc
  refine ⟨?_, ?_, ?_, h.length, ?_, h.joined, fun _ _ => rfl, ?_, ?_⟩
  · exact lock_move h.lock (.inl rfl) (by simp [hfree])
  · exact h.keep_early fun hpoint => absurd hpoint hearly
  · exact h.keep_creating fun i => ne_of_locked hfree rfl
  · intro i
    refine Eq.trans ?_ (h.places i)
    simp only [Restart.places, State.move]
    rw [sum_move_of_empty hempty.1 hempty.2]
  · exact h.keep_asserting (by simp [hunmarked]) (ne_of_locked hfree rfl)
  · intro _ hnone
    have hmarked : point.marked = false := by simpa [State.move] using hnone c
    rcases hpc with ⟨hpc, -⟩ | ⟨-, rfl | rfl⟩
    · have hzero := h.early c hpc
      exact ⟨h.length.elim id fun hlength => List.length_eq_zero_iff.1 (hlength.trans hzero), .inl hzero⟩
    · cases hmarked
    · cases hmarked

/-- `stop` takes the threads. -/
theorem Inv.swap (h : Inv m_threadCount s) (hpc : s.pc c = .swapping) (hm : s.m_mutex = none) :
    Inv m_threadCount { s.move c (.joining s.m_threads) with m_threads := [] } where
  lock := lock_move h.lock (.inl rfl) (by simp [Pc.locked])
  early := h.keep_early (by simp)
  creating := by
    refine fun d i hd => absurd hd (forall_move (P := fun _ p => p ≠ .creating i) (fun e he => ?_) (by simp) d)
    have hfree := h.unlocked hm e
    rw [he] at hfree
    cases hfree
  length := .inl rfl
  places i := by
    have hsum := sum_move s c (.joining s.m_threads) i
    simp only [hpc, Pc.taken_joining, Pc.taken_swapping, List.count_nil, add_zero] at hsum
    refine Eq.trans ?_ (h.places i)
    simp only [Restart.places, State.move, List.count_nil, zero_add]
    rw [hsum, add_comm (∑ d, _)]
  joined := h.joined
  writing := h.keep_writing (by simp)
  asserting _ _ _ := rfl
  cleared _ _ := by
    refine ⟨rfl, .inr (forall_move (P := fun _ p => p ≠ .asserting) (fun d hd => ?_) (by simp))⟩
    have hfree := h.unlocked hm d
    rw [hd] at hfree
    cases hfree

/-- `stop` joins a thread that has ended. -/
theorem Inv.join (h : Inv m_threadCount s) {i : ℕ} {thrs : List (Option ℕ)} (hpc : s.pc c = .joining (some i :: thrs))
    (hended : s.worker i = .ended) :
    Inv m_threadCount { s.move c (.joining thrs) with joins := Function.update s.joins i (s.joins i + 1) } where
  lock := lock_move h.lock (.inl rfl) (by simp [Pc.locked])
  early := h.keep_early (by simp)
  creating := h.keep_creating (by simp)
  length := h.length
  places j := by
    have hsum := sum_move s c (.joining thrs) j
    simp only [hpc, Pc.taken_joining, List.count_cons, beq_iff_eq, Option.some.injEq] at hsum
    refine Eq.trans ?_ (h.places j)
    simp only [Restart.places, State.move]
    by_cases hj : j = i
    · subst hj
      rw [if_pos rfl] at hsum
      rw [Function.update_self]
      omega
    · rw [if_neg (Ne.symm hj)] at hsum
      rw [Function.update_of_ne hj]
      omega
  joined j hj := by
    by_cases hji : j = i
    · subst hji
      exact hended
    · change Function.update s.joins i (s.joins i + 1) j ≠ 0 at hj
      rw [Function.update_of_ne hji] at hj
      exact h.joined j hj
  writing := h.keep_writing (by simp)
  asserting := h.keep_asserting (by simp [hpc, Pc.marked]) (by simp)
  cleared := h.keep_cleared (by simp [hpc, Pc.marked]) (by simp)

omit [DecidableEq κ] in
/-- A worker comes nearer to its end. -/
theorem Inv.work (h : Inv m_threadCount s) {i : ℕ} {w : Worker} (hw : s.worker i ≠ .ended ∨ w = .ended) :
    Inv m_threadCount { s with worker := Function.update s.worker i w } :=
  { h with
    joined := fun j hj => by
      change Function.update s.worker i w j = .ended
      have hended := h.joined j hj
      by_cases hji : j = i
      · subst hji
        rw [Function.update_self]
        exact hw.resolve_left fun hne => hne hended
      · rwa [Function.update_of_ne hji] }

theorem Inv.moves (h : Inv m_threadCount s) {choice : Bool} (hmoves : Moves m_threadCount s c choice t) :
    Inv m_threadCount t := by
  cases hmoves with
  | quiet point m b r hquiet hpc => exact h.quiet hquiet
  | write hpc => exact h.write hpc
  | reserve hpc hempty => exact h.reserve hpc hempty
  | create i hpc hi => exact h.create hpc hi
  | finish i hpc hi => exact h.quiet (quiet_of_created hpc)
  | mark point hpc => exact h.mark hpc
  | swap hpc hm => exact h.swap hpc hm
  | join i thrs hpc hended => exact h.join hpc hended

theorem step_inv (h : Inv m_threadCount s) {a : Action κ} (hstep : step m_threadCount rooted inside s a = .next t) :
    Inv m_threadCount t := by
  cases a with
  | start c =>
      simp only [step] at hstep
      split_ifs at hstep with hpc
      cases hstep
      exact h.quiet (quiet_of_call hpc (.inl rfl))
  | stop c =>
      simp only [step] at hstep
      split_ifs at hstep with hpc
      cases hstep
      exact h.quiet (quiet_of_call hpc (.inr rfl))
  | advance c choice => exact h.moves (moves_of_advance hstep)
  | leave i =>
      simp only [step] at hstep
      split_ifs at hstep with hi
      cases hstep
      exact h.work (.inl (by simp [hi.1]))
  | finish i =>
      simp only [step] at hstep
      split_ifs at hstep with hi
      cases hstep
      exact h.work (.inr rfl)

/-! ### Runs without a lost mark -/

/-- What holds where `start` writes `m_stopping` only when no `stop` is about to take the threads, and threads can be created. -/
structure Ready (m_threadCount : ℕ) (s : State κ) : Prop where
  marked : ∀ c, (s.pc c).marked = true → s.m_stopping = true
  empty : ∀ c, s.pc c = .asserting → s.m_threads = []
  full : s.m_stopping = false → (∀ c, s.pc c ≠ .asserting) → (∀ c i, s.pc c ≠ .creating i) → Built m_threadCount s m_threadCount
  settled : (∀ c i, s.pc c ≠ .creating i) → none ∉ s.m_threads
  live : s.m_stopping = false → ∀ i, some i ∈ s.m_threads → s.worker i = .running
  taken : ∀ c, none ∉ (s.pc c).taken

omit [DecidableEq κ] [Fintype κ] in
theorem start_ready : Ready m_threadCount (start : State κ) := by
  constructor <;> simp [start, Pc.marked, Pc.taken]

omit [Fintype κ] in
/-- What holds at every point after one caller has moved held before, if it held of that caller. -/
theorem forall_of_move {P : Pc → Prop} (h : ∀ d, P (Function.update s.pc c point d)) (hc : P (s.pc c)) (d : κ) : P (s.pc d) := by
  by_cases hdc : d = c
  · subst hdc
    exact hc
  · have hd := h d
    rwa [Function.update_of_ne hdc] at hd

omit [Fintype κ] in
theorem Ready.keep_marked (h : Ready m_threadCount s) (hpoint : point.marked = true → s.m_stopping = true) (d : κ)
    (hd : (Function.update s.pc c point d).marked = true) : s.m_stopping = true :=
  forall_move (P := fun _ p => p.marked = true → s.m_stopping = true) h.marked hpoint d hd

omit [Fintype κ] in
theorem Ready.keep_empty (h : Ready m_threadCount s) (hpoint : point ≠ .asserting) (d : κ)
    (hd : Function.update s.pc c point d = .asserting) : s.m_threads = [] :=
  forall_move (P := fun _ p => p = .asserting → s.m_threads = []) h.empty (fun hp => absurd hp hpoint) d hd

omit [Fintype κ] in
theorem Ready.keep_taken (h : Ready m_threadCount s) (hpoint : none ∉ point.taken) (d : κ) :
    none ∉ (Function.update s.pc c point d).taken :=
  forall_move (P := fun _ p => none ∉ p.taken) h.taken hpoint d

omit [Fintype κ] in
/-- A caller goes on, and neither it nor where it goes is of the kind in question. -/
theorem Ready.move (h : Ready m_threadCount s) {m : Option κ} {b : Bool} {r : RootState} {j : ℕ → ℕ}
    (hmarked : point.marked = true → s.m_stopping = true)
    (hasserting : s.pc c ≠ .asserting ∧ point ≠ .asserting)
    (hcreating : (∀ i, s.pc c ≠ .creating i) ∧ ∀ i, point ≠ .creating i) (htaken : none ∉ point.taken) :
    Ready m_threadCount { s.move c point with m_mutex := m, m_autoStop := b, m_rootFiber := r, joins := j } where
  marked := h.keep_marked hmarked
  empty := h.keep_empty hasserting.2
  full hstopping ha hb :=
    h.full hstopping (forall_of_move (P := fun p => p ≠ .asserting) ha hasserting.1)
      (forall_of_move (P := fun p => ∀ i, p ≠ .creating i) hb hcreating.1)
  settled hb := h.settled (forall_of_move (P := fun p => ∀ i, p ≠ .creating i) hb hcreating.1)
  live := h.live
  taken := h.keep_taken htaken

theorem Ready.write (h : Ready m_threadCount s) (hs : Inv m_threadCount s) (hpc : s.pc c = .writing)
    (hnone : ∀ d, (s.pc d).marked = false) : Ready m_threadCount { s.move c .asserting with m_stopping := false } := by
  have hempty : s.m_threads = [] := (hs.cleared (hs.writing c hpc) hnone).1
  refine ⟨?_, ?_, ?_, ?_, ?_, ?_⟩
  · refine forall_move (P := fun _ p => p.marked = true → false = true) (fun d hd => ?_) (by simp [Pc.marked])
    rw [hnone d] at hd
    cases hd
  · exact fun _ _ => hempty
  · exact fun _ ha => absurd (by simp [State.move]) (ha c)
  · exact fun _ => by simp [State.move, hempty]
  · exact fun _ => by simp [State.move, hempty]
  · exact h.keep_taken (by simp [Pc.taken])

theorem Ready.reserve (h : Ready m_threadCount s) (hs : Inv m_threadCount s) (hpc : s.pc c = .asserting) :
    Ready m_threadCount { s.move c (.creating 0) with m_threads := List.replicate m_threadCount none } where
  marked := h.keep_marked (by simp [Pc.marked])
  empty d hd := absurd hd (hs.alone (by simp [hpc, Pc.locked]) rfl (by simp) d)
  full _ _ hb := absurd (by simp [State.move]) (hb c 0)
  settled hb := absurd (by simp [State.move]) (hb c 0)
  live _ i hi := by simp at hi
  taken := h.keep_taken (by simp [Pc.taken])

theorem Ready.create (h : Ready m_threadCount s) (hs : Inv m_threadCount s) {i : ℕ} (hpc : s.pc c = .creating i)
    (hi : i < m_threadCount) :
    Ready m_threadCount { s.move c (.creating (i + 1)) with
      m_threads := s.m_threads.set i (some s.created)
      worker := Function.update s.worker s.created .running
      created := s.created + 1 } where
  marked := h.keep_marked (by simp [Pc.marked])
  empty d hd := absurd hd (hs.alone (by simp [hpc, Pc.locked]) rfl (by simp) d)
  full _ _ hb := absurd (by simp [State.move]) (hb c (i + 1))
  settled hb := absurd (by simp [State.move]) (hb c (i + 1))
  live hstopping j hj := by
    obtain ⟨-, first, hcreated, hthreads⟩ := hs.creating c i hpc
    change some j ∈ s.m_threads.set i (some s.created) at hj
    change Function.update s.worker s.created .running j = .running
    rw [hthreads, hcreated, set_rack hi, mem_rack] at hj
    by_cases hjc : j = s.created
    · rw [hjc, Function.update_self]
    · rw [Function.update_of_ne hjc]
      refine h.live hstopping j ?_
      rw [hthreads, mem_rack]
      omega
  taken := h.keep_taken (by simp [Pc.taken])

theorem Ready.finish (h : Ready m_threadCount s) (hs : Inv m_threadCount s) {i : ℕ} (hpc : s.pc c = .creating i)
    (hi : m_threadCount ≤ i) : Ready m_threadCount { s.move c .idle with m_mutex := none } := by
  have hbuilt : Built m_threadCount s m_threadCount := by
    have hbuilt := hs.creating c i hpc
    rwa [show i = m_threadCount from le_antisymm hbuilt.1 hi] at hbuilt
  refine ⟨?_, ?_, ?_, ?_, ?_, ?_⟩
  · exact h.keep_marked (by simp [Pc.marked])
  · exact h.keep_empty (by simp)
  · exact fun _ _ _ => hbuilt
  · intro _
    obtain ⟨-, first, -, hthreads⟩ := hbuilt
    change none ∉ s.m_threads
    rw [hthreads]
    exact none_notMem_rack first
  · exact h.live
  · exact h.keep_taken (by simp [Pc.taken])

omit [Fintype κ] in
theorem Ready.mark (h : Ready m_threadCount s)
    (hpc : s.pc c = .early ∧ point = .earlyCheck ∨ s.pc c = .marking ∧ (point = .check ∨ point = .swapping)) :
    Ready m_threadCount { s.move c point with m_stopping := true } := by
  obtain ⟨hempty, -, -, hbefore, hfree⟩ := point_of_mark hpc
  refine ⟨fun _ _ => rfl, h.keep_empty (ne_of_locked hfree rfl), fun hstopping => ?_, fun hb => ?_, fun hstopping => ?_, ?_⟩
  · cases hstopping
  · exact h.settled (forall_of_move (P := fun p => ∀ i, p ≠ .creating i) hb fun i => ne_of_locked hbefore rfl)
  · cases hstopping
  · exact h.keep_taken (by simp [hempty.2])

theorem Ready.swap (h : Ready m_threadCount s) (hs : Inv m_threadCount s) (hpc : s.pc c = .swapping) (hm : s.m_mutex = none) :
    Ready m_threadCount { s.move c (.joining s.m_threads) with m_threads := [] } where
  marked := h.keep_marked (by simp [Pc.marked])
  empty _ _ := rfl
  full hstopping := by
    have hmarked := h.marked c (by simp [hpc, Pc.marked])
    change s.m_stopping = false at hstopping
    rw [hmarked] at hstopping
    cases hstopping
  settled _ := by simp
  live _ i hi := by simp at hi
  taken := by
    refine h.keep_taken (h.settled fun d i hd => ?_)
    have hfree := hs.unlocked hm d
    rw [hd] at hfree
    cases hfree

omit [Fintype κ] [DecidableEq κ] in
theorem Ready.work (h : Ready m_threadCount s) {i : ℕ} {w : Worker} (hw : s.m_stopping = true ∨ s.worker i ≠ .running) :
    Ready m_threadCount { s with worker := Function.update s.worker i w } :=
  { h with
    live := fun hstopping j hj => by
      have hrunning := h.live hstopping j hj
      have hji : j ≠ i := by
        rintro rfl
        rcases hw with hw | hw
        · change s.m_stopping = false at hstopping
          rw [hw] at hstopping
          cases hstopping
        · exact hw hrunning
      change Function.update s.worker i w j = .running
      rwa [Function.update_of_ne hji] }

theorem Ready.moves (h : Ready m_threadCount s) (hs : Inv m_threadCount s) {choice : Bool}
    (horderly : Orderly m_threadCount s (.advance c choice)) (hmoves : Moves m_threadCount s c choice t) :
    Ready m_threadCount t := by
  cases hmoves with
  | quiet point m b r hquiet hpc =>
      exact h.move (fun hpoint => h.marked c (hquiet.marked ▸ hpoint)) hquiet.asserting ⟨hpc, hquiet.creating⟩
        (by simp [hquiet.taken.2])
  | write hpc => exact h.write hs hpc (horderly.1 hpc)
  | reserve hpc hempty => exact h.reserve hs hpc
  | create i hpc hi => exact h.create hs hpc hi
  | finish i hpc hi =>
      refine h.finish hs hpc (not_lt.1 fun hlt => ?_)
      have htrue := horderly.2 i hlt hpc
      rw [hi hlt] at htrue
      cases htrue
  | mark point hpc => exact h.mark hpc
  | swap hpc hm => exact h.swap hs hpc hm
  | join i thrs hpc hended =>
      refine h.move (by simp [Pc.marked]) (by simp [hpc]) (by simp [hpc]) fun hnone => ?_
      refine h.taken c ?_
      rw [hpc]
      exact List.mem_cons_of_mem _ hnone

theorem step_ready (h : Ready m_threadCount s) (hs : Inv m_threadCount s) {a : Action κ} (horderly : Orderly m_threadCount s a)
    (hstep : step m_threadCount rooted inside s a = .next t) : Ready m_threadCount t := by
  cases a with
  | start c =>
      simp only [step] at hstep
      split_ifs at hstep with hpc
      cases hstep
      exact h.move (by simp [Pc.marked]) (by simp [hpc]) (by simp [hpc]) (by simp [Pc.taken])
  | stop c =>
      simp only [step] at hstep
      split_ifs at hstep with hpc
      cases hstep
      exact h.move (by simp [Pc.marked]) (by simp [hpc]) (by simp [hpc]) (by simp [Pc.taken])
  | advance c choice => exact h.moves hs horderly (moves_of_advance hstep)
  | leave i =>
      simp only [step] at hstep
      split_ifs at hstep with hi
      cases hstep
      exact h.work (.inl hi.2.2.2)
  | finish i =>
      simp only [step] at hstep
      split_ifs at hstep with hi
      cases hstep
      exact h.work (.inr (by simp [hi]))

/-! ### Faults -/

omit [DecidableEq κ] in
theorem places_of_idle (hidle : ∀ c, s.pc c = .idle) (i : ℕ) : places s i = s.m_threads.count (some i) + s.joins i := by
  simp [places, hidle, Pc.taken]

omit [Fintype κ] in
/-- Where each of the faults can come from. -/
theorem fault_of_abort {a : Action κ} {e : Fault} (hstep : step m_threadCount rooted inside s a = .abort e) :
    (e = .threadsLeft ∧ (∃ c, s.pc c = .asserting) ∧ s.m_threads ≠ []) ∨ e = .wrongThread ∨
      (e = .nullThread ∧ ∃ c, none ∈ (s.pc c).taken) ∨
      (∃ c, s.pc c = .calling) ∧ (e = .calledTwice ∧ s.m_rootFiber = .EXEC ∨ e = .neverReach ∧ s.m_rootFiber = .TERM) := by
  cases a with
  | start c | stop c | leave i | finish i =>
      simp only [step] at hstep
      split_ifs at hstep
  | advance c choice =>
      simp only [step, advance] at hstep
      split at hstep
      case h_5 hpc =>
          split_ifs at hstep with hempty
          cases hstep
          exact .inl ⟨rfl, ⟨c, hpc⟩, fun hnil => hempty (by simp [hnil])⟩
      case h_10 hpc =>
          split_ifs at hstep
          cases hstep
          exact .inr (.inl rfl)
      case h_12 hpc =>
          refine .inr (.inr (.inr ⟨⟨c, hpc⟩, ?_⟩))
          split at hstep
          · cases hstep
          · rename_i hroot
            cases hstep
            exact .inl ⟨rfl, hroot⟩
          · rename_i hroot
            cases hstep
            exact .inr ⟨rfl, hroot⟩
      case h_17 hpc =>
          cases hstep
          exact .inr (.inr (.inl ⟨rfl, c, by simp [hpc]⟩))
      all_goals first
        | cases hstep
        | split_ifs at hstep

omit [Fintype κ] in
/-- Only with `use_caller` does a call of `stop` come to the root fiber. -/
theorem step_inRoot (h : ∀ c, (s.pc c).inRoot = true → rooted = true) {a : Action κ}
    (hstep : step m_threadCount rooted inside s a = .next t) : ∀ c, (t.pc c).inRoot = true → rooted = true := by
  have hmove : ∀ (c : κ) (point : Pc), (point.inRoot = true → rooted = true) →
      ∀ d, (Function.update s.pc c point d).inRoot = true → rooted = true :=
    fun c point hpoint => forall_move (P := fun _ p => p.inRoot = true → rooted = true) h hpoint
  cases a with
  | start c | stop c =>
      simp only [step] at hstep
      split_ifs at hstep
      cases hstep
      exact hmove c _ (by simp [Pc.inRoot])
  | leave i | finish i =>
      simp only [step] at hstep
      split_ifs at hstep
      cases hstep
      exact h
  | advance c choice =>
      simp only [step, advance] at hstep
      split at hstep
      case h_12 hpc =>
          split at hstep <;> cases hstep
          exact hmove c _ fun _ => h c (by rw [hpc]; rfl)
      case h_10 hpc =>
          split_ifs at hstep with hinside hrooted
          · cases hstep
            exact hmove c _ fun _ => hrooted
          · cases hstep
            exact hmove c _ (by simp [Pc.inRoot])
      case h_11 hpc | h_13 hpc =>
          split_ifs at hstep <;> cases hstep <;> exact hmove c _ fun _ => h c (by rw [hpc]; rfl)
      all_goals (try split_ifs at hstep) <;> cases hstep <;> exact hmove c _ (by simp [Pc.inRoot])

/-! ### Runs -/

/-- Whatever the callers and the workers do: a thread that was created is in one place, `m_threads` or the threads of one call of `stop`, until it is joined after its end, and it is joined once. `start` finds threads left only where a call of `stop` has set `m_stopping` and not yet taken them. -/
theorem joined_once (m_threadCount : ℕ) (rooted : Bool) (inside : κ → Bool) (acts : List (Action κ)) :
    Throughout (step m_threadCount rooted inside)
        (fun s => ∀ i < s.created, places s i = 1 ∧ (s.joins i = 1 → s.worker i = .ended)) start acts ∧
      Along (step m_threadCount rooted inside)
        (fun s a => step m_threadCount rooted inside s a = .abort .threadsLeft → ∃ d, (s.pc d).marked = true) start acts := by
  have hruns : Throughout (step m_threadCount rooted inside) (Inv m_threadCount) start acts ∧
      Along (step m_threadCount rooted inside) (fun s _ => Inv m_threadCount s ∧ True) start acts :=
    throughout_of_along (fun s a t hs _ hstep => step_inv hs hstep) start_inv (along_of_forall (fun _ _ _ => trivial) _)
  refine ⟨hruns.1.mono fun s hs i hi => ?_, hruns.2.mono ?_⟩
  · exact ⟨(hs.places i).trans (if_pos hi), fun hjoined => hs.joined i (by simp [hjoined])⟩
  · rintro s a ⟨hs, -⟩ hstep
    by_contra hnone
    rcases fault_of_abort hstep with ⟨-, ⟨c, hpc⟩, hleft⟩ | hreason | ⟨hreason, -⟩ | ⟨-, ⟨hreason, -⟩ | ⟨hreason, -⟩⟩
    · exact hleft (hs.asserting c hpc (by simpa using hnone))
    all_goals cases hreason

omit [DecidableEq κ] in
theorem Ready.whole (h : Ready m_threadCount s) (hs : Inv m_threadCount s) (hidle : ∀ c, s.pc c = .idle) :
    Whole m_threadCount s := by
  have hgone : ∀ i < s.created, some i ∉ s.m_threads → Gone s i := by
    intro i hi hnot
    have hplaces := hs.places i
    rw [places_of_idle hidle, if_pos hi, List.count_eq_zero.2 hnot, zero_add] at hplaces
    exact ⟨hs.joined i (by simp [hplaces]), hplaces⟩
  unfold Whole
  split_ifs with hstopping
  · have hempty := (hs.cleared hstopping (by simp [hidle, Pc.marked])).1
    exact ⟨hempty, fun i hi => hgone i hi (by simp [hempty])⟩
  · rw [Bool.not_eq_true] at hstopping
    obtain ⟨-, first, hcreated, hthreads⟩ := h.full hstopping (by simp [hidle]) (by simp [hidle])
    refine ⟨first, hcreated, hthreads.trans (rack_full first), fun i hle hlt => ?_, fun i hi => ?_⟩
    · exact h.live hstopping i (by rw [hthreads, mem_rack]; omega)
    · exact hgone i (by omega) (by rw [hthreads, mem_rack]; omega)

/-- What may fail: the assertion on the caller of `stop`, and with `use_caller` the call of a root fiber that has been called before. -/
def Excused (rooted : Bool) (s : State κ) (e : Fault) : Prop :=
  e = .wrongThread ∨ rooted = true ∧ (e = .calledTwice ∧ s.m_rootFiber = .EXEC ∨ e = .neverReach ∧ s.m_rootFiber = .TERM)

/-- If `start` never writes `m_stopping` where a call of `stop` has set it and not yet taken the threads, and threads can be created, then no assertion fails but the one on the caller of `stop` and, where the root fiber is called again, the one at its end; no null pointer is joined, and between the calls the scheduler has all its threads or none, each time it is started again. -/
theorem whole_between_calls (m_threadCount : ℕ) (rooted : Bool) (inside : κ → Bool) (acts : List (Action κ))
    (h : Along (step m_threadCount rooted inside) (Orderly m_threadCount) start acts) :
    Throughout (step m_threadCount rooted inside) (fun s => (∀ c, s.pc c = .idle) → Whole m_threadCount s) start acts ∧
      Along (step m_threadCount rooted inside)
        (fun s a => ∀ e, step m_threadCount rooted inside s a = .abort e → Excused rooted s e) start acts := by
  obtain ⟨hall, halong⟩ := throughout_of_along
    (I := fun s => Inv m_threadCount s ∧ Ready m_threadCount s ∧ ∀ c, (s.pc c).inRoot = true → rooted = true)
    (fun s a t hs horderly hstep => ⟨step_inv hs.1 hstep, step_ready hs.2.1 hs.1 horderly hstep, step_inRoot hs.2.2 hstep⟩)
    ⟨start_inv, start_ready, by simp [start, Pc.inRoot]⟩ h
  refine ⟨hall.mono fun s hs hidle => hs.2.1.whole hs.1 hidle, halong.mono ?_⟩
  rintro s a ⟨⟨-, hs, hrooted⟩, -⟩ e hstep
  rcases fault_of_abort hstep with ⟨-, ⟨c, hpc⟩, hleft⟩ | rfl | ⟨-, c, hnull⟩ | ⟨⟨c, hpc⟩, hcalled⟩
  · exact absurd (hs.empty c hpc) hleft
  · exact .inl rfl
  · exact absurd hnull (hs.taken c)
  · exact .inr ⟨hrooted c (by rw [hpc]; rfl), hcalled⟩

/-- With `use_caller` and one more thread: the creator stops the scheduler, which runs the root fiber, another thread starts it again, and the creator stops it when there is nothing to do. -/
def stoppedTwice : List (Action Bool) :=
  [[.start true], List.replicate 6 (.advance true true), [.stop false], List.replicate 2 (.advance false true),
    [.advance false false], List.replicate 3 (.advance false true), [.leave 0, .finish 0],
    List.replicate 3 (.advance false true), [.start true], List.replicate 6 (.advance true true), [.stop false],
    List.replicate 4 (.advance false true), [.leave 1, .finish 1], List.replicate 2 (.advance false true)].flatten

theorem whole_between_calls_stoppedTwice :
    (∃ t, run (step 1 true fun c => !c) start stoppedTwice = .next t ∧ (∀ c, t.pc c = .idle) ∧ t.m_rootFiber = .TERM ∧
      t.created = 2 ∧ t.joins 0 = 1 ∧ t.joins 1 = 1) ∧
    Throughout (step 1 true fun c => !c) (fun s => (∀ c, s.pc c = .idle) → Whole 1 s) start stoppedTwice ∧
      Along (step 1 true fun c => !c) (fun s a => ∀ e, step 1 true (fun c => !c) s a = .abort e → Excused true s e) start
        stoppedTwice :=
  ⟨⟨_, rfl, by decide, by decide, by decide, by decide, by decide⟩, whole_between_calls 1 true (fun c => !c) _ (by decide)⟩

end

end Awcotn.Restart
