import Awcotn.Scheduler.Queue
import Mathlib.Data.Multiset.AddSub

/-!
# Custody of the queue

The sections under the scheduler's mutex, step by step: a range `schedule` pushes one element at a time, and the scan of `run` examines one entry at a time. The mutex keeps everybody else off the queue meanwhile, but not off the fibers: their states may change between two examinations. Everything that needs no mutex goes on as in `Worker.lean`.

Entries are numbered in the order in which `scheduleNoLock` accepts them. The numbers are not in the source.
-/

namespace Awcotn.Dequeue

open Transition Scheduler

/-- What the holder of the mutex does under it. `seen` is not in the source: the fibers as they were when each of the entries passed so far was examined. -/
inductive Section (C : Type*)
  /-- In the loop of a range `schedule`, with the index of the next element and `need_tickle`. -/
  | range (next : ℕ) (needTickle : Bool)
  /-- In the loop of `run`, with the iterator. -/
  | scan (it : ℕ) (seen : List (FiberId → Fiber C))

/-- A scheduler with its mutex and the storage of its callers. `accepted` lists the entries pushed, `queued` is the queue with their numbers, and `dequeued` tells who took which. -/
structure State (C : Type*) where
  sched : Scheduler.State C
  mutex : Option (ThreadId × Section C)
  storage : ThreadId → List (FiberOrCb C)
  accepted : List (FiberAndThread C)
  queued : List (FiberAndThread C × ℕ)
  dequeued : List (ThreadId × FiberAndThread C × ℕ)

inductive Action (C : Type*)
  /-- A step outside the sections that are taken apart here. -/
  | sched (a : Scheduler.Action C)
  /-- A thread fills the storage it is going to pass a range of. -/
  | fill (t : ThreadId) (range : List (FiberOrCb C))
  /-- A thread enters a range `schedule`. -/
  | range (t : ThreadId)
  /-- A worker locks the mutex at the top of its loop. -/
  | lock (w : ThreadId)
  /-- The holder of the mutex takes its next step. -/
  | advance

variable {C : Type*}

/-- What `run` asks of an entry: that it is not for another thread, and that its fiber is not in `EXEC`. -/
def eligible (fibers : FiberId → Fiber C) (w : ThreadId) (ft : FiberAndThread C) : Bool :=
  !(ft.thread.isSome && ft.thread != some w) && !(ft.fiber.any fun f => (fibers f).state == .EXEC)

namespace State

/-- Whether a thread holds the mutex. -/
def holds (s : State C) (t : ThreadId) : Bool := s.mutex.any fun held => held.1 == t

/-- A step is taken by a thread that is in no section, and one that pushes waits for the mutex. -/
def mayStep (s : State C) : Scheduler.Action C → Bool
  | .run w =>
    match s.sched.pc w with
    | .head => false
    | .requeue .. => s.mutex.isNone
    | _ => !s.holds w
  | .exit w _ | .register w => !s.holds w
  | .newFiber _ => true
  | .schedule _ | .trigger _ => s.mutex.isNone

/-- Number an entry that has been pushed. -/
def accept (s : State C) (ft : FiberAndThread C) : State C :=
  if ft.isTask then
    { s with accepted := s.accepted ++ [ft], queued := s.queued ++ [(ft, s.accepted.length)] }
  else s

/-- One round of the loop of a range `schedule`, or its end. -/
def pushNext (s : State C) (t : ThreadId) (next : ℕ) (needTickle : Bool) : State C :=
  match (s.storage t)[next]? with
  | none => { s with mutex := none }
  | some fc =>
    let r := s.sched.scheduleNoLock (fc.entry none)
    { s with
      sched := r.2
      storage := Function.update s.storage t ((s.storage t).set next fc.swapped)
      mutex := some (t, .range (next + 1) (r.1 || needTickle)) }.accept (fc.entry none)

/-- `ft = *it; m_fibers.erase(it); ++m_activeThreadCount;` -/
def take (s : State C) (w : ThreadId) (it : ℕ) (ft : FiberAndThread C) : State C :=
  { s with
    sched := { s.sched with
      queue := s.sched.queue.eraseIdx it, activeThreadCount := s.sched.activeThreadCount + 1 }.goto w (.picked ft)
    mutex := none
    queued := s.queued.eraseIdx it
    dequeued := s.dequeued ++ (s.queued[it]?.map fun entry => (w, entry)).toList }

/-- One round of the loop of `run` over the queue, or its end. -/
def examine (s : State C) (w : ThreadId) (it : ℕ) (seen : List (FiberId → Fiber C)) : Outcome Scheduler.Fault (State C) :=
  match s.sched.queue[it]? with
  | none => .next { s with sched := s.sched.goto w .noTask, mutex := none }
  | some ft =>
    let passed := { s with mutex := some (w, .scan (it + 1) (seen ++ [s.sched.fibers])) }
    if ft.thread.isSome && ft.thread != some w then .next passed
    else if ft.fiber.isNone && ft.cb.isNone then .abort .emptyEntry
    else if ft.fiber.any fun f => (s.sched.fibers f).state == .EXEC then .next passed
    else .next (s.take w it ft)

end State

def step (workers : Finset ThreadId) (s : State C) : Action C → Outcome Scheduler.Fault (State C)
  | .sched a =>
    if s.mayStep a then
      match Scheduler.step workers s.sched a with
      | .next sched =>
        .next (match pushed s.sched a with
          | some ft => { s with sched := sched }.accept ft
          | none => { s with sched := sched })
      | .abort e => .abort e
      | .disabled => .disabled
    else .disabled
  | .fill t range =>
    if s.holds t then .disabled else .next { s with storage := Function.update s.storage t range }
  | .range t => if s.mutex.isNone then .next { s with mutex := some (t, .range 0 false) } else .disabled
  | .lock w =>
    match s.sched.pc w with
    | .head => if w ∈ workers ∧ s.mutex.isNone then .next { s with mutex := some (w, .scan 0 []) } else .disabled
    | _ => .disabled
  | .advance =>
    match s.mutex with
    | none => .disabled
    | some (t, .range next needTickle) => .next (s.pushNext t next needTickle)
    | some (w, .scan it seen) => s.examine w it seen

/-- The workers at the top of their loops, nothing scheduled. -/
def start (workers : Finset ThreadId) (idleCb : C) : State C where
  sched := Scheduler.start workers idleCb
  mutex := none
  storage := fun _ => []
  accepted := []
  queued := []
  dequeued := []

/-! ### What is to be shown -/

/-- Every entry accepted is in the queue or has been dequeued, by one worker, which was allowed to; and no entry in the queue is empty. -/
structure Accounted (s : State C) : Prop where
  conserved : (s.accepted : Multiset (FiberAndThread C)) = s.sched.queue + (s.dequeued.map fun d => d.2.1 : List _)
  once : (s.dequeued.map fun d => d.2.2).Nodup
  tasks : ∀ ft ∈ s.sched.queue, ft.isTask
  pinned : ∀ d ∈ s.dequeued, d.2.1.thread = none ∨ d.2.1.thread = some d.1

/-- The entries before the iterator were not to be had by the worker when it examined them. -/
def Passed (s : State C) (w : ThreadId) (it : ℕ) (seen : List (FiberId → Fiber C)) : Prop :=
  seen.length = it ∧ ∀ j, j < it → ∃ fibers ft, seen[j]? = some fibers ∧ s.sched.queue[j]? = some ft ∧
    eligible fibers w ft = false

/-- Pushing an entry keeps every number in one place. -/
theorem perm_push {α : Type*} {queued gone : List (α × ℕ)} {accepted : List α}
    (h : (queued ++ gone).Perm accepted.zipIdx) (a : α) :
    (queued ++ [(a, accepted.length)] ++ gone).Perm (accepted ++ [a]).zipIdx := by
  rw [List.zipIdx_append, Nat.zero_add, List.append_assoc]
  show (queued ++ ([(a, accepted.length)] ++ gone)).Perm (accepted.zipIdx ++ [(a, accepted.length)])
  calc (queued ++ ([(a, accepted.length)] ++ gone)).Perm (queued ++ (gone ++ [(a, accepted.length)])) :=
        List.perm_append_comm.append_left queued
    _ = queued ++ gone ++ [(a, accepted.length)] := (List.append_assoc ..).symm
    (queued ++ gone ++ [(a, accepted.length)]).Perm (accepted.zipIdx ++ [(a, accepted.length)]) := h.append_right _

/-- So does taking one. -/
theorem perm_take {α : Type*} {queued gone l : List α} {it : ℕ} {a : α} (h : (queued ++ gone).Perm l)
    (ha : queued[it]? = some a) : (queued.eraseIdx it ++ (gone ++ [a])).Perm l := by
  obtain ⟨hlt, rfl⟩ := List.getElem?_eq_some_iff.1 ha
  refine List.Perm.trans ?_ h
  calc (queued.eraseIdx it ++ (gone ++ [queued[it]])).Perm (queued.eraseIdx it ++ ([queued[it]] ++ gone)) :=
        List.perm_append_comm.append_left _
    _ = queued.eraseIdx it ++ [queued[it]] ++ gone := (List.append_assoc ..).symm
    (queued.eraseIdx it ++ [queued[it]] ++ gone).Perm (queued[it] :: queued.eraseIdx it ++ gone) :=
        List.perm_append_comm.append_right gone
    (queued[it] :: queued.eraseIdx it ++ gone).Perm (queued ++ gone) :=
        (List.getElem_cons_eraseIdx_perm hlt).append_right gone

structure QueueInv (s : State C) : Prop where
  numbered : s.queued.map Prod.fst = s.sched.queue
  perm : (s.queued ++ s.dequeued.map Prod.snd).Perm s.accepted.zipIdx
  tasks : ∀ ft ∈ s.sched.queue, ft.isTask
  pinned : ∀ d ∈ s.dequeued, d.2.1.thread = none ∨ d.2.1.thread = some d.1
  scan : ∀ w it seen, s.mutex = some (w, .scan it seen) → Passed s w it seen

theorem QueueInv.accounted {s : State C} (hs : QueueInv s) : Accounted s where
  conserved := by
    rw [Multiset.coe_add, Multiset.coe_eq_coe, ← hs.numbered]
    have hfst := hs.perm.map Prod.fst
    rw [List.zipIdx_map_fst, List.map_append, List.map_map] at hfst
    exact hfst.symm
  once := by
    have hsnd := hs.perm.map Prod.snd
    rw [List.zipIdx_map_snd, List.map_append, List.map_map] at hsnd
    exact (List.nodup_append.1 (hsnd.nodup_iff.2 List.nodup_range')).2.1
  tasks := hs.tasks
  pinned := hs.pinned

theorem queueInv_start (workers : Finset ThreadId) (idleCb : C) : QueueInv (start workers idleCb) where
  numbered := rfl
  perm := List.Perm.refl _
  tasks := nofun
  pinned := nofun
  scan := nofun

section

variable {workers : Finset ThreadId} {s t : State C}

/-- The entry at the iterator with its number. -/
theorem QueueInv.queued_of_queue (hs : QueueInv s) {it : ℕ} {ft : FiberAndThread C}
    (h : s.sched.queue[it]? = some ft) : ∃ number, s.queued[it]? = some (ft, number) := by
  rw [← hs.numbered, List.getElem?_map, Option.map_eq_some_iff] at h
  obtain ⟨⟨ft', number⟩, hget, hft⟩ := h
  obtain rfl : ft' = ft := hft
  exact ⟨number, hget⟩

/-- A push under the mutex, outside any scan, keeps the invariant. -/
theorem QueueInv.accept (hs : QueueInv s) {sched : Scheduler.State C} {ft : FiberAndThread C}
    (hqueue : sched.queue = s.sched.queue ++ if ft.isTask then [ft] else [])
    {mutex : Option (ThreadId × Section C)} {storage : ThreadId → List (FiberOrCb C)}
    (hmutex : ∀ w it seen, mutex ≠ some (w, .scan it seen)) :
    QueueInv ({ s with sched := sched, mutex := mutex, storage := storage }.accept ft) := by
  cases htask : ft.isTask with
  | false =>
      rw [htask, if_neg (by simp), List.append_nil] at hqueue
      rw [State.accept, htask, if_neg (by simp)]
      exact ⟨hqueue ▸ hs.numbered, hs.perm, hqueue ▸ hs.tasks, hs.pinned, fun w it seen h => absurd h (hmutex w it seen)⟩
  | true =>
      rw [htask, if_pos rfl] at hqueue
      rw [State.accept, htask, if_pos rfl]
      refine ⟨?_, perm_push hs.perm ft, ?_, hs.pinned, fun w it seen h => absurd h (hmutex w it seen)⟩
      · show (s.queued ++ [(ft, s.accepted.length)]).map Prod.fst = sched.queue
        rw [hqueue, List.map_append, hs.numbered]
        rfl
      · intro ft' hmem
        have hmem' : ft' ∈ s.sched.queue ++ [ft] := hqueue ▸ hmem
        rcases List.mem_append.1 hmem' with hold | hnew
        · exact hs.tasks ft' hold
        · rwa [List.mem_singleton.1 hnew]

/-- A step that leaves the queue alone keeps the invariant. -/
theorem QueueInv.frame (hs : QueueInv s) {sched : Scheduler.State C} (hqueue : sched.queue = s.sched.queue)
    {mutex : Option (ThreadId × Section C)} {storage : ThreadId → List (FiberOrCb C)}
    (hmutex : ∀ w it seen, mutex = some (w, .scan it seen) → Passed s w it seen) :
    QueueInv { s with sched := sched, mutex := mutex, storage := storage } where
  numbered := hs.numbered.trans hqueue.symm
  perm := hs.perm
  tasks := fun ft h => hs.tasks ft (hqueue ▸ h)
  pinned := hs.pinned
  scan := fun w it seen h => by
    obtain ⟨hlength, hpassed⟩ := hmutex w it seen h
    refine ⟨hlength, fun j hj => ?_⟩
    obtain ⟨fibers, ft, hseen, hget, hnot⟩ := hpassed j hj
    exact ⟨fibers, ft, hseen, (congrArg (·[j]?) hqueue).trans hget, hnot⟩

/-- An entry that the worker may not take is passed. -/
theorem Passed.succ {w : ThreadId} {it : ℕ} {seen : List (FiberId → Fiber C)} (h : Passed s w it seen)
    {ft : FiberAndThread C} (hget : s.sched.queue[it]? = some ft) (hnot : eligible s.sched.fibers w ft = false) :
    Passed s w (it + 1) (seen ++ [s.sched.fibers]) := by
  obtain ⟨hlength, hpassed⟩ := h
  refine ⟨by simp [hlength], fun j hj => ?_⟩
  rcases Nat.lt_succ_iff_lt_or_eq.1 hj with hlt | rfl
  · obtain ⟨fibers, ft', hseen, hget', hnot'⟩ := hpassed j hlt
    exact ⟨fibers, ft', by rw [List.getElem?_append_left (by omega), hseen], hget', hnot'⟩
  · exact ⟨s.sched.fibers, ft, by rw [← hlength, List.getElem?_concat_length], hget, hnot⟩

/-- What one round of the scan does: it ends the loop at the end of the queue, passes an entry that the worker may not take, or takes one that it may. -/
theorem examine_eq_next {w : ThreadId} {it : ℕ} {seen : List (FiberId → Fiber C)}
    (h : s.examine w it seen = .next t) :
    (s.sched.queue[it]? = none ∧ t = { s with sched := s.sched.goto w .noTask, mutex := none }) ∨
      ∃ ft, s.sched.queue[it]? = some ft ∧
        ((eligible s.sched.fibers w ft = false ∧
            t = { s with mutex := some (w, .scan (it + 1) (seen ++ [s.sched.fibers])) }) ∨
          (eligible s.sched.fibers w ft = true ∧ t = s.take w it ft)) := by
  simp only [State.examine] at h
  split at h
  · rename_i hget
    cases h
    exact .inl ⟨hget, rfl⟩
  · rename_i ft hget
    refine .inr ⟨ft, hget, ?_⟩
    split at h
    · rename_i hpin
      cases h
      exact .inl ⟨by simp [eligible, hpin], rfl⟩
    · rename_i hpin
      split at h
      · cases h
      · split at h
        · rename_i hexec
          cases h
          exact .inl ⟨by simp [eligible, hexec], rfl⟩
        · rename_i hexec
          cases h
          exact .inr ⟨by simp [eligible, hpin, hexec], rfl⟩

theorem take_queueInv (hs : QueueInv s) {w : ThreadId} {it : ℕ} {ft : FiberAndThread C}
    (hget : s.sched.queue[it]? = some ft) (hok : eligible s.sched.fibers w ft = true) : QueueInv (s.take w it ft) := by
  obtain ⟨number, hnumber⟩ := hs.queued_of_queue hget
  refine ⟨?_, ?_, fun ft' hmem => hs.tasks ft' (List.mem_of_mem_eraseIdx hmem), ?_, nofun⟩
  · show (s.queued.eraseIdx it).map Prod.fst = s.sched.queue.eraseIdx it
    rw [← List.eraseIdx_map, hs.numbered]
  · show (s.queued.eraseIdx it ++ (s.dequeued ++ _).map Prod.snd).Perm s.accepted.zipIdx
    rw [hnumber, List.map_append]
    exact perm_take hs.perm hnumber
  · intro d hd
    have hd' : d ∈ s.dequeued ++ [(w, ft, number)] := by simpa [State.take, hnumber] using hd
    rcases List.mem_append.1 hd' with hold | hnew
    · exact hs.pinned d hold
    · rw [List.mem_singleton.1 hnew]
      cases hthread : ft.thread with
      | none => exact .inl rfl
      | some u =>
          right
          by_contra hne
          simp_all [eligible]

theorem examine_queueInv (hs : QueueInv s) {w : ThreadId} {it : ℕ} {seen : List (FiberId → Fiber C)}
    (hmutex : s.mutex = some (w, .scan it seen)) (h : s.examine w it seen = .next t) : QueueInv t := by
  obtain ⟨-, rfl⟩ | ⟨ft, hget, ⟨hnot, rfl⟩ | ⟨hok, rfl⟩⟩ := examine_eq_next h
  · refine hs.frame ?_ fun _ _ _ heq => nomatch heq
    rfl
  · refine hs.frame rfl fun w' it' seen' heq => ?_
    obtain ⟨rfl, rfl, rfl⟩ : w = w' ∧ it + 1 = it' ∧ seen ++ [s.sched.fibers] = seen' := by simpa using heq
    exact (hs.scan w it seen hmutex).succ hget hnot
  · exact take_queueInv hs hget hok

theorem pushNext_queueInv (hs : QueueInv s) (u : ThreadId) (next : ℕ) (needTickle : Bool) :
    QueueInv (s.pushNext u next needTickle) := by
  simp only [State.pushNext]
  split
  · exact hs.frame rfl nofun
  · exact hs.accept (schedule_queue ..) nofun

/-- A step that pushes waits for the mutex. -/
theorem mutex_of_pushed {a : Scheduler.Action C} {ft : FiberAndThread C} (hmay : s.mayStep a = true)
    (h : pushed s.sched a = some ft) : s.mutex = none := by
  cases a with
  | schedule ft' => simpa [State.mayStep] using hmay
  | trigger i => simpa [State.mayStep] using hmay
  | run w =>
      simp only [pushed] at h
      split at h
      · rename_i hpc
        simpa [State.mayStep, hpc] using hmay
      · cases h
  | _ => cases h

theorem head_of_mayStep {a : Scheduler.Action C} (hmay : s.mayStep a = true) {w : ThreadId} (ha : a = .run w) :
    s.sched.pc w ≠ .head := by
  rintro hpc
  rw [ha, State.mayStep, hpc] at hmay
  cases hmay

/-- What a step outside the sections does. -/
theorem sched_eq_next {a : Scheduler.Action C} (h : step workers s (.sched a) = .next t) :
    ∃ sched, s.mayStep a = true ∧ Scheduler.step workers s.sched a = .next sched ∧
      ((∃ ft, pushed s.sched a = some ft ∧ t = { s with sched := sched }.accept ft) ∨
        (pushed s.sched a = none ∧ t = { s with sched := sched })) := by
  simp only [step] at h
  split at h
  · rename_i hmay
    split at h
    · rename_i sched hsched
      refine ⟨sched, hmay, hsched, ?_⟩
      cases h
      cases hpushed : pushed s.sched a with
      | some ft => exact .inl ⟨ft, rfl, rfl⟩
      | none => exact .inr ⟨rfl, rfl⟩
    · cases h
    · cases h
  · cases h

theorem sched_queueInv (hs : QueueInv s) {a : Scheduler.Action C} (h : step workers s (.sched a) = .next t) :
    QueueInv t := by
  obtain ⟨sched, hmay, hsched, hcases⟩ := sched_eq_next h
  have hqueue := step_queue hsched fun w ha => head_of_mayStep hmay ha
  obtain ⟨ft, hpushed, rfl⟩ | ⟨hpushed, rfl⟩ := hcases
  · have hmutex := mutex_of_pushed hmay hpushed
    refine hs.accept ?_ (by simp [hmutex])
    rw [hqueue, hpushed]
    cases htask : ft.isTask <;> simp [Option.filter, htask]
  · refine hs.frame ?_ hs.scan
    rw [hqueue, hpushed]
    exact List.append_nil _

theorem step_queueInv (hs : QueueInv s) {a : Action C} (h : step workers s a = .next t) : QueueInv t := by
  cases a with
  | sched a => exact sched_queueInv hs h
  | fill u range =>
      simp only [step] at h
      split at h
      · cases h
      · cases h
        exact hs.frame rfl hs.scan
  | range u =>
      simp only [step] at h
      split at h
      · cases h
        exact hs.frame rfl nofun
      · cases h
  | lock w =>
      simp only [step] at h
      split at h
      · split at h
        · cases h
          refine hs.frame rfl fun w' it seen heq => ?_
          obtain ⟨-, rfl, rfl⟩ : w = w' ∧ 0 = it ∧ [] = seen := by simpa using heq
          exact ⟨rfl, fun j hj => absurd hj (Nat.not_lt_zero j)⟩
        · cases h
      · cases h
  | advance =>
      simp only [step] at h
      split at h
      · cases h
      · cases h
        exact pushNext_queueInv hs _ _ _
      · rename_i hmutex
        exact examine_queueInv hs hmutex h

/-! ### The scan -/

theorem accept_dequeued (s : State C) (ft : FiberAndThread C) : (s.accept ft).dequeued = s.dequeued := by
  simp only [State.accept]
  split <;> rfl

theorem accept_sched (s : State C) (ft : FiberAndThread C) : (s.accept ft).sched = s.sched := by
  simp only [State.accept]
  split <;> rfl

theorem pushNext_frame (u : ThreadId) (next : ℕ) (needTickle : Bool) :
    (s.pushNext u next needTickle).dequeued = s.dequeued ∧ (s.pushNext u next needTickle).sched.pc = s.sched.pc := by
  simp only [State.pushNext]
  split
  · exact ⟨rfl, rfl⟩
  · rw [accept_dequeued, accept_sched]
    exact ⟨rfl, schedule_pc ..⟩

end

/-! ### Sections that nobody interferes with -/

section

variable {workers : Finset ThreadId} {s t : State C}

theorem pick_cons {fibers : FiberId → Fiber C} {w : ThreadId} {ft : FiberAndThread C} (htask : ft.isTask = true)
    (rest : List (FiberAndThread C)) :
    pick fibers w (ft :: rest) =
      if eligible fibers w ft then .ok (some (ft, rest))
      else (pick fibers w rest).map (Option.map fun r => (r.1, ft :: r.2)) := by
  have hnonempty : (ft.fiber.isNone && ft.cb.isNone) = false := by
    obtain ⟨fiber, cb, thread⟩ := ft
    cases fiber <;> cases cb <;> simp_all [FiberAndThread.isTask]
  rw [pick, hnonempty]
  cases hpin : ft.thread.isSome && ft.thread != some w with
  | true => simp [eligible, hpin]
  | false =>
      cases hexec : ft.fiber.any fun f => (fibers f).state == .EXEC with
      | true => simp [eligible, hexec]
      | false => simp [eligible, hpin, hexec]

theorem step_advance_scan (workers : Finset ThreadId) {w : ThreadId} {it : ℕ} {seen : List (FiberId → Fiber C)}
    (hmutex : s.mutex = some (w, .scan it seen)) : step workers s .advance = s.examine w it seen := by
  simp only [step, hmutex]

theorem examine_of_eligible (hs : QueueInv s) (w : ThreadId) {it : ℕ} (seen : List (FiberId → Fiber C))
    {ft : FiberAndThread C} (hget : s.sched.queue[it]? = some ft) :
    s.examine w it seen = .next (if eligible s.sched.fibers w ft then s.take w it ft
      else { s with mutex := some (w, .scan (it + 1) (seen ++ [s.sched.fibers])) }) := by
  cases h : s.examine w it seen with
  | next t =>
      obtain ⟨hend, -⟩ | ⟨ft', hget', ⟨hnot, rfl⟩ | ⟨hok, rfl⟩⟩ := examine_eq_next h
      · rw [hend] at hget
        cases hget
      all_goals
        obtain rfl : ft' = ft := Option.some.inj (hget'.symm.trans hget)
        simp_all
  | abort e =>
      have htask := hs.tasks ft (List.mem_of_getElem? hget)
      obtain ⟨fiber, cb, thread⟩ := ft
      simp only [State.examine, hget] at h
      (repeat' split at h) <;> simp_all [FiberAndThread.isTask]
  | disabled =>
      simp only [State.examine, hget] at h
      (repeat' split at h) <;> cases h

/-- The rest of a scan that nobody interferes with. -/
theorem scan_eq_pick (workers : Finset ThreadId) (hs : QueueInv s) {w : ThreadId} {front rest : List (FiberAndThread C)}
    {seen : List (FiberId → Fiber C)} (hqueue : s.sched.queue = front ++ rest)
    (hmutex : s.mutex = some (w, .scan front.length seen)) :
    ∃ n t o, run (step workers) s (List.replicate n .advance) = .next t ∧ t.mutex = none ∧
      pick s.sched.fibers w rest = .ok o ∧
      t.sched = match o with
        | none => s.sched.goto w .noTask
        | some (ft, left) => { s.sched with
            queue := front ++ left, activeThreadCount := s.sched.activeThreadCount + 1 }.goto w (.picked ft) := by
  induction rest generalizing s front seen with
  | nil =>
      have hend : s.sched.queue[front.length]? = none := by simp [hqueue]
      refine ⟨1, { s with sched := s.sched.goto w .noTask, mutex := none }, none, ?_, rfl, rfl, rfl⟩
      show run (step workers) s [.advance] = _
      simp only [run, step_advance_scan workers hmutex, State.examine, hend]
  | cons ft rest ih =>
      have hget : s.sched.queue[front.length]? = some ft := by simp [hqueue]
      have hexamine := examine_of_eligible hs w seen hget
      have htask := hs.tasks ft (by simp [hqueue])
      cases hok : eligible s.sched.fibers w ft with
      | true =>
          rw [hok, if_pos rfl] at hexamine
          refine ⟨1, s.take w front.length ft, some (ft, rest), ?_, rfl, by simp [pick_cons htask, hok], ?_⟩
          · show run (step workers) s [.advance] = _
            simp only [run, step_advance_scan workers hmutex, hexamine]
          · simp [State.take, hqueue, List.eraseIdx_append_of_length_le]
      | false =>
          rw [hok, if_neg (by simp)] at hexamine
          have hstep := (step_advance_scan workers hmutex).trans hexamine
          obtain ⟨n, t, o, hrun, hfree, hpick, ht⟩ := @ih _ (step_queueInv hs hstep) (front ++ [ft])
            (seen ++ [s.sched.fibers]) (by simp [hqueue]) (by simp)
          refine ⟨n + 1, t, o.map fun r => (r.1, ft :: r.2), ?_, hfree, ?_, ?_⟩
          · rw [List.replicate_succ, run_cons_of_next _ hstep, hrun]
          · rw [pick_cons htask, hok, if_neg (by simp), hpick]
            rfl
          · rw [ht]
            cases o with
            | none => rfl
            | some r => simp

/-- A scan that nobody interferes with is the step of `run` at the top of its loop. -/
theorem scan_undisturbed (hs : QueueInv s) {w : ThreadId} (hw : w ∈ workers) (hpc : s.sched.pc w = .head)
    (hmutex : s.mutex = none) :
    ∃ n t, run (step workers) s (.lock w :: List.replicate n .advance) = .next t ∧ t.mutex = none ∧
      Scheduler.step workers s.sched (.run w) = .next t.sched := by
  have hlock : step workers s (.lock w) = .next { s with mutex := some (w, .scan 0 []) } := by
    simp [step, hpc, hw, hmutex]
  obtain ⟨n, t, o, hrun, hfree, hpick, ht⟩ := @scan_eq_pick _ _ workers (step_queueInv hs hlock) w [] _ [] rfl rfl
  refine ⟨n, t, by rw [run_cons_of_next _ hlock, hrun], hfree, ?_⟩
  have hpick' : pick s.sched.fibers w s.sched.queue = .ok o := hpick
  simp only [Scheduler.step, hw, if_true, runStep, hpc, hpick', ht]
  cases o with
  | none => rfl
  | some r => rfl

/-- A range `schedule` that nobody interferes with is its loop in one go, and leaves nothing in its range. -/
theorem range_undisturbed {u : ThreadId} {done todo : List (FiberOrCb C)} {needTickle : Bool}
    (hstorage : s.storage u = done ++ todo) (hmutex : s.mutex = some (u, .range done.length needTickle)) :
    ∃ t, run (step workers) s (List.replicate (todo.length + 1) .advance) = .next t ∧ t.mutex = none ∧
      t.sched = (s.sched.scheduleRange todo needTickle).2 ∧ t.storage u = done ++ todo.map FiberOrCb.swapped := by
  induction todo generalizing s done needTickle with
  | nil =>
      have hend : (s.storage u)[done.length]? = none := by simp [hstorage]
      refine ⟨{ s with mutex := none }, ?_, rfl, rfl, by simpa using hstorage⟩
      show run (step workers) s [.advance] = _
      simp only [run, step, hmutex, State.pushNext, hend]
  | cons fc todo ih =>
      have hget : (s.storage u)[done.length]? = some fc := by simp [hstorage]
      have hstep : step workers s .advance = .next (s.pushNext u done.length needTickle) := by
        simp only [step, hmutex]
      have hnext : s.pushNext u done.length needTickle = { s with
          sched := s.sched.schedule (fc.entry none)
          storage := Function.update s.storage u ((s.storage u).set done.length fc.swapped)
          mutex := some (u, .range (done.length + 1) (s.sched.queue.isEmpty || needTickle)) }.accept (fc.entry none) := by
        simp only [State.pushNext, hget, Scheduler.State.scheduleNoLock]
      have hframe : ∀ v : State C, (v.accept (fc.entry none)).mutex = v.mutex ∧ (v.accept (fc.entry none)).storage = v.storage := by
        intro v
        simp only [State.accept]
        split <;> exact ⟨rfl, rfl⟩
      obtain ⟨t, hrun, hfree, hsched, hleft⟩ := @ih (s.pushNext u done.length needTickle) (done ++ [fc.swapped])
        (s.sched.queue.isEmpty || needTickle)
        (by rw [hnext, (hframe _).2]; simp [hstorage])
        (by rw [hnext, (hframe _).1]; simp)
      refine ⟨t, ?_, hfree, ?_, by simpa using hleft⟩
      · rw [List.length_cons, List.replicate_succ, run_cons_of_next _ hstep, hrun]
      · rw [hsched, hnext, accept_sched]
        rfl

end

/-! ### Runs -/

section

variable {workers : Finset ThreadId} {s : State C}

end

end Awcotn.Dequeue
