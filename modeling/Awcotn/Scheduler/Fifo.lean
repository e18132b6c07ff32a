import Awcotn.Scheduler.Dequeue

/-!
# The order of the queue

`scheduleNoLock` appends and `run` takes the first entry it may, so an entry is overtaken only where the worker that passed it was not allowed to take it: it is for another thread, or its fiber was still in `EXEC`. Neither tells apart two callbacks that are for the same thread, or for any thread, so these leave the queue in the order in which they came, whatever goes on between two examinations of a scan.
-/

namespace Awcotn.Dequeue

open Transition Scheduler

variable {C : Type*}

/-- An entry with a function and no fiber, for the thread given. -/
def isCallback (thread : Option ThreadId) (ft : FiberAndThread C) : Bool := ft.fiber.isNone && ft.thread == thread

/-- The entries stand in the queue in the order in which they were accepted, and callbacks for one thread are dequeued in that order: those dequeued and then those still in the queue are those accepted. -/
structure Fifo (s : State C) : Prop where
  sorted : (s.queued.map Prod.snd).Pairwise (· < ·)
  inOrder : ∀ thread, (s.dequeued.map Prod.snd ++ s.queued).filter (fun entry => isCallback thread entry.1) =
    s.accepted.zipIdx.filter fun entry => isCallback thread entry.1

/-! ### Lists -/

/-- Taking an element behind which nothing like it stands moves none past another. -/
theorem filter_take {α : Type*} {gone l : List α} {i : ℕ} {a : α} {p : α → Bool} (ha : l[i]? = some a)
    (hfirst : p a = true → ∀ j b, j < i → l[j]? = some b → p b = false) :
    ((gone ++ [a]) ++ l.eraseIdx i).filter p = (gone ++ l).filter p := by
  obtain ⟨hlt, rfl⟩ := List.getElem?_eq_some_iff.1 ha
  have hsplit : l = l.take i ++ l[i] :: l.drop (i + 1) := by
    rw [List.getElem_cons_drop, List.take_append_drop]
  have herase : l.eraseIdx i = l.take i ++ l.drop (i + 1) := List.eraseIdx_eq_take_drop_succ ..
  have hall : (gone ++ l).filter p = gone.filter p ++ ((l.take i).filter p ++ (l[i] :: l.drop (i + 1)).filter p) := by
    conv_lhs => rw [hsplit]
    rw [List.filter_append, List.filter_append]
  rw [herase, hall, List.filter_append, List.filter_append, List.filter_append, List.append_assoc]
  cases hp : p l[i] with
  | false =>
      have hneg : ¬ p l[i] = true := by simp [hp]
      rw [List.filter_cons_of_neg hneg, List.filter_cons_of_neg hneg, List.filter_nil, List.nil_append]
  | true =>
      have hnone : (l.take i).filter p = [] := by
        rw [List.filter_eq_nil_iff]
        intro b hb
        obtain ⟨j, hj, hget⟩ := List.mem_take_iff_getElem.1 hb
        have hji : j < i := by omega
        simp [hfirst hp j b hji (by rw [List.getElem?_eq_getElem (by omega), hget])]
      rw [List.filter_cons_of_pos hp, List.filter_cons_of_pos hp, hnone, List.filter_nil, List.nil_append]
      rfl

/-! ### The invariant -/

section

variable {workers : Finset ThreadId} {s t : State C}

/-- What `run` asks of a callback depends on its thread only. -/
theorem eligible_of_isCallback {thread : Option ThreadId} {ft : FiberAndThread C} (h : isCallback thread ft = true)
    (fibers : FiberId → Fiber C) (w : ThreadId) : eligible fibers w ft = !(thread.isSome && thread != some w) := by
  obtain ⟨fiber, cb, tag⟩ := ft
  simp only [isCallback, Bool.and_eq_true, Option.isNone_iff_eq_none, beq_iff_eq] at h
  obtain ⟨rfl, rfl⟩ := h
  simp [eligible]

theorem Fifo.accept (hs : Fifo s) (hlt : ∀ entry ∈ s.queued, entry.2 < s.accepted.length) {sched : Scheduler.State C}
    {mutex : Option (ThreadId × Section C)} {storage : ThreadId → List (FiberOrCb C)} (ft : FiberAndThread C) :
    Fifo ({ s with sched := sched, mutex := mutex, storage := storage }.accept ft) := by
  cases htask : ft.isTask with
  | false =>
      rw [State.accept, htask, if_neg (by simp)]
      exact ⟨hs.sorted, hs.inOrder⟩
  | true =>
      rw [State.accept, htask, if_pos rfl]
      constructor
      · show ((s.queued ++ [(ft, s.accepted.length)]).map Prod.snd).Pairwise (· < ·)
        rw [List.map_append, List.pairwise_append]
        refine ⟨hs.sorted, List.pairwise_singleton .., fun n hn m hm => ?_⟩
        obtain ⟨entry, hentry, rfl⟩ := List.mem_map.1 hn
        obtain rfl : m = s.accepted.length := by simpa using hm
        exact hlt entry hentry
      · intro thread
        show (s.dequeued.map Prod.snd ++ (s.queued ++ [(ft, s.accepted.length)])).filter _ =
          (s.accepted ++ [ft]).zipIdx.filter _
        rw [← List.append_assoc, List.filter_append, hs.inOrder thread, List.zipIdx_append, List.filter_append,
          Nat.zero_add]
        rfl

theorem Fifo.take (hs : Fifo s) (hq : QueueInv s) {w : ThreadId} {it : ℕ} {seen : List (FiberId → Fiber C)}
    {ft : FiberAndThread C} (hpassed : Passed s w it seen) (hget : s.sched.queue[it]? = some ft)
    (hok : eligible s.sched.fibers w ft = true) : Fifo (s.take w it ft) := by
  obtain ⟨number, hnumber⟩ := hq.queued_of_queue hget
  constructor
  · show ((s.queued.eraseIdx it).map Prod.snd).Pairwise (· < ·)
    rw [← List.eraseIdx_map]
    exact hs.sorted.sublist (List.eraseIdx_sublist ..)
  · intro thread
    show ((s.dequeued ++ (s.queued[it]?.map fun entry => (w, entry)).toList).map Prod.snd ++ s.queued.eraseIdx it).filter _ = _
    rw [hnumber, List.map_append]
    refine Eq.trans ?_ (hs.inOrder thread)
    refine filter_take hnumber fun hcallback j entry hj hentry => ?_
    by_contra hother
    rw [Bool.not_eq_false] at hother
    obtain ⟨fibers, ft', -, hget', hnot⟩ := hpassed.2 j hj
    have hft' : entry.1 = ft' := by
      rw [← hq.numbered, List.getElem?_map, hentry] at hget'
      simpa using hget'
    rw [← hft', eligible_of_isCallback hother, ← eligible_of_isCallback hcallback s.sched.fibers, hok] at hnot
    cases hnot

/-- The numbers in the queue have been given out. -/
theorem QueueInv.lt_accepted (hq : QueueInv s) : ∀ entry ∈ s.queued, entry.2 < s.accepted.length := by
  intro entry hentry
  have hmem : entry ∈ s.accepted.zipIdx := hq.perm.subset (List.mem_append_left _ hentry)
  obtain ⟨ft, number⟩ := entry
  have hlt := List.snd_lt_of_mem_zipIdx hmem
  simpa using hlt

theorem Fifo.frame (hs : Fifo s) {sched : Scheduler.State C} {mutex : Option (ThreadId × Section C)}
    {storage : ThreadId → List (FiberOrCb C)} : Fifo { s with sched := sched, mutex := mutex, storage := storage } :=
  ⟨hs.sorted, hs.inOrder⟩

theorem step_fifo (hq : QueueInv s) (hs : Fifo s) {a : Action C} (h : step workers s a = .next t) : Fifo t := by
  cases a with
  | sched a =>
      obtain ⟨sched, -, -, ⟨ft, -, rfl⟩ | ⟨-, rfl⟩⟩ := sched_eq_next h
      · exact hs.accept hq.lt_accepted ft
      · exact hs.frame
  | fill u range | range u =>
      simp only [step] at h
      split at h <;> cases h
      exact hs.frame
  | lock w =>
      simp only [step] at h
      split at h
      · split at h <;> cases h
        exact hs.frame
      · cases h
  | advance =>
      simp only [step] at h
      split at h
      · cases h
      · rename_i u next needTickle _
        cases h
        simp only [State.pushNext]
        split
        · exact hs.frame
        · exact hs.accept hq.lt_accepted _
      · rename_i w it seen hmutex
        obtain ⟨-, rfl⟩ | ⟨ft, hget, ⟨-, rfl⟩ | ⟨hok, rfl⟩⟩ := examine_eq_next h
        · exact hs.frame
        · exact hs.frame
        · exact hs.take hq (hq.scan w it seen hmutex) hget hok

theorem start_fifo (workers : Finset ThreadId) (idleCb : C) : Fifo (start workers idleCb) := ⟨List.Pairwise.nil, fun _ => rfl⟩

theorem step_queue_fifo {a : Action C} (hs : QueueInv s ∧ Fifo s) (h : step workers s a = .next t) : QueueInv t ∧ Fifo t :=
  ⟨step_queueInv hs.1 h, step_fifo hs.1 hs.2 h⟩

theorem queue_of_run {idleCb : C} {acts : List (Action C)} (h : run (step workers) (start workers idleCb) acts = .next s) :
    QueueInv s ∧ Fifo s :=
  invariant_of_run (fun _ _ _ hs hstep => step_queue_fifo hs hstep) ⟨queueInv_start workers idleCb, start_fifo workers idleCb⟩ h

end

/-- In every run of any number of callers and workers, step by step under the mutex, the entries stand in the queue in the order in which they were accepted, and the callbacks for one thread, or for any thread, are dequeued in that order. -/
theorem callbacks_in_order (workers : Finset ThreadId) (idleCb : C) (acts : List (Action C)) :
    Throughout (step workers) Fifo (start workers idleCb) acts :=
  (throughout_of_step (fun _ _ _ hs hstep => step_queue_fifo hs hstep)
    ⟨queueInv_start workers idleCb, start_fifo workers idleCb⟩ acts).mono fun _ hs => hs.2

end Awcotn.Dequeue
