import Awcotn.Foundation.Simulation
import Awcotn.Scheduler.Fifo

/-!
# How long a callback waits

A scan of `run` ends at the first entry that the worker may take, and new entries go to the end of the queue. What a scan takes while a callback for the worker is in the queue therefore stood ahead of it, or is the callback itself, and no scan ends with nothing. Each scan brings the callback one place forward, so that it is dequeued once a worker that may take it has ended one scan more than there were entries ahead.
-/

namespace Awcotn.Dequeue

open Transition Scheduler

variable {C : Type*}

/-- The worker whose scan the step ends, with an entry or without. -/
def scanEnded (s : State C) : Action C → List ThreadId
  | .advance =>
    match s.mutex with
    | some (w, .scan it _) =>
      match s.sched.queue[it]? with
      | some ft => if eligible s.sched.fibers w ft then [w] else []
      | none => [w]
    | _ => []
  | _ => []

/-- The entries that were accepted before the one with the number given. -/
def ahead (s : State C) (number : ℕ) : ℕ := s.queued.countP fun entry => entry.2 < number

section

variable {workers : Finset ThreadId} {s t : State C} {ft : FiberAndThread C} {thread : Option ThreadId} {w : ThreadId}
  {number : ℕ}

/-- One fewer of the elements with a property, where one of them is erased. -/
theorem countP_eraseIdx {α : Type*} {l : List α} {i : ℕ} {a : α} {p : α → Bool} (ha : l[i]? = some a) (hp : p a = true) :
    (l.eraseIdx i).countP p + 1 = l.countP p := by
  obtain ⟨hlt, rfl⟩ := List.getElem?_eq_some_iff.1 ha
  rw [← (List.getElem_cons_eraseIdx_perm hlt).countP_eq, List.countP_cons_of_pos hp]

/-- A worker may always take a callback for itself, or for any thread. -/
theorem eligible_own (h : isCallback thread ft = true) (hthread : thread = none ∨ thread = some w) (fibers : FiberId → Fiber C) :
    eligible fibers w ft = true := by
  rw [eligible_of_isCallback h]
  rcases hthread with rfl | rfl <;> simp

/-- What a step does to the queue, and which scan it ends: it leaves the queue, and may end a scan that has come to the end of it; it pushes an entry; or a worker takes an entry. -/
inductive QueueStep (s t : State C) (a : Action C) : Prop
  | keep (queued : t.queued = s.queued) (accepted : t.accepted = s.accepted)
      (ended : ∀ w ∈ scanEnded s a, ∃ it seen, s.mutex = some (w, .scan it seen) ∧ s.sched.queue[it]? = none)
  | push (ft : FiberAndThread C) (queued : t.queued = s.queued ++ [(ft, s.accepted.length)])
      (accepted : t.accepted = s.accepted ++ [ft]) (ended : scanEnded s a = [])
  | take (w : ThreadId) (it : ℕ) (seen : List (FiberId → Fiber C)) (ft : FiberAndThread C)
      (mutex : s.mutex = some (w, .scan it seen)) (entry : s.sched.queue[it]? = some ft)
      (queued : t.queued = s.queued.eraseIdx it) (accepted : t.accepted = s.accepted) (ended : scanEnded s a = [w])

theorem queueStep_accept {a : Action C} (hended : scanEnded s a = []) (sched : Scheduler.State C)
    (mutex : Option (ThreadId × Section C)) (storage : ThreadId → List (FiberOrCb C)) (ft : FiberAndThread C) :
    QueueStep s ({ s with sched := sched, mutex := mutex, storage := storage }.accept ft) a := by
  simp only [State.accept]
  split
  · exact .push ft rfl rfl hended
  · exact .keep rfl rfl (by simp [hended])

theorem queueStep {a : Action C} (h : step workers s a = .next t) : QueueStep s t a := by
  cases a with
  | sched a =>
      have hended : scanEnded s (.sched a) = [] := rfl
      obtain ⟨sched, -, -, ⟨ft, -, rfl⟩ | ⟨-, rfl⟩⟩ := sched_eq_next h
      · exact queueStep_accept hended sched s.mutex s.storage ft
      · exact .keep rfl rfl (by simp [hended])
  | fill u range | range u =>
      simp only [step] at h
      split at h <;> cases h
      exact .keep rfl rfl (by simp [scanEnded])
  | lock w =>
      simp only [step] at h
      split at h
      · split at h <;> cases h
        exact .keep rfl rfl (by simp [scanEnded])
      · cases h
  | advance =>
      simp only [step] at h
      split at h
      · cases h
      · rename_i u next needTickle hmutex
        cases h
        have hended : scanEnded s .advance = [] := by simp [scanEnded, hmutex]
        simp only [State.pushNext]
        split
        · exact .keep rfl rfl (by simp [hended])
        · exact queueStep_accept hended _ _ _ _
      · rename_i w it seen hmutex
        obtain ⟨hget, rfl⟩ | ⟨ft, hget, ⟨hnot, rfl⟩ | ⟨hok, rfl⟩⟩ := examine_eq_next h
        · refine .keep rfl rfl fun v hv => ?_
          obtain rfl : v = w := by simpa [scanEnded, hmutex, hget] using hv
          exact ⟨it, seen, hmutex, hget⟩
        · exact .keep rfl rfl (by simp [scanEnded, hmutex, hget, hnot])
        · exact .take w it seen ft hmutex hget rfl rfl (by simp [scanEnded, hmutex, hget, hok])

/-- What was accepted before and is in the queue after a step was there before it. -/
theorem QueueStep.queued_of_lt {a : Action C} (h : QueueStep s t a) (hlt : number < s.accepted.length)
    (hmem : (ft, number) ∈ t.queued) : (ft, number) ∈ s.queued := by
  cases h with
  | keep hqueued => rwa [hqueued] at hmem
  | push ft' hqueued =>
      rw [hqueued] at hmem
      rcases List.mem_append.1 hmem with hold | hnew
      · exact hold
      · obtain ⟨-, hnumber⟩ := Prod.mk.inj (List.mem_singleton.1 hnew)
        omega
  | take w it seen taken _ _ hqueued =>
      rw [hqueued] at hmem
      exact List.mem_of_mem_eraseIdx hmem

theorem QueueStep.accepted_get {a : Action C} (h : QueueStep s t a) (hget : s.accepted[number]? = some ft) :
    t.accepted[number]? = some ft := by
  cases h with
  | keep _ haccepted => rw [haccepted, hget]
  | push ft' _ haccepted => rw [haccepted, List.getElem?_append_left (List.getElem?_eq_some_iff.1 hget).1, hget]
  | take _ _ _ _ _ _ _ haccepted => rw [haccepted, hget]

/-- A callback for the worker has not been passed by its scan. -/
theorem Passed.le_of_callback {it : ℕ} {seen : List (FiberId → Fiber C)} (hpassed : Passed s w it seen) (hq : QueueInv s)
    (hcallback : isCallback thread ft = true) (hthread : thread = none ∨ thread = some w) {j : ℕ}
    (hj : s.queued[j]? = some (ft, number)) : it ≤ j := by
  by_contra hlt
  obtain ⟨fibers, ft', -, hget, hnot⟩ := hpassed.2 j (Nat.lt_of_not_le hlt)
  rw [← hq.numbered, List.getElem?_map, hj] at hget
  obtain rfl : ft = ft' := by simpa using hget
  rw [eligible_own hcallback hthread fibers] at hnot
  cases hnot

/-- A scan of the worker that leaves a callback for it in the queue has taken an entry ahead of that. -/
theorem ahead_eraseIdx (hq : QueueInv s) (hs : Fifo s) (hcallback : isCallback thread ft = true)
    (hthread : thread = none ∨ thread = some w) {it : ℕ} {seen : List (FiberId → Fiber C)} {taken : FiberAndThread C}
    (hpassed : Passed s w it seen) (hget : s.sched.queue[it]? = some taken) (hmem : (ft, number) ∈ s.queued.eraseIdx it) :
    (s.queued.eraseIdx it).countP (fun entry => entry.2 < number) + 1 = ahead s number := by
  obtain ⟨n, hn⟩ := hq.queued_of_queue hget
  have hsorted : (s.queued.map Prod.snd).Pairwise (· < ·) := hs.sorted
  obtain ⟨j, hj⟩ := List.mem_iff_getElem?.1 (List.mem_of_mem_eraseIdx hmem)
  have hle := hpassed.le_of_callback hq hcallback hthread hj
  obtain ⟨hilt, hi⟩ := List.getElem?_eq_some_iff.1 hn
  obtain ⟨hjlt, hj'⟩ := List.getElem?_eq_some_iff.1 hj
  have hne : it ≠ j := by
    rintro rfl
    -- the numbers are distinct, so the entry that was taken is not left in the queue
    have hperm := List.getElem_cons_eraseIdx_perm hilt
    have hnodup : ((s.queued[it] :: s.queued.eraseIdx it).map Prod.snd).Nodup :=
      (hperm.map Prod.snd).nodup_iff.2 (hsorted.imp fun hlt => hlt.ne)
    rw [List.map_cons, List.nodup_cons, hj'] at hnodup
    exact hnodup.1 (List.mem_map_of_mem hmem)
  have hlt : n < number := by
    have hpair := List.pairwise_iff_getElem.1 hsorted it j (by simpa using hilt) (by simpa using hjlt) (by omega)
    simpa [hi, hj'] using hpair
  exact countP_eraseIdx hn (by simpa using hlt)

/-- Each scan of the worker that a callback for it outlasts leaves one entry fewer ahead. -/
theorem QueueStep.ahead (hq : QueueInv s) (hs : Fifo s) (hcallback : isCallback thread ft = true)
    (hthread : thread = none ∨ thread = some w) {a : Action C} (h : QueueStep s t a) (hlt : number < s.accepted.length)
    (hmem : (ft, number) ∈ t.queued) : (scanEnded s a).count w + ahead t number ≤ ahead s number := by
  have hbefore := h.queued_of_lt hlt hmem
  cases h with
  | keep hqueued _ hended =>
      have hnone : w ∉ scanEnded s a := by
        intro hw
        obtain ⟨it, seen, hmutex, hget⟩ := hended w hw
        obtain ⟨j, hj⟩ := List.mem_iff_getElem?.1 hbefore
        have hle := (hq.scan w it seen hmutex).le_of_callback hq hcallback hthread hj
        have hjlt := (List.getElem?_eq_some_iff.1 hj).1
        have hlength := List.getElem?_eq_none_iff.1 hget
        rw [← hq.numbered, List.length_map] at hlength
        omega
      rw [List.count_eq_zero_of_not_mem hnone, Dequeue.ahead, hqueued, Dequeue.ahead, Nat.zero_add]
  | push ft' hqueued _ hended =>
      have hnot : ¬ s.accepted.length < number := hlt.not_gt
      rw [hended, Dequeue.ahead, hqueued, List.countP_append]
      simp [Dequeue.ahead, hnot]
  | take v it seen taken hmutex hget hqueued _ hended =>
      rw [hended, Dequeue.ahead, hqueued]
      by_cases hvw : v = w
      · subst hvw
        rw [hqueued] at hmem
        have hfewer := ahead_eraseIdx hq hs hcallback hthread (hq.scan v it seen hmutex) hget hmem
        simp only [List.count_singleton_self]
        omega
      · rw [List.count_eq_zero_of_not_mem (by simp [Ne.symm hvw]), Nat.zero_add]
        exact (List.eraseIdx_sublist ..).countP_le

/-- So do the scans of a run. -/
theorem run_ahead (hq : QueueInv s) (hs : Fifo s) (hcallback : isCallback thread ft = true)
    (hthread : thread = none ∨ thread = some w) {acts : List (Action C)} (h : run (step workers) s acts = .next t)
    (haccepted : s.accepted[number]? = some ft) (hmem : (ft, number) ∈ t.queued) :
    (ft, number) ∈ s.queued ∧ (trace (step workers) scanEnded s acts).count w + ahead t number ≤ ahead s number := by
  induction acts generalizing s with
  | nil =>
      obtain rfl : s = t := by simpa using h
      exact ⟨hmem, by simp [trace]⟩
  | cons a acts ih =>
      obtain ⟨m, hstep, hrest⟩ := run_cons_eq_next.1 h
      have hqueue := queueStep hstep
      obtain ⟨hmid, hcount⟩ := ih (step_queueInv hq hstep) (step_fifo hq hs hstep) hrest (hqueue.accepted_get haccepted)
      have hlt := (List.getElem?_eq_some_iff.1 haccepted).1
      have hfewer := hqueue.ahead hq hs hcallback hthread hlt hmid
      refine ⟨hqueue.queued_of_lt hlt hmid, ?_⟩
      rw [trace_cons_of_next _ hstep, List.count_append]
      omega

/-- What has been accepted stays so. -/
theorem run_accepted {acts : List (Action C)} (h : run (step workers) s acts = .next t)
    (hget : s.accepted[number]? = some ft) : t.accepted[number]? = some ft :=
  invariant_of_run (I := fun u : State C => u.accepted[number]? = some ft) (fun _ _ _ hu hstep => (queueStep hstep).accepted_get hu)
    hget h

/-- An entry that was accepted is in the queue or has been dequeued. -/
theorem QueueInv.queued_or_dequeued (hq : QueueInv s) (hget : s.accepted[number]? = some ft) :
    (ft, number) ∈ s.queued ∨ ∃ v, (v, ft, number) ∈ s.dequeued := by
  have hmem : (ft, number) ∈ s.queued ++ s.dequeued.map Prod.snd :=
    hq.perm.mem_iff.2 (List.mem_zipIdx_iff_getElem?.2 hget)
  rcases List.mem_append.1 hmem with hqueued | hdequeued
  · exact .inl hqueued
  · obtain ⟨⟨v, entry⟩, hentry, rfl⟩ := List.mem_map.1 hdequeued
    exact .inr ⟨v, hentry⟩

end

/-- After any run: a callback in the queue has been dequeued, by a worker that was allowed to, once a worker that may take it has ended more scans than there are entries ahead of it, whatever else is scheduled meanwhile. -/
theorem dequeued_in_turn (workers : Finset ThreadId) (idleCb : C) (before acts : List (Action C)) {s t : State C}
    (hs : run (step workers) (start workers idleCb) before = .next s) (ht : run (step workers) s acts = .next t)
    {ft : FiberAndThread C} {number : ℕ} (hqueued : (ft, number) ∈ s.queued) {thread : Option ThreadId}
    (hcallback : isCallback thread ft = true) {w : ThreadId} (hthread : thread = none ∨ thread = some w)
    (hscans : ahead s number < (trace (step workers) scanEnded s acts).count w) :
    ∃ v, (v, ft, number) ∈ t.dequeued ∧ (thread = none ∨ thread = some v) := by
  obtain ⟨hqs, hfs⟩ := queue_of_run hs
  obtain ⟨hqt, -⟩ := queue_of_run (by rw [run_append_of_next acts hs, ht] : run (step workers) (start workers idleCb) (before ++ acts) = _)
  have haccepted : s.accepted[number]? = some ft :=
    List.mem_zipIdx_iff_getElem?.1 (hqs.perm.mem_iff.1 (List.mem_append_left _ hqueued))
  rcases hqt.queued_or_dequeued (run_accepted ht haccepted) with hstill | ⟨v, hv⟩
  · have hfewer := (run_ahead hqs hfs hcallback hthread ht haccepted hstill).2
    omega
  · have hpinned := hqt.pinned _ hv
    have htag : ft.thread = thread := by
      simp only [isCallback, Bool.and_eq_true, beq_iff_eq] at hcallback
      exact hcallback.2
    rw [htag] at hpinned
    exact ⟨v, hv, hpinned⟩

/-- Another callback is scheduled before the worker scans, and the worker takes the first. -/
theorem dequeued_in_turn_first : ∃ t : State ℕ,
    run (step {2}) (start {2} 0) ([.sched (.schedule ⟨none, some 7, none⟩)] ++
      [.sched (.schedule ⟨none, some 8, some 2⟩), .lock 2, .advance]) = .next t ∧
      ∃ v, (v, ⟨none, some 7, none⟩, 0) ∈ t.dequeued ∧ ((none : Option ThreadId) = none ∨ none = some v) :=
  ⟨_, rfl, dequeued_in_turn (w := 2) {2} 0 [.sched (.schedule ⟨none, some 7, none⟩)]
    [.sched (.schedule ⟨none, some 8, some 2⟩), .lock 2, .advance] rfl rfl List.mem_cons_self rfl (.inl rfl) (by decide)⟩

end Awcotn.Dequeue
