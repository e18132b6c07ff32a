import Awcotn.Scheduler.Exclusive
import Awcotn.Scheduler.Owners

/-!
# Fibers that are scheduled for one thread

The thread that a task is for stands in its entry of the queue. `run` looks at it when it dequeues the entry, and with the entry it is gone: a fiber that has yielded with `YieldToReady` is queued again by `schedule(ft.fiber)`, whose entry is for any thread.
-/

namespace Awcotn.Scheduler

open Transition

variable {C : Type*}

/-- The fiber is inside no other worker than `thread`, and every entry it has in the queue is for that thread. -/
structure PinnedTo (f : FiberId) (thread : ThreadId) (s : State C) : Prop where
  runs : ∀ w, (s.pc w).inside = some f → w = thread
  queued : ∀ ft ∈ s.queue, ft.fiber = some f → ft.thread = some thread

/-- The program schedules the fiber for `thread` only, and the fiber does not register itself with an event or a timer. -/
def PinsTo (f : FiberId) (thread : ThreadId) (s : State C) : Action C → Prop
  | .schedule ft => ft.fiber = some f → ft.thread = some thread
  | .register w => (s.pc w).inside ≠ some f
  | _ => True

instance (f : FiberId) (thread : ThreadId) (s : State C) (a : Action C) : Decidable (PinsTo f thread s a) := by
  cases a <;> unfold PinsTo <;> infer_instance

/-- No worker puts the fiber, found `READY` after it has yielded, back in the queue. -/
def NotRequeued (workers : Finset ThreadId) (f : FiberId) (s : State C) (a : Action C) : Prop :=
  ∀ w ∈ workers, a = .run w → ∀ kind, s.pc w ≠ .requeue kind f

/-! ### Where a step takes the fibers from that it names -/

section

variable {workers : Finset ThreadId} {s t : State C} {w : ThreadId} {f : FiberId}

/-- A scan takes only entries for any thread or for its own. -/
theorem pick_thread {fibers : FiberId → Fiber C} {queue rest : List (FiberAndThread C)} {ft : FiberAndThread C}
    (h : pick fibers w queue = .ok (some (ft, rest))) {thread : ThreadId} (hthread : ft.thread = some thread) : w = thread := by
  induction queue generalizing rest with
  | nil => cases h
  | cons first later ih =>
      have hlater : (pick fibers w later).map (Option.map fun r => (r.1, first :: r.2)) = .ok (some (ft, rest)) →
          w = thread := by
        intro hr
        obtain ⟨o, ho, hmap⟩ := map_eq_ok hr
        cases o with
        | none => cases hmap
        | some r =>
            cases hmap
            exact ih ho
      simp only [pick] at h
      split at h
      · exact hlater h
      rename_i hown
      split at h
      · cases h
      split at h
      · exact hlater h
      · cases h
        by_contra hne
        exact hown (by simpa [hthread] using Ne.symm hne)

/-- What the scan does: it leaves the queue as it is, or it takes an entry out for its worker. -/
theorem head_step (hpc : s.pc w = .head) (h : runStep s w = .next t) :
    (t.queue = s.queue ∧ t.pc = Function.update s.pc w .noTask) ∨
      ∃ ft, s.queue.Perm (ft :: t.queue) ∧ t.pc = Function.update s.pc w (.picked ft) ∧
        ∀ thread, ft.thread = some thread → w = thread := by
  simp only [runStep, hpc] at h
  split at h
  · cases h
  · cases h
    exact .inl ⟨rfl, rfl⟩
  · rename_i ft rest hpick
    cases h
    exact .inr ⟨ft, (pick_eq_some hpick).2, rfl, fun thread => pick_thread hpick⟩

/-- An entry in the queue was there before, or it has been pushed. -/
theorem queue_step {a : Action C} (h : step workers s a = .next t) {ft : FiberAndThread C} (hft : ft ∈ t.queue) :
    ft ∈ s.queue ∨ pushed s a = some ft := by
  by_cases hhead : ∃ w, a = .run w ∧ s.pc w = .head
  · obtain ⟨w, rfl, hpc⟩ := hhead
    obtain ⟨-, h⟩ := step_run_eq_next h
    rcases head_step hpc h with ⟨hqueue, -⟩ | ⟨ft', hperm, -⟩
    · exact .inl (hqueue ▸ hft)
    · exact .inl (hperm.mem_iff.2 (List.mem_cons_of_mem _ hft))
  · have hqueue := step_queue h fun w hw hpc => hhead ⟨w, hw, hpc⟩
    rw [hqueue, List.mem_append] at hft
    refine hft.imp id fun hnew => ?_
    exact (Option.filter_eq_some_iff.1 (Option.mem_toList.1 hnew)).1

/-- A worker has a fiber in hand that it had before, or that it has taken from the queue. -/
theorem handles_step {a : Action C} (h : step workers s a = .next t) (hf : handles (t.pc w) = some f) :
    handles (s.pc w) = some f ∨
      ∃ ft ∈ s.queue, ft.fiber = some f ∧ ∀ thread, ft.thread = some thread → w = thread := by
  cases a with
  | run v =>
      obtain ⟨-, h⟩ := step_run_eq_next h
      by_cases hv : w = v
      · subst hv
        by_cases hhead : s.pc w = .head
        · rcases head_step hhead h with ⟨-, hpc⟩ | ⟨ft, hperm, hpc, hthread⟩
          · rw [hpc, Function.update_self] at hf
            cases hf
          · rw [hpc, Function.update_self] at hf
            exact .inr ⟨ft, hperm.mem_iff.2 List.mem_cons_self, hf, hthread⟩
        · obtain ⟨after, hrun⟩ := runStep_eq_next h
          rw [hrun.pc, Function.update_self] at hf
          exact .inl (next_handles hrun.next hhead hf)
      · obtain ⟨after, hrun⟩ := runStep_eq_next h
        rw [hrun.pc, Function.update_of_ne hv] at hf
        exact .inl hf
  | exit v how =>
      obtain ⟨-, h⟩ := step_exit_eq_next h
      obtain ⟨kind, g, hpc, hgoto, -⟩ := exitStep_eq_next h
      by_cases hv : w = v
      · subst hv
        rw [hgoto, Function.update_self] at hf
        rw [hpc]
        cases kind <;> exact .inl hf
      · rw [hgoto, Function.update_of_ne hv] at hf
        exact .inl hf
  | schedule ft | newFiber cb | register v | trigger i =>
      rw [(step_eq_next_of_worker_eq_none h rfl).1] at hf
      exact .inl hf

/-- A worker keeps for callbacks a fiber that it kept before, or a new one. -/
theorem cbFiber_step {a : Action C} (h : step workers s a = .next t) (hf : t.cbFiber w = some f) :
    s.cbFiber w = some f ∨ f = s.nextFiber ∧ s.nextFiber < t.nextFiber := by
  cases a with
  | run v =>
      obtain ⟨-, h⟩ := step_run_eq_next h
      cases runStep_keeping h with
      | same hsame => exact .inl (hsame ▸ hf)
      | created hcreated _ hlt =>
          by_cases hv : w = v
          · rw [hcreated, hv, Function.update_self] at hf
            exact .inr ⟨(Option.some.inj hf).symm, hlt⟩
          · rw [hcreated, Function.update_of_ne hv] at hf
            exact .inl hf
      | released hreleased =>
          by_cases hv : w = v
          · rw [hreleased, hv, Function.update_self] at hf
            cases hf
          · rw [hreleased, Function.update_of_ne hv] at hf
            exact .inl hf
  | exit v how =>
      obtain ⟨-, h⟩ := step_exit_eq_next h
      exact .inl ((exitStep_frame h).1 ▸ hf)
  | schedule ft | newFiber cb | register v | trigger i => exact .inl ((step_kept_of_worker_eq_none h rfl).1 ▸ hf)

/-! ### Fibers that exist, and a fiber of the program -/

/-- The worker is at the fiber: it is the fiber of the entry in hand, of a callback, or the idle fiber. -/
def At (pc : Pc C) (f : FiberId) : Prop := handles pc = some f ∨ callback pc = some f ∨ idles pc = some f

theorem at_of_inside {pc : Pc C} (h : pc.inside = some f) : At pc f := by
  cases pc with
  | entering kind g | running kind g | leaving kind g =>
      obtain rfl : g = f := Option.some.inj h
      cases kind
      · exact .inl rfl
      · exact .inr (.inl rfl)
      · exact .inr (.inr rfl)
  | _ => cases h

theorem at_requeue (kind : Kind) (f : FiberId) : At (.requeue kind f : Pc C) f := by
  cases kind
  · exact .inl rfl
  · exact .inr (.inl rfl)
  · exact .inr (.inr rfl)

/-- Every fiber that is named has been created. -/
structure Known (workers : Finset ThreadId) (s : State C) : Prop where
  owners : Owners workers s
  queue : ∀ ft ∈ s.queue, ∀ f, ft.fiber = some f → f < s.nextFiber
  waiting : ∀ f ∈ s.waiting, f < s.nextFiber
  handles : ∀ w f, handles (s.pc w) = some f → f < s.nextFiber

theorem known_start (workers : Finset ThreadId) (idleCb : C) : Known workers (start workers idleCb) where
  owners := owners_start workers idleCb
  queue := nofun
  waiting := nofun
  handles := nofun

theorem Known.at (hs : Known workers s) (h : At (s.pc w) f) : f < s.nextFiber := by
  rcases h with hhandles | hcallback | hidles
  · exact hs.handles w f hhandles
  · exact (hs.owners.fresh w f (hs.owners.owner w f hcallback)).2
  · obtain ⟨hw, rfl⟩ := hs.owners.idle w f hidles
    exact (Finset.le_sup (f := id) hw).trans_lt hs.owners.bound

theorem nextFiber_le {a : Action C} (h : step workers s a = .next t) : s.nextFiber ≤ t.nextFiber := by
  cases a with
  | run v =>
      obtain ⟨-, h⟩ := step_run_eq_next h
      obtain ⟨after, hrun⟩ := runStep_eq_next h
      exact hrun.nextFiber
  | exit v how =>
      obtain ⟨-, h⟩ := step_exit_eq_next h
      obtain ⟨kind, g, -, -, -, hnext, -⟩ := exitStep_eq_next h
      exact hnext.ge
  | schedule ft | newFiber cb | register v | trigger i => exact (step_eq_next_of_worker_eq_none h rfl).2.2.1

/-- What is pushed is an entry of the program, or that of a fiber which a registration or a worker has. -/
theorem pushed_eq {a : Action C} {ft : FiberAndThread C} (h : pushed s a = some ft) :
    a = .schedule ft ∨ ∃ f, ft = ⟨some f, none, none⟩ ∧
      (f ∈ s.waiting ∨ ∃ w kind, a = .run w ∧ s.pc w = .requeue kind f) := by
  cases a with
  | schedule ft' =>
      obtain rfl : ft' = ft := Option.some.inj h
      exact .inl rfl
  | trigger i =>
      obtain ⟨f, hf, rfl⟩ := Option.map_eq_some_iff.1 h
      exact .inr ⟨f, rfl, .inl (List.mem_of_getElem? hf)⟩
  | run w =>
      simp only [pushed] at h
      split at h
      · rename_i kind f hpc
        cases h
        exact .inr ⟨f, rfl, .inr ⟨w, kind, rfl, hpc⟩⟩
      · cases h
  | newFiber cb | register w | exit w how => cases h

/-- A registration was there before, or it is of the fiber that runs. -/
theorem waiting_step {a : Action C} (h : step workers s a = .next t) (hf : f ∈ t.waiting) :
    f ∈ s.waiting ∨ ∃ w, a = .register w ∧ (s.pc w).inside = some f := by
  rcases step_waiting h with ⟨w, kind, g, rfl, hpc, hwaiting⟩ | ⟨i, -, hwaiting⟩ | ⟨hwaiting, -⟩
  · rw [hwaiting, List.mem_append, List.mem_singleton] at hf
    rcases hf with hf | rfl
    · exact .inl hf
    · exact .inr ⟨w, rfl, by rw [hpc]; rfl⟩
  · exact .inl (List.mem_of_mem_eraseIdx (hwaiting ▸ hf))
  · exact .inl (hwaiting ▸ hf)

theorem known_step (hs : Known workers s) {a : Action C} (h : step workers s a = .next t) : Known workers t where
  owners := (hs.owners.step h).1
  queue ft hft f hf := by
    refine Nat.lt_of_lt_of_le ?_ (nextFiber_le h)
    rcases queue_step h hft with hold | hpushed
    · exact hs.queue ft hold f hf
    · rcases pushed_eq hpushed with rfl | ⟨g, rfl, hwaiting | ⟨w, kind, -, hpc⟩⟩
      · simp only [step] at h
        split_ifs at h with hall
        simpa [hf] using hall
      · obtain rfl : g = f := Option.some.inj hf
        exact hs.waiting g hwaiting
      · obtain rfl : g = f := Option.some.inj hf
        exact hs.at (w := w) (hpc ▸ at_requeue kind g)
  waiting f hf := by
    refine Nat.lt_of_lt_of_le ?_ (nextFiber_le h)
    rcases waiting_step h hf with hold | ⟨w, -, hinside⟩
    · exact hs.waiting f hold
    · exact hs.at (at_of_inside hinside)
  handles w f hf := by
    refine Nat.lt_of_lt_of_le ?_ (nextFiber_le h)
    rcases handles_step h hf with hold | ⟨ft, hft, hfiber, -⟩
    · exact hs.handles w f hold
    · exact hs.queue ft hft f hfiber

/-- A fiber that the program has created and no registration holds, in hand only as that of an entry for one thread. -/
structure Pinned (workers : Finset ThreadId) (f : FiberId) (thread : ThreadId) (s : State C) : Prop where
  known : Known workers s
  low : workers.sup id < f
  created : f < s.nextFiber
  kept : ∀ w, s.cbFiber w ≠ some f
  waiting : f ∉ s.waiting
  handled : ∀ w, handles (s.pc w) = some f → w = thread
  queued : ∀ ft ∈ s.queue, ft.fiber = some f → ft.thread = some thread

variable {thread : ThreadId}

/-- A worker that is at the fiber has taken its entry from the queue. -/
theorem Pinned.at (hs : Pinned workers f thread s) (h : At (s.pc w) f) : handles (s.pc w) = some f := by
  rcases h with hhandles | hcallback | hidles
  · exact hhandles
  · exact absurd (hs.known.owners.owner w f hcallback) (hs.kept w)
  · obtain ⟨hw, rfl⟩ := hs.known.owners.idle w f hidles
    exact absurd (Finset.le_sup (f := id) hw) (Nat.not_le_of_lt hs.low)

theorem Pinned.pinnedTo (hs : Pinned workers f thread s) : PinnedTo f thread s where
  runs w hw := hs.handled w (hs.at (at_of_inside hw))
  queued := hs.queued

/-- A new fiber is named nowhere. -/
theorem Known.newFiber (hs : Known workers s) {cb : C} (h : step workers s (.newFiber cb) = .next t) :
    Pinned workers s.nextFiber thread t := by
  have hknown := known_step hs h
  cases h
  exact ⟨hknown, hs.owners.bound, Nat.lt_succ_self _, fun w hw => Nat.lt_irrefl _ (hs.owners.fresh w _ hw).2,
    fun hwaiting => Nat.lt_irrefl _ (hs.waiting _ hwaiting), fun w hw => absurd (hs.handles w _ hw) (Nat.lt_irrefl _),
    fun ft hft hf => absurd (hs.queue ft hft _ hf) (Nat.lt_irrefl _)⟩

theorem pinned_step (hs : Pinned workers f thread s) {a : Action C} (ha : PinsTo f thread s a)
    (hnot : NotRequeued workers f s a) (h : step workers s a = .next t) : Pinned workers f thread t where
  known := known_step hs.known h
  low := hs.low
  created := Nat.lt_of_lt_of_le hs.created (nextFiber_le h)
  kept w hw := by
    rcases cbFiber_step h hw with hold | ⟨rfl, -⟩
    · exact hs.kept w hold
    · exact Nat.lt_irrefl _ hs.created
  waiting hf := by
    rcases waiting_step h hf with hold | ⟨w, rfl, hinside⟩
    · exact hs.waiting hold
    · exact ha hinside
  handled w hw := by
    rcases handles_step h hw with hold | ⟨ft, hft, hfiber, hthread⟩
    · exact hs.handled w hold
    · exact hthread thread (hs.queued ft hft hfiber)
  queued ft hft hf := by
    rcases queue_step h hft with hold | hpushed
    · exact hs.queued ft hold hf
    · rcases pushed_eq hpushed with rfl | ⟨g, rfl, hwaiting | ⟨w, kind, rfl, hpc⟩⟩
      · exact ha hf
      · obtain rfl : g = f := Option.some.inj hf
        exact absurd hwaiting hs.waiting
      · obtain rfl : g = f := Option.some.inj hf
        exact absurd hpc (hnot w (step_run_eq_next h).1 rfl kind)

/-- A fiber that is put back in the queue is not for its thread any more. -/
theorem notRequeued_of_pinnedTo {a : Action C} (h : step workers s a = .next t) (ht : PinnedTo f thread t) :
    NotRequeued workers f s a := by
  rintro w - rfl kind hpc
  have hqueue := step_queue h fun v hv hhead => by
    cases hv
    rw [hpc] at hhead
    cases hhead
  have hmem : (⟨some f, none, none⟩ : FiberAndThread C) ∈ t.queue := by
    rw [hqueue]
    simp [pushed, hpc, FiberAndThread.isTask, Option.filter]
  have hthread := ht.queued _ hmem rfl
  cases hthread

end

/-! ### Whole runs -/

/-- A fiber that the program schedules for one thread only is run by that thread only, and its entries stay for that thread, exactly as long as no worker puts it back in the queue after a yield. -/
theorem pinned_iff_notRequeued (workers : Finset ThreadId) (idleCb cb : C) (thread : ThreadId) {before : List (Action C)}
    {s t : State C} (hbefore : run (step workers) (start workers idleCb) before = .next s)
    (hnew : step workers s (.newFiber cb) = .next t) (acts : List (Action C))
    (hpins : Along (step workers) (PinsTo s.nextFiber thread) t acts) :
    Throughout (step workers) (PinnedTo s.nextFiber thread) t acts ↔
      Along (step workers) (NotRequeued workers s.nextFiber) t acts := by
  have hknown : Known workers s := invariant_of_run (fun _ _ _ hs h => known_step hs h) (known_start workers idleCb) hbefore
  constructor
  · refine along_of_throughout (fun _ _ _ h ht => notRequeued_of_pinnedTo h ht) fun u a hstuck w hw ha kind hpc => ?_
    subst ha
    simp [step, hw, runStep, hpc] at hstuck
  · intro hnot
    have hall := throughout_of_along (I := Pinned workers s.nextFiber thread)
      (fun _ _ _ hs ha h => pinned_step hs ha.1 ha.2 h) (hknown.newFiber hnew) (hpins.and hnot)
    exact hall.1.mono fun _ hs => hs.pinnedTo

theorem pinned_iff_finishing :
    ∃ t, step {1, 2} (start {1, 2} ()) (.newFiber ()) = .next t ∧
      (Throughout (step {1, 2}) (PinnedTo 3 1) t
          [.schedule ⟨some 3, none, some 1⟩, .run 2, .run 1, .run 1, .run 1, .run 1, .run 1, .exit 1 .finish] ↔
        Along (step {1, 2}) (NotRequeued {1, 2} 3) t
          [.schedule ⟨some 3, none, some 1⟩, .run 2, .run 1, .run 1, .run 1, .run 1, .run 1, .exit 1 .finish]) :=
  ⟨_, rfl, pinned_iff_notRequeued {1, 2} () () 1 (run_nil _) rfl _ (by decide +kernel)⟩

/-- Scheduled for worker 1, the fiber yields once and goes on in worker 2. -/
theorem yielding_fiber_unpinned :
    ∃ t, step {1, 2} (start {1, 2} ()) (.newFiber ()) = .next t ∧
      ∃ acts : List (Action Unit), Along (step {1, 2}) (PinsTo 3 1) t acts ∧ (∀ w how, .exit w how ∈ acts → how = .yieldToReady) ∧
        ∃ u, run (step {1, 2}) t acts = .next u ∧ u.pc 2 = .running .fiber 3 :=
  ⟨_, rfl, [.schedule ⟨some 3, none, some 1⟩, .run 1, .run 1, .run 1, .run 1, .run 1, .exit 1 .yieldToReady,
    .run 1, .run 1, .run 1, .run 1, .run 2, .run 2, .run 2, .run 2, .run 2], by decide +kernel, by simp, _, rfl, by decide +kernel⟩

end Awcotn.Scheduler
