import Awcotn.Scheduler.Dequeue
import Awcotn.Scheduler.Owners

/-!
# Reuse of the callback fiber

`run` keeps the fiber of a callback that has finished in `cb_fiber`, clears it with `reset(nullptr)`, and resets it for the next callback. The object then stands for another task, or for none, while queue entries and registrations made for the earlier task may still refer to it.

Each object has an incarnation, which every `reset` raises, and each reference carries the incarnation it was made for: a queue entry, an event or timer registration, and an entry that a worker has dequeued. None of this is in the source.
-/

namespace Awcotn.Reuse

open Transition Scheduler

/-- A scheduler with the incarnations of its fibers. `registered` are the registrations and `entryTask` the queue entries by number, each with the incarnation it was made for, and `takenTask` is that of the entry a worker has last taken. -/
structure State (C : Type*) where
  base : Dequeue.State C
  incarnation : FiberId → ℕ
  registered : List (FiberId × ℕ)
  entryTask : ℕ → ℕ
  takenTask : ThreadId → ℕ

abbrev Action (C : Type*) := Dequeue.Action C

variable {C : Type*}

/-- The entry that a step hands to `scheduleNoLock`. -/
def offered (s : Dequeue.State C) : Action C → Option (FiberAndThread C)
  | .sched a => pushed s.sched a
  | .advance =>
    match s.mutex with
    | some (t, .range next _) => (s.storage t)[next]?.map fun fc => fc.entry none
    | _ => none
  | _ => none

namespace State

/-- The incarnation an offered entry is made for: that of the registration it comes from, or else the present one of its fiber. -/
def offeredTask (s : State C) (a : Action C) (ft : FiberAndThread C) : ℕ :=
  match a with
  | .sched (.trigger i) => (s.registered[i]?.map Prod.snd).getD 0
  | _ => (ft.fiber.map s.incarnation).getD 0

/-- `Fiber::reset` makes another task of the object. -/
def incarnationAfter (s : State C) : Action C → FiberId → ℕ
  | .sched (.run w) =>
    match s.base.sched.pc w with
    | .initing f _ => Function.update s.incarnation f (s.incarnation f + 1)
    | _ => s.incarnation
  | _ => s.incarnation

def registeredAfter (s : State C) : Action C → List (FiberId × ℕ)
  | .sched (.register w) =>
    match s.base.sched.pc w with
    | .running _ f => s.registered ++ [(f, s.incarnation f)]
    | _ => s.registered
  | .sched (.trigger i) => s.registered.eraseIdx i
  | _ => s.registered

def entryTaskAfter (s : State C) (a : Action C) : ℕ → ℕ :=
  match offered s.base a with
  | some ft => Function.update s.entryTask s.base.accepted.length (s.offeredTask a ft)
  | none => s.entryTask

def takenTaskAfter (s : State C) : Action C → ThreadId → ℕ
  | .advance =>
    match s.base.mutex with
    | some (w, .scan it _) =>
      Function.update s.takenTask w ((s.base.queued[it]?.map fun entry => s.entryTask entry.2).getD 0)
    | _ => s.takenTask
  | _ => s.takenTask

theorem incarnationAfter_eq (s : State C) (a : Action C) :
    s.incarnationAfter a = s.incarnation ∨
      ∃ w f cb, a = .sched (.run w) ∧ s.base.sched.pc w = .initing f cb ∧
        s.incarnationAfter a = Function.update s.incarnation f (s.incarnation f + 1) := by
  simp only [incarnationAfter]
  split
  · rename_i w
    split
    · rename_i f cb hpc
      exact .inr ⟨w, f, cb, rfl, hpc, rfl⟩
    · exact .inl rfl
  · exact .inl rfl

theorem takenTaskAfter_eq (s : State C) (a : Action C) :
    s.takenTaskAfter a = s.takenTask ∨
      ∃ w it seen task, a = .advance ∧ s.base.mutex = some (w, .scan it seen) ∧
        s.takenTaskAfter a = Function.update s.takenTask w task := by
  simp only [takenTaskAfter]
  split
  · split
    · rename_i w it seen hmutex
      exact .inr ⟨w, it, seen, _, rfl, hmutex, rfl⟩
    · exact .inl rfl
  · exact .inl rfl

end State

/-- A step as in `Dequeue.lean`, with the references kept up to date. -/
def step (workers : Finset ThreadId) (s : State C) (a : Action C) : Outcome Scheduler.Fault (State C) :=
  match Dequeue.step workers s.base a with
  | .next base => .next ⟨base, s.incarnationAfter a, s.registeredAfter a, s.entryTaskAfter a, s.takenTaskAfter a⟩
  | .abort e => .abort e
  | .disabled => .disabled

def start (workers : Finset ThreadId) (idleCb : C) : State C where
  base := Dequeue.start workers idleCb
  incarnation := fun _ => 0
  registered := []
  entryTask := fun _ => 0
  takenTask := fun _ => 0

/-! ### What is to be shown -/

/-- A dequeued entry resumes the task it was made for, and a fiber is reset for a new callback only when no queue entry and no registration refers to it. -/
def ResumesOwn (s : State C) : Action C → Prop
  | .sched (.run w) =>
    match s.base.sched.pc w with
    | .checked .fiber f => s.takenTask w = s.incarnation f ∧ ¬ Resting s.base.sched f
    | .initing f (some _) => (∀ ft ∈ s.base.sched.queue, ft.fiber ≠ some f) ∧ f ∉ s.base.sched.waiting
    | _ => True
  | _ => True

/-- When a callback has finished and its fiber is cleared, nothing refers to the fiber; and nobody schedules a fiber that a worker keeps for its next callback. -/
def FinishesAlone (s : State C) : Action C → Prop
  | .sched (.run w) => ∀ f, s.base.sched.pc w = .initing f none →
      (∀ ft ∈ s.base.sched.queue, ft.fiber ≠ some f) ∧ f ∉ s.base.sched.waiting ∧
        ∀ v, handles (s.base.sched.pc v) ≠ some f
  | .sched (.schedule ft) => ∀ f, ft.fiber = some f → ¬ Resting s.base.sched f
  | .advance => ∀ t next needTickle f, s.base.mutex = some (t, .range next needTickle) →
      (s.base.storage t)[next]? = some (.fiber (some f)) → ¬ Resting s.base.sched f
  | _ => True

/-! ### Steps of the queue -/

section

open Dequeue

variable {workers : Finset ThreadId} {s t : Dequeue.State C}

/-- A worker that holds the mutex for its scan is at the top of its loop. -/
def ScansAtHead (s : Dequeue.State C) : Prop :=
  ∀ w it seen, s.mutex = some (w, .scan it seen) → s.sched.pc w = .head

theorem sched_step {a : Scheduler.Action C} (h : Dequeue.step workers s (.sched a) = .next t) :
    Scheduler.step workers s.sched a = .next t.sched ∧ t.mutex = s.mutex ∧ s.mayStep a = true := by
  obtain ⟨sched, hmay, hsched, ⟨ft, -, rfl⟩ | ⟨-, rfl⟩⟩ := sched_eq_next h
  · refine ⟨by rw [accept_sched]; exact hsched, ?_, hmay⟩
    simp only [State.accept]
    split <;> rfl
  · exact ⟨hsched, rfl, hmay⟩

/-- A push outside the scheduler's own steps. -/
theorem pushNext_sched (u : ThreadId) (next : ℕ) (needTickle : Bool) :
    (s.pushNext u next needTickle).sched = s.sched ∨
      ∃ ft, (s.pushNext u next needTickle).sched = s.sched.schedule ft := by
  simp only [State.pushNext]
  split
  · exact .inl rfl
  · exact .inr ⟨_, accept_sched ..⟩

/-- What the workers keep, through any step. -/
theorem owners_step (hs : Owners workers s.sched) (hscan : ScansAtHead s) {a : Dequeue.Action C}
    (h : Dequeue.step workers s a = .next t) :
    Owners workers t.sched ∧ ∀ f, Resting t.sched f → Resting s.sched f ∨
      ∃ w, a = .sched (.run w) ∧ s.sched.pc w = .initing f none := by
  cases a with
  | sched a =>
      obtain ⟨howners, hrest⟩ := hs.step (sched_step h).1
      exact ⟨howners, fun f hf => (hrest f hf).imp id fun ⟨w, ha, hpc⟩ => ⟨w, by rw [ha], hpc⟩⟩
  | fill u range | range u =>
      simp only [Dequeue.step] at h
      split at h <;> cases h
      exact ⟨hs, fun f hf => .inl hf⟩
  | lock w =>
      simp only [Dequeue.step] at h
      split at h
      · split at h <;> cases h
        exact ⟨hs, fun f hf => .inl hf⟩
      · cases h
  | advance =>
      simp only [Dequeue.step] at h
      split at h
      · cases h
      · rename_i u next needTickle hmutex
        cases h
        obtain hsame | ⟨ft, hsame⟩ := pushNext_sched (s := s) u next needTickle <;> rw [hsame]
        · exact ⟨hs, fun f hf => .inl hf⟩
        · exact ⟨hs.move (by simp [schedule_eq]) (by simp [schedule_eq]) (by simp) (by simp) (by simp),
            fun f hf => .inl (resting_of_frame (by simp [schedule_eq]) (by simp) hf)⟩
      · rename_i w it seen hmutex
        have hhead := hscan w it seen hmutex
        obtain ⟨-, rfl⟩ | ⟨ft, -, ⟨-, rfl⟩ | ⟨-, rfl⟩⟩ := examine_eq_next h
        · obtain ⟨howners, hrest⟩ := hs.goto (t := s.sched.goto w .noTask) .noTask rfl rfl rfl hhead rfl rfl rfl
          exact ⟨howners, fun f hf => .inl (hrest f hf)⟩
        · exact ⟨hs, fun f hf => .inl hf⟩
        · obtain ⟨howners, hrest⟩ := hs.goto (t := (s.take w it ft).sched) (.picked ft) rfl rfl rfl hhead rfl rfl rfl
          exact ⟨howners, fun f hf => .inl (hrest f hf)⟩

/-- A worker moves in `run`, in its fiber's code, or in its scan. -/
theorem scansAtHead_step (hscan : ScansAtHead s) {a : Dequeue.Action C} (h : Dequeue.step workers s a = .next t) :
    ScansAtHead t := by
  intro w it seen hmutex
  cases a with
  | sched a =>
      obtain ⟨hsched, hsame, hmay⟩ := sched_step h
      have hhead := hscan w it seen (hsame ▸ hmutex)
      cases hworker : a.worker with
      | none => rw [(step_eq_next_of_worker_eq_none hsched hworker).1, hhead]
      | some v =>
          cases a with
          | run u =>
              have hne : w ≠ u := by
                rintro rfl
                exact head_of_mayStep hmay rfl hhead
              obtain ⟨-, hsched⟩ := step_run_eq_next hsched
              obtain ⟨point, hrun⟩ := runStep_eq_next hsched
              rw [hrun.pc, Function.update_of_ne hne, hhead]
          | exit u how =>
              obtain ⟨-, hsched⟩ := step_exit_eq_next hsched
              obtain ⟨kind, g, hpc, hgoto, -⟩ := exitStep_eq_next hsched
              have hne : w ≠ u := by
                rintro rfl
                rw [hhead] at hpc
                cases hpc
              rw [hgoto, Function.update_of_ne hne, hhead]
          | _ => cases hworker
  | fill u range | range u =>
      simp only [Dequeue.step] at h
      split at h <;> cases h
      first
        | exact hscan w it seen hmutex
        | cases hmutex
  | lock u =>
      simp only [Dequeue.step] at h
      split at h
      · rename_i hpc
        split at h <;> cases h
        obtain ⟨rfl, -⟩ : u = w ∧ _ := by simpa using hmutex
        exact hpc
      · cases h
  | advance =>
      simp only [Dequeue.step] at h
      split at h
      · cases h
      · cases h
        simp only [State.pushNext, State.accept] at hmutex
        (repeat' split at hmutex) <;> cases hmutex
      · rename_i u it' seen' hheld
        obtain ⟨-, rfl⟩ | ⟨ft, -, ⟨-, rfl⟩ | ⟨-, rfl⟩⟩ := examine_eq_next h
        · cases hmutex
        · obtain ⟨rfl, -⟩ : u = w ∧ _ := by simpa using hmutex
          exact hscan u it' seen' hheld
        · cases hmutex

/-- The queue gets the entry that is offered, with the next number, and no other. -/
theorem queued_step {a : Dequeue.Action C} (h : Dequeue.step workers s a = .next t) {e : FiberAndThread C × ℕ}
    (he : e ∈ t.queued) : e ∈ s.queued ∨ ∃ ft, offered s a = some ft ∧ e = (ft, s.accepted.length) := by
  have haccept : ∀ (u : Dequeue.State C) ft, e ∈ (u.accept ft).queued → e ∈ u.queued ∨ e = (ft, u.accepted.length) := by
    intro u ft hmem
    simp only [State.accept] at hmem
    split at hmem
    · simpa using hmem
    · exact .inl hmem
  cases a with
  | sched a =>
      obtain ⟨sched, -, -, ⟨ft, hpushed, rfl⟩ | ⟨-, rfl⟩⟩ := sched_eq_next h
      · exact (haccept _ ft he).imp id fun heq => ⟨ft, hpushed, heq⟩
      · exact .inl he
  | fill u range | range u =>
      simp only [Dequeue.step] at h
      split at h <;> cases h
      exact .inl he
  | lock w =>
      simp only [Dequeue.step] at h
      split at h
      · split at h <;> cases h
        exact .inl he
      · cases h
  | advance =>
      simp only [Dequeue.step] at h
      split at h
      · cases h
      · rename_i u next needTickle hmutex
        cases h
        simp only [State.pushNext] at he
        split at he
        · exact .inl he
        · rename_i fc hfc
          exact (haccept _ _ he).imp id fun heq => ⟨fc.entry none, by simp [offered, hmutex, hfc], heq⟩
      · obtain ⟨-, rfl⟩ | ⟨ft, -, ⟨-, rfl⟩ | ⟨-, rfl⟩⟩ := examine_eq_next h
        · exact .inl he
        · exact .inl he
        · exact .inl (List.mem_of_mem_eraseIdx he)

/-- A worker handles what it has handled before, or the entry it has just taken. -/
theorem handles_step (hqueue : QueueInv s) (hscan : ScansAtHead s) {a : Dequeue.Action C}
    (h : Dequeue.step workers s a = .next t) {w : ThreadId} {f : FiberId} (hf : handles (t.sched.pc w) = some f) :
    (handles (s.sched.pc w) = some f ∧ (a = .advance → ∀ it seen, s.mutex ≠ some (w, .scan it seen))) ∨
      ∃ it seen ft number, a = .advance ∧ s.mutex = some (w, .scan it seen) ∧ s.queued[it]? = some (ft, number) ∧
        ft.fiber = some f := by
  have hnotHead : ∀ v, handles (s.sched.pc v) = some f → ∀ it seen, s.mutex ≠ some (v, .scan it seen) := by
    intro v hv it seen hmutex
    rw [hscan v it seen hmutex] at hv
    cases hv
  cases a with
  | sched a =>
      left
      refine ⟨?_, by simp⟩
      obtain ⟨hsched, -, hmay⟩ := sched_step h
      cases hworker : a.worker with
      | none => rwa [(step_eq_next_of_worker_eq_none hsched hworker).1] at hf
      | some v =>
          cases a with
          | run u =>
              obtain ⟨-, hsched⟩ := step_run_eq_next hsched
              obtain ⟨point, hrun⟩ := runStep_eq_next hsched
              rw [hrun.pc] at hf
              by_cases hu : w = u
              · subst hu
                rw [Function.update_self] at hf
                exact next_handles hrun.next (head_of_mayStep hmay rfl) hf
              · rwa [Function.update_of_ne hu] at hf
          | exit u how =>
              obtain ⟨-, hsched⟩ := step_exit_eq_next hsched
              obtain ⟨kind, g, hpc, hgoto, -⟩ := exitStep_eq_next hsched
              rw [hgoto] at hf
              by_cases hu : w = u
              · subst hu
                rw [Function.update_self] at hf
                rw [hpc]
                cases kind <;> exact hf
              · rwa [Function.update_of_ne hu] at hf
          | _ => cases hworker
  | fill u range | range u =>
      simp only [Dequeue.step] at h
      split at h <;> cases h
      exact .inl ⟨hf, by simp⟩
  | lock v =>
      simp only [Dequeue.step] at h
      split at h
      · split at h <;> cases h
        exact .inl ⟨hf, by simp⟩
      · cases h
  | advance =>
      simp only [Dequeue.step] at h
      split at h
      · cases h
      · rename_i u next needTickle hmutex
        cases h
        left
        have hpc : (s.pushNext u next needTickle).sched.pc = s.sched.pc := (pushNext_frame u next needTickle).2
        rw [hpc] at hf
        exact ⟨hf, fun _ => hnotHead w hf⟩
      · rename_i u it seen hmutex
        obtain ⟨-, rfl⟩ | ⟨ft, hget, ⟨-, rfl⟩ | ⟨-, rfl⟩⟩ := examine_eq_next h
        · by_cases hu : w = u
          · subst hu
            simp [Scheduler.State.goto, handles] at hf
          · simp only [Scheduler.State.goto, Function.update_of_ne hu] at hf
            exact .inl ⟨hf, fun _ => hnotHead w hf⟩
        · exact .inl ⟨hf, fun _ => hnotHead w hf⟩
        · by_cases hu : w = u
          · subst hu
            obtain ⟨number, hnumber⟩ := hqueue.queued_of_queue hget
            refine .inr ⟨it, seen, ft, number, rfl, hmutex, hnumber, ?_⟩
            simpa [State.take, Scheduler.State.goto, handles] using hf
          · simp only [State.take, Scheduler.State.goto, Function.update_of_ne hu] at hf
            exact .inl ⟨hf, fun _ => hnotHead w hf⟩

end

/-! ### The invariant -/

/-- A reference made for an incarnation of a fiber is good: that is the present one, and it stands for a task. -/
def Current (s : State C) (f : FiberId) (task : ℕ) : Prop := s.incarnation f = task ∧ ¬ Resting s.base.sched f

/-- Every reference is good. -/
structure TaskInv (workers : Finset ThreadId) (s : State C) : Prop where
  queue : Dequeue.QueueInv s.base
  owners : Owners workers s.base.sched
  scan : ScansAtHead s.base
  entries : ∀ ft number f, (ft, number) ∈ s.base.queued → ft.fiber = some f → Current s f (s.entryTask number)
  registered : s.registered.map Prod.fst = s.base.sched.waiting
  current : ∀ r ∈ s.registered, Current s r.1 r.2
  taken : ∀ w f, handles (s.base.sched.pc w) = some f → Current s f (s.takenTask w)

theorem taskInv_start (workers : Finset ThreadId) (idleCb : C) : TaskInv workers (start workers idleCb) where
  queue := Dequeue.queueInv_start workers idleCb
  owners := owners_start workers idleCb
  scan := nofun
  entries := nofun
  registered := rfl
  current := nofun
  taken := nofun

section

variable {workers : Finset ThreadId} {s t : State C} {base : Dequeue.State C} {a : Action C} {f : FiberId} {task : ℕ}

theorem step_eq_next (h : step workers s a = .next t) :
    ∃ base, Dequeue.step workers s.base a = .next base ∧
      t = ⟨base, s.incarnationAfter a, s.registeredAfter a, s.entryTaskAfter a, s.takenTaskAfter a⟩ := by
  simp only [step] at h
  split at h
  · rename_i base hbase
    cases h
    exact ⟨base, hbase, rfl⟩
  · cases h
  · cases h

/-- A fiber that is referred to, by an entry, by a registration or by a worker that has dequeued an entry. -/
def Referenced (s : State C) (f : FiberId) : Prop :=
  (∃ ft ∈ s.base.sched.queue, ft.fiber = some f) ∨ f ∈ s.base.sched.waiting ∨
    ∃ w, handles (s.base.sched.pc w) = some f

/-- A reference to a fiber that is not reset in the step stays good. -/
theorem current_of_not_initing (hs : TaskInv workers s) (h : Dequeue.step workers s.base a = .next base)
    (hnot : ∀ w cb, a = .sched (.run w) → s.base.sched.pc w ≠ .initing f cb) (hcurrent : Current s f task) :
    s.incarnationAfter a f = task ∧ ¬ Resting base.sched f := by
  obtain ⟨htask, hrest⟩ := hcurrent
  refine ⟨?_, fun hafter => ?_⟩
  · rw [← htask]
    obtain hsame | ⟨w, g, cb, rfl, hpc, hreset⟩ := s.incarnationAfter_eq a
    · rw [hsame]
    · have hne : f ≠ g := by
        rintro rfl
        exact hnot w cb rfl hpc
      rw [hreset, Function.update_of_ne hne]
  · obtain hbefore | ⟨w, ha, hpc⟩ := (owners_step hs.owners hs.scan h).2 f hafter
    · exact hrest hbefore
    · exact hnot w none ha hpc

/-- A good reference stays good: its fiber is not reset meanwhile. -/
theorem current_step (hs : TaskInv workers s) (ha : FinishesAlone s a) (h : Dequeue.step workers s.base a = .next base)
    (hcurrent : Current s f task) (href : Referenced s f) :
    s.incarnationAfter a f = task ∧ ¬ Resting base.sched f := by
  refine current_of_not_initing hs h (fun w cb heq hpc => ?_) hcurrent
  subst heq
  cases cb with
  | some c => exact hcurrent.2 ⟨w, hs.owners.owner w f (by rw [hpc]; rfl), by rw [hpc]; rfl⟩
  | none =>
      obtain ⟨hqueue, hwaiting, hhandles⟩ := ha f hpc
      rcases href with ⟨ft, hmem, hft⟩ | hmem | ⟨v, hv⟩
      · exact hqueue ft hmem hft
      · exact hwaiting hmem
      · exact hhandles v hv

/-- Nobody offers a fiber that stands for no task. -/
theorem offered_current (hs : TaskInv workers s) (ha : FinishesAlone s a) {ft : FiberAndThread C}
    (hoffered : offered s.base a = some ft) (hf : ft.fiber = some f) :
    Current s f (s.offeredTask a ft) ∧ ∀ w cb, a = .sched (.run w) → s.base.sched.pc w ≠ .initing f cb := by
  cases a with
  | sched a =>
      cases a with
      | schedule ft' =>
          obtain rfl : ft' = ft := Option.some.inj hoffered
          exact ⟨⟨by simp [State.offeredTask, hf], ha f hf⟩, by simp⟩
      | trigger i =>
          obtain ⟨g, hg, rfl⟩ := Option.map_eq_some_iff.1 hoffered
          obtain rfl : g = f := Option.some.inj hf
          rw [← hs.registered, List.getElem?_map, Option.map_eq_some_iff] at hg
          obtain ⟨r, hr, rfl⟩ := hg
          refine ⟨?_, by simp⟩
          simp only [State.offeredTask, hr, Option.map_some, Option.getD_some]
          exact hs.current r (List.mem_of_getElem? hr)
      | run w =>
          simp only [offered, pushed] at hoffered
          split at hoffered
          · rename_i kind g hpc
            cases hoffered
            obtain rfl : g = f := Option.some.inj hf
            refine ⟨⟨rfl, ?_⟩, fun v cb heq hv => ?_⟩
            · cases kind with
              | fiber => exact (hs.taken w g (by rw [hpc]; rfl)).2
              | cb => exact hs.owners.not_resting (w := w) (.inl (by rw [hpc]; exact ⟨rfl, rfl⟩))
              | idle => exact hs.owners.not_resting (w := w) (.inr (by rw [hpc]; rfl))
            · cases heq
              rw [hpc] at hv
              cases hv
          · cases hoffered
      | _ => cases hoffered
  | advance =>
      simp only [offered] at hoffered
      split at hoffered
      · rename_i u next needTickle hmutex
        obtain ⟨fc, hfc, rfl⟩ := Option.map_eq_some_iff.1 hoffered
        cases fc with
        | fiber g =>
            obtain rfl : g = some f := hf
            exact ⟨⟨rfl, ha u next needTickle f hmutex hfc⟩, by simp⟩
        | cb c => cases hf
      · cases hoffered
  | _ => cases hoffered

theorem number_lt (hs : Dequeue.QueueInv base) {ft : FiberAndThread C} {number : ℕ} (h : (ft, number) ∈ base.queued) :
    number < base.accepted.length := by
  have hmem : (ft, number) ∈ base.accepted.zipIdx := hs.perm.mem_iff.1 (List.mem_append_left _ h)
  simpa using List.snd_lt_add_of_mem_zipIdx hmem

theorem entries_step (hs : TaskInv workers s) (ha : FinishesAlone s a) (h : Dequeue.step workers s.base a = .next base)
    {ft : FiberAndThread C} {number : ℕ} (hmem : (ft, number) ∈ base.queued) (hf : ft.fiber = some f) :
    s.incarnationAfter a f = s.entryTaskAfter a number ∧ ¬ Resting base.sched f := by
  obtain hold | ⟨ft', hoffered, heq⟩ := queued_step h hmem
  · have hentry : s.entryTaskAfter a number = s.entryTask number := by
      cases hoffered : offered s.base a with
      | none => simp only [State.entryTaskAfter, hoffered]
      | some ft' =>
          simp only [State.entryTaskAfter, hoffered]
          rw [Function.update_of_ne (Nat.ne_of_lt (number_lt hs.queue hold))]
    rw [hentry]
    have hqueue : ft ∈ s.base.sched.queue := hs.queue.numbered ▸ List.mem_map_of_mem (f := Prod.fst) hold
    exact current_step hs ha h (hs.entries ft number f hold hf) (.inl ⟨ft, hqueue, hf⟩)
  · obtain ⟨rfl, rfl⟩ := Prod.mk.inj heq
    obtain ⟨hcurrent, hnot⟩ := offered_current hs ha hoffered hf
    simp only [State.entryTaskAfter, hoffered, Function.update_self]
    exact current_of_not_initing hs h hnot hcurrent

theorem waiting_of_not_sched (h : Dequeue.step workers s.base a = .next base) (ha : ∀ b, a ≠ .sched b) :
    base.sched.waiting = s.base.sched.waiting := by
  cases a with
  | sched b => exact absurd rfl (ha b)
  | fill u range | range u =>
      simp only [Dequeue.step] at h
      split at h <;> cases h
      rfl
  | lock w =>
      simp only [Dequeue.step] at h
      split at h
      · split at h <;> cases h
        rfl
      · cases h
  | advance =>
      simp only [Dequeue.step] at h
      split at h
      · cases h
      · rename_i u next needTickle hmutex
        cases h
        obtain hsame | ⟨ft, hsame⟩ := pushNext_sched (s := s.base) u next needTickle
        · rw [hsame]
        · simp [hsame, schedule_eq]
      · obtain ⟨-, rfl⟩ | ⟨ft, -, ⟨-, rfl⟩ | ⟨-, rfl⟩⟩ := Dequeue.examine_eq_next h <;> rfl

theorem registered_step (hs : TaskInv workers s) (h : Dequeue.step workers s.base a = .next base) :
    (s.registeredAfter a).map Prod.fst = base.sched.waiting := by
  cases a with
  | sched a =>
      obtain ⟨v, kind, g, rfl, hpc, hwaiting⟩ | ⟨i, rfl, hwaiting⟩ | ⟨hwaiting, hregister, htrigger⟩ :=
        step_waiting (sched_step h).1
      · simp [State.registeredAfter, hpc, hwaiting, hs.registered]
      · rw [hwaiting, ← hs.registered]
        exact (List.eraseIdx_map ..).symm
      · rw [hwaiting, ← hs.registered]
        cases a with
        | register v => exact absurd rfl (hregister v)
        | trigger i => exact absurd rfl (htrigger i)
        | _ => rfl
  | _ => rw [waiting_of_not_sched h nofun, ← hs.registered]; rfl

theorem current_registered (hs : TaskInv workers s) (ha : FinishesAlone s a) (h : Dequeue.step workers s.base a = .next base)
    {r : FiberId × ℕ} (hr : r ∈ s.registeredAfter a) : s.incarnationAfter a r.1 = r.2 ∧ ¬ Resting base.sched r.1 := by
  have hold : r ∈ s.registered → s.incarnationAfter a r.1 = r.2 ∧ ¬ Resting base.sched r.1 := by
    intro hmem
    have hwaiting : r.1 ∈ s.base.sched.waiting := hs.registered ▸ List.mem_map_of_mem (f := Prod.fst) hmem
    exact current_step hs ha h (hs.current r hmem) (.inr (.inl hwaiting))
  simp only [State.registeredAfter] at hr
  split at hr
  · rename_i w
    split at hr
    · rename_i kind g hpc
      rcases List.mem_append.1 hr with hmem | hnew
      · exact hold hmem
      · obtain rfl := List.mem_singleton.1 hnew
        refine current_of_not_initing hs h nofun ⟨rfl, ?_⟩
        cases kind with
        | fiber => exact (hs.taken w g (by rw [hpc]; rfl)).2
        | cb => exact hs.owners.not_resting (w := w) (.inl (by rw [hpc]; exact ⟨rfl, rfl⟩))
        | idle => exact hs.owners.not_resting (w := w) (.inr (by rw [hpc]; rfl))
    · exact hold hr
  · exact hold (List.mem_of_mem_eraseIdx hr)
  · exact hold hr

theorem taken_step (hs : TaskInv workers s) (ha : FinishesAlone s a) (h : Dequeue.step workers s.base a = .next base)
    {w : ThreadId} (hf : handles (base.sched.pc w) = some f) :
    s.incarnationAfter a f = s.takenTaskAfter a w ∧ ¬ Resting base.sched f := by
  obtain ⟨hold, hother⟩ | ⟨it, seen, ft, number, rfl, hmutex, hget, hft⟩ := handles_step hs.queue hs.scan h hf
  · have htaken : s.takenTaskAfter a w = s.takenTask w := by
      obtain hsame | ⟨v, it, seen, task, rfl, hmutex, htake⟩ := s.takenTaskAfter_eq a
      · rw [hsame]
      · have hne : w ≠ v := by
          rintro rfl
          exact hother rfl it seen hmutex
        rw [htake, Function.update_of_ne hne]
    rw [htaken]
    exact current_step hs ha h (hs.taken w f hold) (.inr (.inr ⟨w, hold⟩))
  · have hmem := List.mem_of_getElem? hget
    have hqueue : ft ∈ s.base.sched.queue := hs.queue.numbered ▸ List.mem_map_of_mem (f := Prod.fst) hmem
    simp only [State.takenTaskAfter, hmutex, hget, Option.map_some, Option.getD_some, Function.update_self]
    exact current_step hs ha h (hs.entries ft number f hmem hft) (.inl ⟨ft, hqueue, hft⟩)

theorem step_taskInv (hs : TaskInv workers s) (ha : FinishesAlone s a) (h : step workers s a = .next t) :
    TaskInv workers t := by
  obtain ⟨base, hbase, rfl⟩ := step_eq_next h
  exact ⟨Dequeue.step_queueInv hs.queue hbase, (owners_step hs.owners hs.scan hbase).1, scansAtHead_step hs.scan hbase,
    fun ft number f hmem hf => entries_step hs ha hbase hmem hf, registered_step hs hbase,
    fun r hr => current_registered hs ha hbase hr, fun w f hf => taken_step hs ha hbase hf⟩

theorem resumesOwn_of_taskInv (hs : TaskInv workers s) (a : Action C) : ResumesOwn s a := by
  cases a with
  | sched a =>
      cases a with
      | run w =>
          simp only [ResumesOwn]
          split
          · rename_i f hpc
            obtain ⟨htask, hrest⟩ := hs.taken w f (by rw [hpc]; rfl)
            exact ⟨htask.symm, hrest⟩
          · rename_i f c hpc
            have hrest : Resting s.base.sched f := ⟨w, hs.owners.owner w f (by rw [hpc]; rfl), by rw [hpc]; rfl⟩
            constructor
            · intro ft hmem hft
              rw [← hs.queue.numbered] at hmem
              obtain ⟨⟨ft', number⟩, hqueued, rfl⟩ := List.mem_map.1 hmem
              exact (hs.entries ft' number f hqueued hft).2 hrest
            · intro hmem
              rw [← hs.registered] at hmem
              obtain ⟨r, hr, rfl⟩ := List.mem_map.1 hmem
              exact (hs.current r hr).2 hrest
          · trivial
      | _ => trivial
  | _ => trivial

end

/-- In every run in which a callback leaves no reference to its fiber behind when it finishes, and nobody schedules a fiber that is kept for the next callback, every dequeued entry resumes the task it was made for, and a fiber is reset for a new callback only when nothing refers to it. -/
theorem resumes_own_of_finishesAlone (workers : Finset ThreadId) (idleCb : C) (acts : List (Action C))
    (h : Along (step workers) FinishesAlone (start workers idleCb) acts) :
    Along (step workers) ResumesOwn (start workers idleCb) acts :=
  (throughout_of_along (fun _ _ _ hs ha ht => step_taskInv hs ha ht) (taskInv_start workers idleCb) h).2.mono
    fun _ a hs => resumesOwn_of_taskInv hs.1 a

/-! ### A run that reuses a callback fiber -/

/-- Threads that are no workers stand at the top of the loop, keep no fiber and do not scan. -/
structure Outside (workers : Finset ThreadId) (s : Dequeue.State C) : Prop where
  head : ∀ w ∉ workers, s.sched.pc w = .head
  kept : ∀ w ∉ workers, s.sched.cbFiber w = none
  scan : ∀ w it seen, s.mutex = some (w, .scan it seen) → w ∈ workers

theorem Outside.step {workers : Finset ThreadId} {s t : Dequeue.State C} {a : Action C} (hs : Outside workers s)
    (h : Dequeue.step workers s a = .next t) : Outside workers t := by
  cases a with
  | sched a =>
      obtain ⟨hsched, hmutex, -⟩ := sched_step h
      have hother : ∀ w ∉ workers, a.worker ≠ some w := by
        intro w hw hworker
        cases a with
        | run v => exact hw (Option.some.inj hworker ▸ (step_run_eq_next hsched).1)
        | exit v how => exact hw (Option.some.inj hworker ▸ (step_exit_eq_next hsched).1)
        | _ => cases hworker
      refine ⟨fun w hw => ?_, fun w hw => ?_, hmutex ▸ hs.scan⟩
      · rw [(step_others hsched (hother w hw)).1, hs.head w hw]
      · rw [(step_others hsched (hother w hw)).2, hs.kept w hw]
  | fill u range =>
      simp only [Dequeue.step] at h
      split at h <;> cases h
      exact ⟨hs.head, hs.kept, hs.scan⟩
  | range u =>
      simp only [Dequeue.step] at h
      split at h <;> cases h
      exact ⟨hs.head, hs.kept, by simp⟩
  | lock w =>
      simp only [Dequeue.step] at h
      split at h
      · split at h
        · rename_i hw
          cases h
          refine ⟨hs.head, hs.kept, fun v it seen hv => ?_⟩
          cases hv
          exact hw.1
        · cases h
      · cases h
  | advance =>
      simp only [Dequeue.step] at h
      split at h
      · cases h
      · rename_i u next needTickle hmutex
        cases h
        have hscan : ∀ v it seen, (s.pushNext u next needTickle).mutex ≠ some (v, .scan it seen) := by
          intro v it seen hv
          simp only [Dequeue.State.pushNext, Dequeue.State.accept] at hv
          (repeat' split at hv) <;> cases hv
        obtain hsame | ⟨ft, hsame⟩ := pushNext_sched (s := s) u next needTickle
        · exact ⟨hsame ▸ hs.head, hsame ▸ hs.kept, fun v it seen hv => absurd hv (hscan v it seen)⟩
        · refine ⟨?_, ?_, fun v it seen hv => absurd hv (hscan v it seen)⟩
          · rw [hsame, schedule_pc]
            exact hs.head
          · rw [hsame, schedule_eq]
            exact hs.kept
      · rename_i u it seen hmutex
        have hu := hs.scan u it seen hmutex
        have hmoved : ∀ pc, ∀ w ∉ workers, Function.update s.sched.pc u pc w = .head := by
          intro pc w hw
          rw [Function.update_of_ne (ne_of_mem_of_not_mem hu hw).symm, hs.head w hw]
        obtain ⟨-, rfl⟩ | ⟨ft, -, ⟨-, rfl⟩ | ⟨-, rfl⟩⟩ := Dequeue.examine_eq_next h
        · exact ⟨hmoved _, hs.kept, by simp⟩
        · refine ⟨hs.head, hs.kept, fun v it' seen' hv => ?_⟩
          cases hv
          exact hu
        · exact ⟨hmoved _, hs.kept, by simp [Dequeue.State.take]⟩

/-- `FinishesAlone`, with the workers of the run in the place of all threads. -/
def finishesAloneAmong (workers : Finset ThreadId) (s : State C) : Action C → Bool
  | .sched (.run w) =>
    match s.base.sched.pc w with
    | .initing f none => decide ((∀ ft ∈ s.base.sched.queue, ft.fiber ≠ some f) ∧ f ∉ s.base.sched.waiting ∧
        ∀ v ∈ workers, handles (s.base.sched.pc v) ≠ some f)
    | _ => true
  | .sched (.schedule ft) => decide (∀ f ∈ ft.fiber, ∀ v ∈ workers, s.base.sched.cbFiber v = some f →
      runsCallback (s.base.sched.pc v) = true)
  | .advance =>
    match s.base.mutex with
    | some (t, .range next _) =>
      match (s.base.storage t)[next]? with
      | some (.fiber (some f)) => decide (∀ v ∈ workers, s.base.sched.cbFiber v = some f →
          runsCallback (s.base.sched.pc v) = true)
      | _ => true
    | _ => true
  | _ => true

theorem not_resting_of_among {workers : Finset ThreadId} {s : Dequeue.State C} {f : FiberId} (hs : Outside workers s)
    (h : ∀ v ∈ workers, s.sched.cbFiber v = some f → runsCallback (s.sched.pc v) = true) : ¬ Resting s.sched f := by
  rintro ⟨v, hkept, hidle⟩
  by_cases hv : v ∈ workers
  · rw [h v hv hkept] at hidle
    cases hidle
  · rw [hs.kept v hv] at hkept
    cases hkept

theorem finishesAlone_of_among {workers : Finset ThreadId} {s : State C} {a : Action C} (hs : Outside workers s.base)
    (h : finishesAloneAmong workers s a = true) : FinishesAlone s a := by
  cases a with
  | sched a =>
      cases a with
      | run w =>
          intro f hpc
          simp only [finishesAloneAmong, hpc, decide_eq_true_eq] at h
          obtain ⟨hqueue, hwaiting, hhandles⟩ := h
          refine ⟨hqueue, hwaiting, fun v hv => ?_⟩
          by_cases hmem : v ∈ workers
          · exact hhandles v hmem hv
          · rw [hs.head v hmem] at hv
            cases hv
      | schedule ft =>
          intro f hf
          simp only [finishesAloneAmong, decide_eq_true_eq] at h
          exact not_resting_of_among hs (h f hf)
      | _ => trivial
  | advance =>
      intro u next needTickle f hmutex hget
      simp only [finishesAloneAmong, hmutex, hget, decide_eq_true_eq] at h
      exact not_resting_of_among hs h
  | _ => trivial

theorem along_finishesAlone {workers : Finset ThreadId} {idleCb : C} {acts : List (Action C)}
    (h : Along (step workers) (fun s a => finishesAloneAmong workers s a = true) (start workers idleCb) acts) :
    Along (step workers) FinishesAlone (start workers idleCb) acts := by
  have hinv := (throughout_of_along (I := fun s : State C => Outside workers s.base) (fun s a t hs _ ht => by
    obtain ⟨base, hbase, rfl⟩ := step_eq_next ht
    exact hs.step hbase) ⟨fun _ _ => rfl, fun _ _ => rfl, fun _ _ _ hmutex => by cases hmutex⟩ h).2
  exact hinv.mono fun s a hs => finishesAlone_of_among hs.1 hs.2

/-- Two workers. A callback on fiber 5 registers its fiber, is woken while it runs, and returns; worker 2 dequeues the wake-up and drops it, and worker 1 clears the fiber. Worker 1 reuses it for a callback from a range, which registers itself and yields; its wake-up is dequeued by worker 2. A fiber of the range and a fiber scheduled by hand run as well. -/
def reusingRun : List (Action Unit) :=
  [[.sched (.newFiber ()), .sched (.newFiber ()), .sched (.schedule ⟨none, some (), none⟩), .lock 1, .advance],
    List.replicate 4 (.sched (.run 1)), [.sched (.register 1), .sched (.trigger 0), .sched (.exit 1 .finish)],
    [.lock 2, .advance, .sched (.run 2)], List.replicate 5 (.sched (.run 1)),
    [.fill 9 [.cb (some ()), .fiber (some 3)], .range 9, .advance, .advance, .advance],
    [.lock 1, .advance], List.replicate 6 (.sched (.run 1)),
    List.replicate 4 (.sched (.run 2)), [.sched (.exit 2 .yieldToHold)], List.replicate 4 (.sched (.run 2)),
    [.lock 2, .advance], List.replicate 4 (.sched (.run 2)), [.sched (.exit 2 .finish)], List.replicate 3 (.sched (.run 2)),
    [.sched (.register 1), .sched (.exit 1 .yieldToHold)], List.replicate 4 (.sched (.run 1)),
    [.sched (.trigger 0), .sched (.schedule ⟨some 4, none, some 1⟩), .lock 2, .advance], List.replicate 4 (.sched (.run 2)),
    [.lock 1, .advance], List.replicate 4 (.sched (.run 1))].flatten

/-- The entry that worker 2 resumes at the end is for the second callback on the fiber, which has been reset twice. -/
theorem resumes_own_reusing :
    (∃ t, run (step {1, 2}) (start {1, 2} ()) reusingRun = .next t ∧ t.base.sched.pc 2 = .running .fiber 5 ∧
      t.incarnation 5 = 2 ∧ t.takenTask 2 = 2) ∧
    Along (step {1, 2}) ResumesOwn (start {1, 2} ()) reusingRun :=
  ⟨⟨_, rfl, by decide +kernel, by decide +kernel, by decide +kernel⟩,
    resumes_own_of_finishesAlone {1, 2} () _ (along_finishesAlone (by decide +kernel))⟩

/-- The part of `ResumesOwn` that a run on a machine can test. -/
def resumesPresent (s : State C) : Action C → Bool
  | .sched (.run w) =>
    match s.base.sched.pc w with
    | .checked .fiber f => s.takenTask w == s.incarnation f
    | _ => true
  | _ => true

theorem resumesPresent_of_resumesOwn (s : State C) (a : Action C) (h : ResumesOwn s a) : resumesPresent s a = true := by
  simp only [resumesPresent]
  split
  · split
    · rename_i w f hpc
      simp only [ResumesOwn, hpc] at h
      simpa using h.1
    · rfl
  · rfl

/-- A callback registers its fiber and returns. The registration fires when the fiber has been cleared, and the worker runs it without a function; or it fires when the fiber runs the next callback, and resumes that one. -/
theorem finished_callback_resumed :
    (¬ Along (step {1}) ResumesOwn (start {1} ())
      ([[.sched (.schedule ⟨none, some (), none⟩), .lock 1, .advance], List.replicate 4 (.sched (.run 1)),
        [.sched (.register 1), .sched (.exit 1 .finish)], List.replicate 5 (.sched (.run 1)),
        [.sched (.trigger 0), .lock 1, .advance], List.replicate 3 (.sched (.run 1))] : List (List (Action Unit))).flatten) ∧
    ¬ Along (step {1}) ResumesOwn (start {1} ())
      ([[.sched (.schedule ⟨none, some (), none⟩), .lock 1, .advance], List.replicate 4 (.sched (.run 1)),
        [.sched (.register 1), .sched (.exit 1 .finish)], List.replicate 5 (.sched (.run 1)),
        [.sched (.schedule ⟨none, some (), none⟩), .lock 1, .advance], List.replicate 6 (.sched (.run 1)),
        [.sched (.trigger 0), .sched (.exit 1 .yieldToHold)], List.replicate 4 (.sched (.run 1)),
        [.lock 1, .advance], List.replicate 3 (.sched (.run 1))] : List (List (Action Unit))).flatten := by
  constructor
  · intro h
    exact absurd (h.mono resumesPresent_of_resumesOwn) (by decide +kernel)
  · intro h
    exact absurd (h.mono resumesPresent_of_resumesOwn) (by decide +kernel)

end Awcotn.Reuse
