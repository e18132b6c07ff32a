import Awcotn.Scheduler.Worker

/-!
# What a step of a worker can do

One inversion lemma for the steps of `run` and one for the ways fiber code leaves. Each names the program points before and after and says which fiber is written and how the active count moves; everything about runs is derived from them.
-/

namespace Awcotn.Scheduler

open Transition

variable {C : Type*} {s t : State C} {w : ThreadId}

/-- The program points a worker can move between in `run`. -/
inductive Next (s : State C) (w : ThreadId) : Pc C → Pc C → Prop
  | dequeue (ft : FiberAndThread C) : ft ∈ s.queue → ft.fiber.isSome ∨ ft.cb.isSome → Next s w .head (.picked ft)
  | noEntry : Next s w .head .noTask
  | takeFiber (ft : FiberAndThread C) (f : FiberId) : ft.fiber = some f → (s.fibers f).state.dead = false →
      Next s w (.picked ft) (.swapIn .fiber f)
  | reuseCb (ft : FiberAndThread C) (f : FiberId) (c : C) : ft.cb = some c → s.cbFiber w = some f →
      Next s w (.picked ft) (.resetting f (some c))
  | newCb (ft : FiberAndThread C) (c : C) : ft.cb = some c → Next s w (.picked ft) (.swapIn .cb s.nextFiber)
  | finished (ft : FiberAndThread C) : ft.cb = none → (∀ f, ft.fiber = some f → (s.fibers f).state.dead) →
      Next s w (.picked ft) .noTask
  | idle : Next s w .noTask (.swapIn .idle (s.idleFiber w))
  | exit : (s.fibers (s.idleFiber w)).state = .TERM → Next s w .noTask .exited
  | reset (f : FiberId) (cb : Option C) : Next s w (.resetting f cb) (.initing f cb)
  | init (f : FiberId) (c : C) : Next s w (.initing f (some c)) (.swapIn .cb f)
  | cleared (f : FiberId) : Next s w (.initing f none) .head
  | check (kind : Kind) (f : FiberId) : Next s w (.swapIn kind f) (.checked kind f)
  | exec (kind : Kind) (f : FiberId) : Next s w (.checked kind f) (.entering kind f)
  | enter (kind : Kind) (f : FiberId) : Next s w (.entering kind f) (.running kind f)
  | back (kind : Kind) (f : FiberId) : kind ≠ .idle → Next s w (.leaving kind f) (.returned kind f)
  | backIdle (f : FiberId) : Next s w (.leaving .idle f) (.counted .idle f)
  | count (kind : Kind) (f : FiberId) : Next s w (.returned kind f) (.counted kind f)
  | read (kind : Kind) (f : FiberId) : Next s w (.counted kind f) (bookkeeping kind f (s.fibers f).state)
  | requeued (kind : Kind) (f : FiberId) : Next s w (.requeue kind f) .head
  | held (kind : Kind) (f : FiberId) : kind ≠ .idle → Next s w (.hold kind f) .head
  | heldIdle (f : FiberId) : Next s w (.hold .idle f) .idleDone
  | idleCounted : Next s w .idleDone .head

/-- A worker has an entry in hand only right after it has taken it out of the queue. -/
theorem Next.of_picked {before : Pc C} {ft : FiberAndThread C} (h : Next s w before (.picked ft)) :
    before = .head ∧ ft ∈ s.queue ∧ (ft.fiber.isSome ∨ ft.cb.isSome) := by
  generalize hafter : (Pc.picked ft : Pc C) = after at h
  cases h with
  | dequeue ft' hmem hnonempty =>
      cases hafter
      exact ⟨rfl, hmem, hnonempty⟩
  | read kind f => cases kind <;> simp only [bookkeeping] at hafter <;> (repeat' split at hafter) <;> cases hafter
  | _ => cases hafter

/-- An idle fiber is not queued again. -/
theorem Next.ne_requeue {before after : Pc C} (h : Next s w before after) (f : FiberId) : after ≠ .requeue .idle f := by
  intro hafter
  cases h with
  | read kind g => cases kind <;> simp only [bookkeeping] at hafter <;> (repeat' split at hafter) <;> cases hafter
  | _ => cases hafter

/-- A worker leaves `run` when its idle fiber has finished. -/
theorem Next.of_exited {before after : Pc C} (h : Next s w before after) (hafter : after = .exited) :
    (s.fibers (s.idleFiber w)).state = .TERM := by
  cases h with
  | exit hterm => exact hterm
  | read kind g => cases kind <;> simp only [bookkeeping] at hafter <;> (repeat' split at hafter) <;> cases hafter
  | _ => cases hafter

/-- What the step from a program point adds to the active count. -/
def Pc.activeDelta : Pc C → Pc C → ℤ
  | .head, .picked _ => 1
  | .returned .., _ => -1
  | _, _ => 0

/-- The fiber whose state the step from a program point writes. -/
def Pc.writes : Pc C → Option FiberId
  | .initing f _ | .checked _ f | .hold _ f => some f
  | _ => none

/-- A scan takes one entry out, which is not empty. -/
theorem pick_eq_some {fibers : FiberId → Fiber C} {queue rest : List (FiberAndThread C)} {ft : FiberAndThread C}
    (h : pick fibers w queue = .ok (some (ft, rest))) : (ft.fiber.isSome ∨ ft.cb.isSome) ∧ queue.Perm (ft :: rest) := by
  induction queue generalizing ft rest with
  | nil => cases h
  | cons first later ih =>
      have hlater : ∀ r, (pick fibers w later).map (Option.map fun r => (r.1, first :: r.2)) = .ok (some r) →
          (r.1.fiber.isSome ∨ r.1.cb.isSome) ∧ (first :: later).Perm (r.1 :: r.2) := by
        intro r hr
        obtain ⟨o, ho, hmap⟩ := map_eq_ok hr
        cases o with
        | none => cases hmap
        | some r' =>
            cases hmap
            obtain ⟨hnonempty, hperm⟩ := ih ho
            exact ⟨hnonempty, (hperm.cons first).trans (List.Perm.swap ..)⟩
      simp only [pick] at h
      split at h
      · exact hlater _ h
      split at h
      · cases h
      rename_i hnonempty
      split at h
      · exact hlater _ h
      · cases h
        refine ⟨?_, List.Perm.refl _⟩
        rcases first with ⟨_ | _, _ | _, _⟩ <;> simp_all

/-- A dequeued entry is dispatched to one of the branches; nothing is written but a new callback fiber. -/
theorem branch_spec (ft : FiberAndThread C) : ∃ pc, (branch s w ft).pc = Function.update s.pc w pc ∧
    Next s w (.picked ft) pc ∧ (branch s w ft).activeThreadCount = s.activeThreadCount ∧
    s.nextFiber ≤ (branch s w ft).nextFiber ∧
    ∀ f, f < s.nextFiber → (branch s w ft).fibers f = s.fibers f := by
  simp only [branch]
  split
  · rename_i f hf
    obtain ⟨hfiber, hlive⟩ := Option.filter_eq_some_iff.1 hf
    exact ⟨_, rfl, .takeFiber ft f hfiber (by simpa using hlive), rfl, Nat.le_refl _, fun _ _ => rfl⟩
  · rename_i hnone
    split
    · rename_i c hc
      split
      · rename_i f hf
        exact ⟨_, rfl, .reuseCb ft f c hc hf, rfl, Nat.le_refl _, fun _ _ => rfl⟩
      · refine ⟨_, rfl, .newCb ft c hc, rfl, Nat.le_succ _, fun f hf => ?_⟩
        simp [State.goto, State.setCbFiber, State.setFiber, Nat.ne_of_lt hf]
    · rename_i hc
      refine ⟨_, rfl, .finished ft hc fun f hf => ?_, rfl, Nat.le_refl _, fun _ _ => rfl⟩
      by_contra hlive
      rw [Option.filter_eq_none_iff] at hnone
      exact hnone f hf (by simpa using hlive)

/-- A step of worker `w` in `run` from one program point to another. -/
structure RunStep (s t : State C) (w : ThreadId) (before after : Pc C) : Prop where
  pc : t.pc = Function.update s.pc w after
  next : Next s w before after
  active : t.activeThreadCount = s.activeThreadCount + before.activeDelta after
  nextFiber : s.nextFiber ≤ t.nextFiber
  fibers : ∀ f, f < s.nextFiber → before.writes ≠ some f → t.fibers f = s.fibers f

/-- A step that only moves the worker. -/
theorem RunStep.goto {before after : Pc C} (hnext : Next s w before after) (hactive : before.activeDelta after = 0) :
    RunStep s (s.goto w after) w before after :=
  ⟨rfl, hnext, by rw [hactive]; exact (Int.add_zero _).symm, Nat.le_refl _, fun _ _ _ => rfl⟩

/-- A step that moves the worker and writes a fiber. -/
theorem RunStep.write {before after : Pc C} {f : FiberId} (fiber : Fiber C) (hnext : Next s w before after)
    (hactive : before.activeDelta after = 0) (hwrites : before.writes = some f) :
    RunStep s ((s.setFiber f fiber).goto w after) w before after := by
  refine ⟨rfl, hnext, by rw [hactive]; exact (Int.add_zero _).symm, Nat.le_refl _, fun f' _ hne => ?_⟩
  have hother : f' ≠ f := by
    rintro rfl
    exact hne hwrites
  simp [State.goto, State.setFiber, hother]

theorem runStep_eq_next (h : runStep s w = .next t) : ∃ after, RunStep s t w (s.pc w) after := by
  simp only [runStep] at h
  generalize s.pc w = before at h ⊢
  cases before with
  | head =>
      dsimp only at h
      split at h
      · cases h
      · cases h
        exact ⟨_, .goto .noEntry rfl⟩
      · rename_i ft rest hpick
        cases h
        obtain ⟨hnonempty, hperm⟩ := pick_eq_some hpick
        exact ⟨_, rfl, .dequeue ft (hperm.mem_iff.2 List.mem_cons_self) hnonempty, rfl, Nat.le_refl _, fun _ _ _ => rfl⟩
  | picked ft =>
      cases h
      obtain ⟨after, hpc, hnext, hactive, hfresh, hfibers⟩ := branch_spec (s := s) (w := w) ft
      exact ⟨after, hpc, hnext, by rw [hactive]; exact (Int.add_zero _).symm, hfresh, fun f hf _ => hfibers f hf⟩
  | noTask =>
      dsimp only at h
      split at h
      · rename_i hterm
        cases h
        exact ⟨_, .goto (.exit hterm) rfl⟩
      · cases h
        exact ⟨_, rfl, .idle, (Int.add_zero _).symm, Nat.le_refl _, fun _ _ _ => rfl⟩
  | resetting f cb =>
      dsimp only at h
      split at h
      · cases h
        exact ⟨_, .goto (.reset f cb) rfl⟩
      · cases h
  | initing f cb =>
      cases h
      cases cb with
      | none => exact ⟨_, .write _ (.cleared f) rfl rfl⟩
      | some c => exact ⟨_, .write _ (.init f c) rfl rfl⟩
  | swapIn kind f =>
      dsimp only at h
      split at h
      · cases h
      · cases h
        exact ⟨_, .goto (.check kind f) rfl⟩
  | checked kind f =>
      cases h
      exact ⟨_, .write _ (.exec kind f) rfl rfl⟩
  | entering kind f =>
      cases h
      exact ⟨_, .goto (.enter kind f) rfl⟩
  | running kind f => cases h
  | leaving kind f =>
      cases h
      by_cases hkind : kind = .idle
      · subst hkind
        exact ⟨_, .goto (.backIdle f) rfl⟩
      · rw [if_neg hkind]
        exact ⟨_, .goto (.back kind f hkind) rfl⟩
  | returned kind f =>
      cases h
      exact ⟨_, rfl, .count kind f, rfl, Nat.le_refl _, fun _ _ _ => rfl⟩
  | counted kind f =>
      cases h
      exact ⟨_, .goto (.read kind f) rfl⟩
  | requeue kind f =>
      cases h
      refine ⟨.head, ?_, .requeued kind f, ?_, ?_, fun f' _ _ => ?_⟩ <;>
        by_cases hkind : kind = .cb <;> simp [hkind, State.schedule, State.goto, State.setCbFiber, Pc.activeDelta]
  | hold kind f =>
      cases h
      refine ⟨if kind = .idle then .idleDone else .head, ?_, ?_, ?_, ?_, fun f' _ hne => ?_⟩
      · by_cases hkind : kind = .cb <;> simp [hkind, State.goto, State.setCbFiber, State.setState]
      · by_cases hkind : kind = .idle
        · subst hkind
          exact .heldIdle f
        · rw [if_neg hkind]
          exact .held kind f hkind
      · by_cases hkind : kind = .cb <;> simp [hkind, State.goto, State.setCbFiber, State.setState, Pc.activeDelta]
      · by_cases hkind : kind = .cb <;> simp [hkind, State.goto, State.setCbFiber, State.setState]
      · have hother : f' ≠ f := by
          rintro rfl
          exact hne rfl
        by_cases hkind : kind = .cb <;> simp [hkind, State.goto, State.setCbFiber, State.setState, hother]
  | idleDone =>
      cases h
      exact ⟨_, rfl, .idleCounted, (Int.add_zero _).symm, Nat.le_refl _, fun _ _ _ => rfl⟩
  | exited => cases h

/-- Fiber code leaves its fiber: it writes no other fiber, and the worker goes on in `swapOut`. -/
theorem exitStep_eq_next {how : Exit} (h : exitStep s w how = .next t) : ∃ kind f, s.pc w = .running kind f ∧
    t.pc = Function.update s.pc w (.leaving kind f) ∧ t.activeThreadCount = s.activeThreadCount ∧
    t.nextFiber = s.nextFiber ∧ ∀ f', f' ≠ f → t.fibers f' = s.fibers f' := by
  simp only [exitStep] at h
  split at h
  · rename_i kind f hpc
    refine ⟨kind, f, hpc, ?_⟩
    split at h
    · cases h
    cases how with
    | swapOut =>
        dsimp only at h
        split at h
        · cases h
          exact ⟨rfl, rfl, rfl, fun _ _ => rfl⟩
        · cases h
    | _ =>
        cases h
        exact ⟨rfl, rfl, rfl, fun f' hf => by simp [State.goto, State.setState, State.setFiber, hf]⟩
  · cases h

theorem step_run_eq_next {workers : Finset ThreadId} (h : step workers s (.run w) = .next t) :
    w ∈ workers ∧ runStep s w = .next t := by
  simp only [step] at h
  split_ifs at h with hw
  exact ⟨hw, h⟩

theorem step_exit_eq_next {workers : Finset ThreadId} {how : Exit} (h : step workers s (.exit w how) = .next t) :
    w ∈ workers ∧ exitStep s w how = .next t := by
  simp only [step] at h
  split_ifs at h with hw
  exact ⟨hw, h⟩

/-- The worker that takes a step of `run` or whose fiber leaves. -/
def Action.worker : Action C → Option ThreadId
  | .exit w _ | .run w => some w
  | _ => none

@[simp] theorem schedule_pc (s : State C) (ft : FiberAndThread C) : (s.schedule ft).pc = s.pc := by
  simp only [State.schedule]
  split <;> rfl

@[simp] theorem schedule_activeThreadCount (s : State C) (ft : FiberAndThread C) :
    (s.schedule ft).activeThreadCount = s.activeThreadCount := by
  simp only [State.schedule]
  split <;> rfl

@[simp] theorem schedule_nextFiber (s : State C) (ft : FiberAndThread C) :
    (s.schedule ft).nextFiber = s.nextFiber := by
  simp only [State.schedule]
  split <;> rfl

@[simp] theorem schedule_fibers (s : State C) (ft : FiberAndThread C) : (s.schedule ft).fibers = s.fibers := by
  simp only [State.schedule]
  split <;> rfl

/-- Everything else moves no worker, leaves the active count alone and writes no fiber that exists. -/
theorem step_eq_next_of_worker_eq_none {workers : Finset ThreadId} {a : Action C}
    (h : step workers s a = .next t) (ha : a.worker = none) :
    t.pc = s.pc ∧ t.activeThreadCount = s.activeThreadCount ∧ s.nextFiber ≤ t.nextFiber ∧
      ∀ f, f < s.nextFiber → t.fibers f = s.fibers f := by
  cases a with
  | schedule ft =>
      simp only [step] at h
      split at h
      · cases h
        simp
      · cases h
  | newFiber cb =>
      cases h
      exact ⟨rfl, rfl, Nat.le_succ _, fun f hf => by simp [State.setFiber, Nat.ne_of_lt hf]⟩
  | register w =>
      simp only [step] at h
      split at h
      · cases h
        exact ⟨rfl, rfl, Nat.le_refl _, fun _ _ => rfl⟩
      · cases h
  | trigger i =>
      simp only [step] at h
      split at h
      · cases h
        simp
      · cases h
  | exit w how => cases ha
  | run w => cases ha

/-- Only workers move. -/
theorem step_pc_of_notMem {workers : Finset ThreadId} {a : Action C} (h : step workers s a = .next t)
    (hw : w ∉ workers) : t.pc w = s.pc w := by
  cases a with
  | run v =>
      obtain ⟨hv, h⟩ := step_run_eq_next h
      obtain ⟨after, hrun⟩ := runStep_eq_next h
      rw [hrun.pc, Function.update_of_ne (ne_of_mem_of_not_mem hv hw).symm]
  | exit v how =>
      obtain ⟨hv, h⟩ := step_exit_eq_next h
      obtain ⟨kind, f, -, hgoto, -⟩ := exitStep_eq_next h
      rw [hgoto, Function.update_of_ne (ne_of_mem_of_not_mem hv hw).symm]
  | _ => rw [(step_eq_next_of_worker_eq_none h rfl).1]

/-! ### What a step writes -/

/-- The callback fiber that `run` creates for an entry. -/
def createsCb (s : State C) (w : ThreadId) (ft : FiberAndThread C) : Bool :=
  (ft.fiber.filter fun f => !(s.fibers f).state.dead).isNone && ft.cb.isSome && (s.cbFiber w).isNone

/-- The state that fiber code writes when it leaves. -/
def Exit.state : Exit → Option FiberState
  | .yieldToHold => some .HOLD
  | .yieldToReady => some .READY
  | .finish => some .TERM
  | .throw => some .EXCEPT
  | .swapOut => none

/-- The fiber whose state an action writes, and the state. -/
def writes (s : State C) : Action C → Option (FiberId × FiberState)
  | .newFiber _ => some (s.nextFiber, .INIT)
  | .exit w how =>
    match s.pc w with
    | .running _ f => how.state.map fun state => (f, state)
    | _ => none
  | .run w =>
    match s.pc w with
    | .picked ft => if createsCb s w ft then some (s.nextFiber, .INIT) else none
    | .initing f _ => some (f, .INIT)
    | .checked _ f => some (f, .EXEC)
    | .hold _ f => some (f, .HOLD)
    | _ => none
  | _ => none

/-- The state of a fiber after an action that may write it. -/
def written (write : Option (FiberId × FiberState)) (f : FiberId) (state : FiberState) : FiberState :=
  match write with
  | some (g, new) => if f = g then new else state
  | none => state

theorem written_eq {write : Option (FiberId × FiberState)} {f : FiberId} {before after : FiberState}
    (h : written write f before = after) : before = after ∨ write = some (f, after) := by
  cases write with
  | none => exact .inl h
  | some entry =>
      obtain ⟨g, new⟩ := entry
      simp only [written] at h
      split at h
      · rename_i hf
        exact .inr (by rw [hf, h])
      · exact .inl h

theorem setState_state (s : State C) (g : FiberId) (new : FiberState) (f : FiberId) :
    ((s.setState g new).fibers f).state = written (some (g, new)) f (s.fibers f).state := by
  by_cases hf : f = g
  · subst hf
    simp [State.setState, written]
  · simp [State.setState, written, hf]

theorem setFiber_state (s : State C) (g : FiberId) (fiber : Fiber C) (f : FiberId) :
    ((s.setFiber g fiber).fibers f).state = written (some (g, fiber.state)) f (s.fibers f).state := by
  by_cases hf : f = g
  · subst hf
    simp [State.setFiber, written]
  · simp [State.setFiber, written, hf]

theorem branch_state (w : ThreadId) (ft : FiberAndThread C) (f : FiberId) :
    ((branch s w ft).fibers f).state =
      written (if createsCb s w ft then some (s.nextFiber, .INIT) else none) f (s.fibers f).state := by
  simp only [branch]
  split
  · rename_i g hg
    have hcreates : createsCb s w ft = false := by simp [createsCb, hg]
    simp [hcreates, written, State.goto]
  · rename_i hnone
    split
    · rename_i c hc
      split
      · rename_i g hg
        have hcreates : createsCb s w ft = false := by simp [createsCb, hg]
        simp [hcreates, written, State.goto]
      · rename_i hcbFiber
        have hcreates : createsCb s w ft = true := by simp [createsCb, hnone, hc, hcbFiber]
        rw [hcreates, if_pos rfl]
        exact setFiber_state { s with nextFiber := s.nextFiber + 1 } s.nextFiber ⟨.INIT, some c⟩ f
    · rename_i hc
      have hcreates : createsCb s w ft = false := by simp [createsCb, hc]
      simp [hcreates, written, State.goto]

theorem runStep_state (h : runStep s w = .next t) (f : FiberId) :
    (t.fibers f).state = written (writes s (.run w)) f (s.fibers f).state := by
  simp only [runStep] at h
  cases hpc : s.pc w with
  | head =>
      rw [hpc] at h
      dsimp only at h
      split at h <;> cases h <;> simp [writes, hpc, written, State.goto]
  | picked ft =>
      rw [hpc] at h
      cases h
      simp only [writes, hpc]
      exact branch_state w ft f
  | noTask | resetting g cb | swapIn kind g =>
      rw [hpc] at h
      dsimp only at h
      split at h <;> cases h <;> simp [writes, hpc, written, State.goto]
  | initing g cb =>
      rw [hpc] at h
      cases h
      simp only [writes, hpc]
      exact setFiber_state s g ⟨.INIT, cb⟩ f
  | checked kind g =>
      rw [hpc] at h
      cases h
      simp only [writes, hpc]
      exact setState_state s g .EXEC f
  | hold kind g =>
      rw [hpc] at h
      cases h
      simp only [writes, hpc]
      by_cases hkind : kind = .cb
      · simp only [hkind, if_true]
        exact setState_state s g .HOLD f
      · simp only [hkind, if_false]
        exact setState_state s g .HOLD f
  | requeue kind g =>
      rw [hpc] at h
      cases h
      by_cases hkind : kind = .cb <;> simp [writes, hpc, written, hkind, State.goto, State.setCbFiber]
  | running kind g | exited =>
      rw [hpc] at h
      cases h
  | entering kind g | leaving kind g | returned kind g | counted kind g | idleDone =>
      rw [hpc] at h
      cases h
      simp [writes, hpc, written, State.goto]

theorem exitStep_state {how : Exit} (h : exitStep s w how = .next t) (f : FiberId) :
    (t.fibers f).state = written (writes s (.exit w how)) f (s.fibers f).state := by
  simp only [exitStep] at h
  split at h
  · rename_i kind g hpc
    simp only [writes, hpc]
    split at h
    · cases h
    cases how with
    | swapOut =>
        dsimp only at h
        split at h <;> cases h
        rfl
    | finish =>
        cases h
        exact setFiber_state s g ⟨.TERM, none⟩ f
    | yieldToHold | yieldToReady | throw =>
        cases h
        exact setState_state s g _ f
  · cases h

/-- A step writes the states it is said to write, and no others. -/
theorem step_state {workers : Finset ThreadId} {a : Action C} (h : step workers s a = .next t) (f : FiberId) :
    (t.fibers f).state = written (writes s a) f (s.fibers f).state := by
  cases a with
  | schedule ft =>
      simp only [step] at h
      split at h <;> cases h
      simp [writes, written]
  | newFiber cb =>
      cases h
      exact setFiber_state { s with nextFiber := s.nextFiber + 1 } s.nextFiber ⟨.INIT, some cb⟩ f
  | register w =>
      simp only [step] at h
      split at h <;> cases h
      rfl
  | trigger i =>
      simp only [step] at h
      split at h <;> cases h
      simp [writes, written]
  | exit w how =>
      obtain ⟨-, h⟩ := step_exit_eq_next h
      exact exitStep_state h f
  | run w =>
      obtain ⟨-, h⟩ := step_run_eq_next h
      exact runStep_state h f

/-- The states that `run` itself writes are not those of a finished fiber. -/
theorem writes_run {f : FiberId} {state : FiberState} (h : writes s (.run w) = some (f, state)) :
    state = .INIT ∨ (state = .EXEC ∧ ∃ kind, s.pc w = .checked kind f) ∨
      (state = .HOLD ∧ ∃ kind, s.pc w = .hold kind f) := by
  simp only [writes] at h
  split at h
  · split at h
    · exact .inl (Prod.mk.inj (Option.some.inj h)).2.symm
    · cases h
  · exact .inl (Prod.mk.inj (Option.some.inj h)).2.symm
  · rename_i kind g hpc
    obtain ⟨rfl, rfl⟩ := Prod.mk.inj (Option.some.inj h)
    exact .inr (.inl ⟨rfl, kind, hpc⟩)
  · rename_i kind g hpc
    obtain ⟨rfl, rfl⟩ := Prod.mk.inj (Option.some.inj h)
    exact .inr (.inr ⟨rfl, kind, hpc⟩)
  · cases h

end Awcotn.Scheduler
