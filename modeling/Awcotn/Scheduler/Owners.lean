import Awcotn.Scheduler.Queue

/-!
# The fibers that workers keep

A worker has the idle fiber it was started with, and it keeps the fiber of its last callback for the next one. Whatever the workers do, no fiber is kept twice, a worker that is at a callback is at the one it keeps, and the idle fibers are nobody's callbacks.
-/

namespace Awcotn.Scheduler

open Transition

variable {C : Type*}

/-- The worker is at its callback: from the entry to `swapIn` to the end of the `reset(nullptr)` after it. -/
def runsCallback : Pc C → Bool
  | .swapIn .cb _ | .checked .cb _ | .entering .cb _ | .running .cb _ | .leaving .cb _ | .returned .cb _ |
    .counted .cb _ | .requeue .cb _ | .hold .cb _ => true
  | .resetting _ cb | .initing _ cb => cb.isNone
  | _ => false

/-- A worker keeps the fiber for its next callback: it stands for no task. -/
def Resting (s : Scheduler.State C) (f : FiberId) : Prop :=
  ∃ w, s.cbFiber w = some f ∧ runsCallback (s.pc w) = false

/-- The fiber of the entry that a worker has dequeued, until it is done with it. -/
def handles : Pc C → Option FiberId
  | .picked ft => ft.fiber
  | .swapIn .fiber f | .checked .fiber f | .entering .fiber f | .running .fiber f | .leaving .fiber f |
    .returned .fiber f | .counted .fiber f | .requeue .fiber f | .hold .fiber f => some f
  | _ => none

/-- The callback fiber that a worker is at. -/
def callback : Pc C → Option FiberId
  | .swapIn .cb f | .checked .cb f | .entering .cb f | .running .cb f | .leaving .cb f | .returned .cb f |
    .counted .cb f | .requeue .cb f | .hold .cb f | .resetting f _ | .initing f _ => some f
  | _ => none

/-- The idle fiber that a worker is at. -/
def idles : Pc C → Option FiberId
  | .swapIn .idle f | .checked .idle f | .entering .idle f | .running .idle f | .leaving .idle f |
    .returned .idle f | .counted .idle f | .requeue .idle f | .hold .idle f => some f
  | _ => none

/-- A worker is at the callback fiber it keeps and at its own idle fiber, and at no others; no fiber is kept twice, and idle fibers are not kept. -/
structure Owners (workers : Finset ThreadId) (s : Scheduler.State C) : Prop where
  owner : ∀ w f, callback (s.pc w) = some f → s.cbFiber w = some f
  apart : ∀ w v f, s.cbFiber w = some f → s.cbFiber v = some f → w = v
  fresh : ∀ w f, s.cbFiber w = some f → workers.sup id < f ∧ f < s.nextFiber
  idle : ∀ w f, idles (s.pc w) = some f → w ∈ workers ∧ f = w
  idleFiber : ∀ w, s.idleFiber w = w
  bound : workers.sup id < s.nextFiber

theorem owners_start (workers : Finset ThreadId) (idleCb : C) : Owners workers (Scheduler.start workers idleCb) where
  owner := nofun
  apart := nofun
  fresh := nofun
  idle := nofun
  idleFiber := fun _ => rfl
  bound := Nat.lt_succ_self _

section

variable {workers : Finset ThreadId} {s t : Scheduler.State C} {w : ThreadId} {f : FiberId}

/-- A worker handles the entry it has dequeued, and no other until it dequeues again. -/
theorem next_handles {before after : Pc C} (h : Next s w before after) (hhead : before ≠ .head)
    (hf : handles after = some f) : handles before = some f := by
  cases h with
  | dequeue ft hmem hft => exact absurd rfl hhead
  | takeFiber ft g hg hlive =>
      obtain rfl : g = f := Option.some.inj hf
      exact hg
  | read kind g =>
      cases kind <;> simp only [bookkeeping] at hf <;> (repeat' split at hf) <;> first | exact hf | cases hf
  | check kind g | exec kind g | enter kind g | count kind g | back kind g hkind => cases kind <;> exact hf
  | _ => cases hf

theorem next_idles {before after : Pc C} (h : Next s w before after) (hf : idles after = some f) :
    idles before = some f ∨ f = s.idleFiber w := by
  cases h with
  | idle => exact .inr (Option.some.inj hf).symm
  | read kind g =>
      cases kind <;> simp only [bookkeeping] at hf <;> (repeat' split at hf) <;> first | exact .inl hf | cases hf
  | check kind g | exec kind g | enter kind g | back kind g hkind | count kind g => cases kind <;> exact .inl hf
  | backIdle g => exact .inl hf
  | _ => cases hf

/-- What a step of `run` does to the callback fiber that the worker keeps. -/
inductive Keeping (s t : Scheduler.State C) (w : ThreadId) : Prop
  | same : t.cbFiber = s.cbFiber → (∀ f, callback (t.pc w) = some f → callback (s.pc w) = some f ∨ s.cbFiber w = some f) →
      (runsCallback (s.pc w) = true → runsCallback (t.pc w) = true ∨ ∃ f, s.pc w = .initing f none) → Keeping s t w
  | created : t.cbFiber = Function.update s.cbFiber w (some s.nextFiber) → t.pc w = .swapIn .cb s.nextFiber →
      s.nextFiber < t.nextFiber → Keeping s t w
  | released : t.cbFiber = Function.update s.cbFiber w none → t.pc w = .head → Keeping s t w

theorem keeping_branch (ft : FiberAndThread C) (hpc : s.pc w = .picked ft) : Keeping s (branch s w ft) w := by
  have hidle : runsCallback (s.pc w) = true → False := by simp [hpc, runsCallback]
  simp only [branch]
  split
  · exact .same rfl (by simp [State.goto, callback]) fun h => (hidle h).elim
  · split
    · split
      · rename_i f hf
        refine .same rfl (fun g hg => .inr ?_) fun h => (hidle h).elim
        obtain rfl : f = g := by simpa [State.goto, callback] using hg
        exact hf
      · exact .created rfl (by simp [State.goto]) (Nat.lt_succ_self _)
    · exact .same rfl (by simp [State.goto, callback]) fun h => (hidle h).elim

theorem runStep_keeping (h : runStep s w = .next t) : Keeping s t w := by
  simp only [runStep] at h
  cases hpc : s.pc w with
  | head =>
      rw [hpc] at h
      dsimp only at h
      split at h <;> cases h <;> exact .same rfl (by simp [State.goto, callback]) (by simp [hpc, runsCallback])
  | picked ft =>
      rw [hpc] at h
      cases h
      exact keeping_branch ft hpc
  | noTask =>
      rw [hpc] at h
      dsimp only at h
      split at h <;> cases h <;> exact .same rfl (by simp [State.goto, callback]) (by simp [hpc, runsCallback])
  | resetting g cb =>
      rw [hpc] at h
      dsimp only at h
      split at h <;> cases h
      exact .same rfl (by simp [State.goto, hpc, callback]) (by simp [State.goto, hpc, runsCallback])
  | initing g cb =>
      rw [hpc] at h
      cases h
      refine .same rfl ?_ ?_
      · cases cb <;> simp [State.goto, hpc, callback]
      · cases cb <;> simp [hpc, runsCallback]
  | swapIn kind g =>
      rw [hpc] at h
      dsimp only at h
      split at h <;> cases h
      cases kind <;> exact .same rfl (by simp [State.goto, hpc, callback]) (by simp [State.goto, hpc, runsCallback])
  | checked kind g | entering kind g | returned kind g =>
      rw [hpc] at h
      cases h
      cases kind <;> exact .same rfl (by simp [State.goto, hpc, callback]) (by simp [State.goto, hpc, runsCallback])
  | leaving kind g =>
      rw [hpc] at h
      cases h
      cases kind <;> exact .same rfl (by simp [State.goto, hpc, callback]) (by simp [State.goto, hpc, runsCallback])
  | counted kind g =>
      rw [hpc] at h
      cases h
      refine .same rfl (fun f hf => .inl ?_) fun hruns => ?_
      · rw [hpc]
        simp only [State.goto, Function.update_self] at hf
        cases kind <;> simp only [bookkeeping] at hf <;> (repeat' split at hf) <;> exact hf
      · rw [hpc] at hruns
        cases kind with
        | cb =>
            left
            simp only [State.goto, Function.update_self, bookkeeping]
            (repeat' split) <;> rfl
        | _ => cases hruns
  | requeue kind g =>
      rw [hpc] at h
      cases h
      cases kind with
      | cb => exact .released (by simp [State.goto, State.setCbFiber, schedule_eq]) (by simp [State.goto])
      | _ => exact .same (by simp [State.goto, schedule_eq]) (by simp [State.goto, callback]) (by simp [hpc, runsCallback])
  | hold kind g =>
      rw [hpc] at h
      cases h
      cases kind with
      | cb => exact .released (by simp [State.goto, State.setCbFiber, State.setState]) (by simp [State.goto])
      | _ => exact .same rfl (by simp [State.goto, callback]) (by simp [hpc, runsCallback])
  | idleDone =>
      rw [hpc] at h
      cases h
      exact .same rfl (by simp [State.goto, callback]) (by simp [hpc, runsCallback])
  | running kind g | exited =>
      rw [hpc] at h
      cases h

theorem runStep_frame (h : runStep s w = .next t) : t.idleFiber = s.idleFiber ∧ t.waiting = s.waiting := by
  simp only [runStep] at h
  cases hpc : s.pc w with
  | head | noTask | resetting g cb | swapIn kind g =>
      rw [hpc] at h
      dsimp only at h
      split at h <;> cases h <;> exact ⟨rfl, rfl⟩
  | picked ft =>
      rw [hpc] at h
      cases h
      simp only [branch]
      (repeat' split) <;> exact ⟨rfl, rfl⟩
  | requeue kind g | hold kind g =>
      rw [hpc] at h
      cases h
      by_cases hkind : kind = .cb <;> simp [hkind, State.goto, State.setCbFiber, State.setState, schedule_eq]
  | initing g cb | checked kind g | entering kind g | leaving kind g | returned kind g | counted kind g | idleDone =>
      rw [hpc] at h
      cases h
      exact ⟨rfl, rfl⟩
  | running kind g | exited =>
      rw [hpc] at h
      cases h

theorem exitStep_frame {how : Exit} (h : exitStep s w how = .next t) :
    t.cbFiber = s.cbFiber ∧ t.idleFiber = s.idleFiber ∧ t.waiting = s.waiting := by
  simp only [exitStep] at h
  split at h
  · split at h
    · cases h
    cases how with
    | swapOut =>
        dsimp only at h
        split at h <;> cases h
        exact ⟨rfl, rfl, rfl⟩
    | _ =>
        cases h
        exact ⟨rfl, rfl, rfl⟩
  · cases h

/-- A step that changes nothing that is kept, and takes no worker to a callback or an idle fiber. -/
theorem Owners.move (hs : Owners workers s) (hcbFiber : t.cbFiber = s.cbFiber) (hidleFiber : t.idleFiber = s.idleFiber)
    (hnext : s.nextFiber ≤ t.nextFiber) (hcallback : ∀ v f, callback (t.pc v) = some f → callback (s.pc v) = some f)
    (hidles : ∀ v f, idles (t.pc v) = some f → idles (s.pc v) = some f) : Owners workers t where
  owner := fun v f hf => by
    rw [hcbFiber]
    exact hs.owner v f (hcallback v f hf)
  apart := hcbFiber ▸ hs.apart
  fresh := fun v f hf => by
    rw [hcbFiber] at hf
    obtain ⟨hlow, hhigh⟩ := hs.fresh v f hf
    exact ⟨hlow, hhigh.trans_le hnext⟩
  idle := fun v f hf => hs.idle v f (hidles v f hf)
  idleFiber := hidleFiber ▸ hs.idleFiber
  bound := hs.bound.trans_le hnext

theorem Owners.run (hs : Owners workers s) (hw : w ∈ workers) (h : runStep s w = .next t) : Owners workers t := by
  obtain ⟨point, hrun⟩ := runStep_eq_next h
  obtain ⟨hidleFiber, -⟩ := runStep_frame h
  have hself : t.pc w = point := by rw [hrun.pc, Function.update_self]
  have hother : ∀ v, v ≠ w → t.pc v = s.pc v := fun v hv => by rw [hrun.pc, Function.update_of_ne hv]
  have hidle : ∀ v f, idles (t.pc v) = some f → v ∈ workers ∧ f = v := by
    intro v f hf
    by_cases hv : v = w
    · subst hv
      rw [hself] at hf
      rcases next_idles hrun.next hf with hbefore | rfl
      · exact hs.idle v f hbefore
      · exact ⟨hw, hs.idleFiber v⟩
    · exact hs.idle v f (hother v hv ▸ hf)
  cases runStep_keeping h with
  | same hcbFiber hcallback hruns =>
      refine ⟨fun v f hf => ?_, hcbFiber ▸ hs.apart, fun v f hf => ?_, hidle, hidleFiber ▸ hs.idleFiber,
        hs.bound.trans_le hrun.nextFiber⟩
      · rw [hcbFiber]
        by_cases hv : v = w
        · subst hv
          rcases hcallback f hf with hbefore | hkept
          · exact hs.owner v f hbefore
          · exact hkept
        · exact hs.owner v f (hother v hv ▸ hf)
      · rw [hcbFiber] at hf
        obtain ⟨hlow, hhigh⟩ := hs.fresh v f hf
        exact ⟨hlow, hhigh.trans_le hrun.nextFiber⟩
  | created hcbFiber hpc hnext =>
      have hnew : ∀ v, s.cbFiber v ≠ some s.nextFiber := fun v hv => Nat.lt_irrefl _ (hs.fresh v _ hv).2
      refine ⟨fun v f hf => ?_, fun v u f hv hu => ?_, fun v f hf => ?_, hidle, hidleFiber ▸ hs.idleFiber,
        hs.bound.trans_le hrun.nextFiber⟩
      · rw [hcbFiber]
        by_cases hv : v = w
        · subst hv
          rw [hpc] at hf
          rw [Function.update_self]
          exact hf
        · rw [Function.update_of_ne hv]
          exact hs.owner v f (hother v hv ▸ hf)
      · rw [hcbFiber] at hv hu
        by_cases hvw : v = w <;> by_cases huw : u = w
        · rw [hvw, huw]
        · rw [hvw, Function.update_self] at hv
          rw [Function.update_of_ne huw, ← Option.some.inj hv] at hu
          exact absurd hu (hnew u)
        · rw [huw, Function.update_self] at hu
          rw [Function.update_of_ne hvw, ← Option.some.inj hu] at hv
          exact absurd hv (hnew v)
        · rw [Function.update_of_ne hvw] at hv
          rw [Function.update_of_ne huw] at hu
          exact hs.apart v u f hv hu
      · rw [hcbFiber] at hf
        by_cases hv : v = w
        · rw [hv, Function.update_self] at hf
          rw [← Option.some.inj hf]
          exact ⟨hs.bound, hnext⟩
        · rw [Function.update_of_ne hv] at hf
          obtain ⟨hlow, hhigh⟩ := hs.fresh v f hf
          exact ⟨hlow, hhigh.trans_le hrun.nextFiber⟩
  | released hcbFiber hpc =>
      have hkept : ∀ v f, t.cbFiber v = some f → v ≠ w ∧ s.cbFiber v = some f := by
        intro v f hf
        rw [hcbFiber] at hf
        by_cases hv : v = w
        · rw [hv, Function.update_self] at hf
          cases hf
        · rw [Function.update_of_ne hv] at hf
          exact ⟨hv, hf⟩
      refine ⟨fun v f hf => ?_, fun v u f hv hu => hs.apart v u f (hkept v f hv).2 (hkept u f hu).2,
        fun v f hf => ?_, hidle, hidleFiber ▸ hs.idleFiber, hs.bound.trans_le hrun.nextFiber⟩
      · by_cases hv : v = w
        · subst hv
          rw [hpc] at hf
          cases hf
        · rw [hcbFiber, Function.update_of_ne hv]
          exact hs.owner v f (hother v hv ▸ hf)
      · obtain ⟨hlow, hhigh⟩ := hs.fresh v f (hkept v f hf).2
        exact ⟨hlow, hhigh.trans_le hrun.nextFiber⟩

/-- A fiber comes to rest only when it is cleared. -/
theorem resting_of_run (hs : Owners workers s) (h : runStep s w = .next t) (hrest : Resting t f) :
    Resting s f ∨ s.pc w = .initing f none := by
  obtain ⟨point, hrun⟩ := runStep_eq_next h
  obtain ⟨v, hv, hidle⟩ := hrest
  by_cases hvw : v = w
  · subst hvw
    cases runStep_keeping h with
    | same hcbFiber hcallback hruns =>
        rw [hcbFiber] at hv
        by_cases hbefore : runsCallback (s.pc v) = true
        · obtain hafter | ⟨g, hg⟩ := hruns hbefore
          · rw [hafter] at hidle
            cases hidle
          · have hown := hs.owner v g (by rw [hg]; rfl)
            rw [hown] at hv
            exact .inr (Option.some.inj hv ▸ hg)
        · exact .inl ⟨v, hv, by simpa using hbefore⟩
    | created hcbFiber hpc hnext =>
        rw [hpc] at hidle
        cases hidle
    | released hcbFiber hpc =>
        rw [hcbFiber, Function.update_self] at hv
        cases hv
  · rw [hrun.pc, Function.update_of_ne hvw] at hidle
    have hsame : t.cbFiber v = s.cbFiber v := by
      cases runStep_keeping h with
      | same hcbFiber hcallback hruns => rw [hcbFiber]
      | created hcbFiber hpc hnext => rw [hcbFiber, Function.update_of_ne hvw]
      | released hcbFiber hpc => rw [hcbFiber, Function.update_of_ne hvw]
    exact .inl ⟨v, hsame ▸ hv, hidle⟩

theorem resting_of_frame (hcbFiber : t.cbFiber = s.cbFiber)
    (hruns : ∀ v, runsCallback (s.pc v) = true → runsCallback (t.pc v) = true) (hrest : Resting t f) : Resting s f := by
  obtain ⟨v, hv, hidle⟩ := hrest
  refine ⟨v, hcbFiber ▸ hv, ?_⟩
  by_contra hbefore
  rw [hruns v (by simpa using hbefore)] at hidle
  cases hidle

/-- No worker is at a fiber that rests with another, unless it has it from a queue entry. -/
theorem Owners.not_resting (hs : Owners workers s) (hf : callback (s.pc w) = some f ∧ runsCallback (s.pc w) = true ∨
    idles (s.pc w) = some f) : ¬ Resting s f := by
  rintro ⟨v, hv, hidle⟩
  rcases hf with ⟨hcallback, hruns⟩ | hidles
  · obtain rfl := hs.apart v w f hv (hs.owner w f hcallback)
    rw [hruns] at hidle
    cases hidle
  · obtain ⟨hw, rfl⟩ := hs.idle w f hidles
    have hle : f ≤ workers.sup id := Finset.le_sup (f := id) hw
    exact absurd hle (Nat.not_le_of_lt (hs.fresh v f hv).1)

/-- Who neither runs a worker nor a fiber leaves what the workers keep alone. -/
theorem step_kept_of_worker_eq_none {a : Scheduler.Action C} (h : Scheduler.step workers s a = .next t)
    (ha : a.worker = none) : t.cbFiber = s.cbFiber ∧ t.idleFiber = s.idleFiber := by
  cases a with
  | schedule ft | trigger i =>
      simp only [Scheduler.step] at h
      split at h <;> cases h
      simp [schedule_eq]
  | newFiber cb =>
      cases h
      exact ⟨rfl, rfl⟩
  | register v =>
      simp only [Scheduler.step] at h
      split at h <;> cases h
      exact ⟨rfl, rfl⟩
  | exit v how | run v => cases ha

/-- A worker that does not move keeps what it keeps. -/
theorem step_others {a : Scheduler.Action C} (h : Scheduler.step workers s a = .next t) {v : ThreadId}
    (hv : a.worker ≠ some v) :
    t.pc v = s.pc v ∧ t.cbFiber v = s.cbFiber v := by
  cases hworker : a.worker with
  | none =>
      rw [(step_eq_next_of_worker_eq_none h hworker).1, (step_kept_of_worker_eq_none h hworker).1]
      exact ⟨rfl, rfl⟩
  | some u =>
      have hne : v ≠ u := by
        rintro rfl
        exact hv hworker
      cases a with
      | run u' =>
          obtain rfl : u' = u := Option.some.inj hworker
          obtain ⟨-, h⟩ := step_run_eq_next h
          obtain ⟨after, hrun⟩ := runStep_eq_next h
          refine ⟨by rw [hrun.pc, Function.update_of_ne hne], ?_⟩
          cases runStep_keeping h with
          | same hcbFiber _ _ => rw [hcbFiber]
          | created hcbFiber _ _ => rw [hcbFiber, Function.update_of_ne hne]
          | released hcbFiber _ => rw [hcbFiber, Function.update_of_ne hne]
      | exit u' how =>
          obtain rfl : u' = u := Option.some.inj hworker
          obtain ⟨-, h⟩ := step_exit_eq_next h
          obtain ⟨kind, g, -, hgoto, -⟩ := exitStep_eq_next h
          exact ⟨by rw [hgoto, Function.update_of_ne hne], by rw [(exitStep_frame h).1]⟩
      | _ => cases hworker

/-- The registrations after a step. -/
theorem step_waiting {a : Scheduler.Action C} (h : Scheduler.step workers s a = .next t) :
    (∃ v kind f, a = .register v ∧ s.pc v = .running kind f ∧ t.waiting = s.waiting ++ [f]) ∨
      (∃ i, a = .trigger i ∧ t.waiting = s.waiting.eraseIdx i) ∨
      (t.waiting = s.waiting ∧ (∀ v, a ≠ .register v) ∧ ∀ i, a ≠ .trigger i) := by
  cases a with
  | schedule ft =>
      simp only [Scheduler.step] at h
      split at h <;> cases h
      exact .inr (.inr ⟨by simp [schedule_eq], by simp, by simp⟩)
  | newFiber cb =>
      cases h
      exact .inr (.inr ⟨rfl, by simp, by simp⟩)
  | register v =>
      simp only [Scheduler.step] at h
      split at h
      · rename_i kind f hpc
        cases h
        exact .inl ⟨v, kind, f, rfl, hpc, rfl⟩
      · cases h
  | trigger i =>
      simp only [Scheduler.step] at h
      split at h <;> cases h
      exact .inr (.inl ⟨i, rfl, by simp [schedule_eq]⟩)
  | exit v how =>
      obtain ⟨-, h⟩ := step_exit_eq_next h
      exact .inr (.inr ⟨(exitStep_frame h).2.2, by simp, by simp⟩)
  | run v =>
      obtain ⟨-, h⟩ := step_run_eq_next h
      exact .inr (.inr ⟨(runStep_frame h).2, by simp, by simp⟩)

/-- What the workers keep, through a step of the scheduler. -/
theorem Owners.step (hs : Owners workers s) {a : Scheduler.Action C} (h : Scheduler.step workers s a = .next t) :
    Owners workers t ∧ ∀ f, Resting t f → Resting s f ∨ ∃ v, a = .run v ∧ s.pc v = .initing f none := by
  cases hworker : a.worker with
  | none =>
      obtain ⟨hpc, -, hnext, -⟩ := step_eq_next_of_worker_eq_none h hworker
      obtain ⟨hcbFiber, hidleFiber⟩ := step_kept_of_worker_eq_none h hworker
      exact ⟨hs.move hcbFiber hidleFiber hnext (by simp [hpc]) (by simp [hpc]),
        fun f hf => .inl (resting_of_frame hcbFiber (by simp [hpc]) hf)⟩
  | some w =>
      cases a with
      | run v =>
          simp only [Scheduler.step] at h
          split at h
          · rename_i hv
            exact ⟨hs.run hv h, fun f hf => (resting_of_run hs h hf).imp id fun hpc => ⟨v, rfl, hpc⟩⟩
          · cases h
      | exit v how =>
          obtain ⟨-, h⟩ := step_exit_eq_next h
          obtain ⟨kind, g, hpc, hgoto, -, hnext, -⟩ := exitStep_eq_next h
          obtain ⟨hcbFiber, hidleFiber, -⟩ := exitStep_frame h
          have hkind : callback (.leaving kind g : Pc C) = callback (.running kind g : Pc C) ∧
              idles (.leaving kind g : Pc C) = idles (.running kind g : Pc C) ∧
              runsCallback (.leaving kind g : Pc C) = runsCallback (.running kind g : Pc C) := by
            cases kind <;> exact ⟨rfl, rfl, rfl⟩
          have hmove : ∀ u, t.pc u = s.pc u ∨ (u = v ∧ t.pc u = .leaving kind g) := by
            intro u
            by_cases hu : u = v
            · exact .inr ⟨hu, by rw [hgoto, hu, Function.update_self]⟩
            · exact .inl (by rw [hgoto, Function.update_of_ne hu])
          refine ⟨hs.move hcbFiber hidleFiber hnext.ge (fun u f hf => ?_) (fun u f hf => ?_),
            fun f hf => .inl (resting_of_frame hcbFiber (fun u hruns => ?_) hf)⟩
          · obtain hsame | ⟨rfl, hleaving⟩ := hmove u
            · rwa [hsame] at hf
            · rw [hpc, ← hkind.1, ← hleaving, hf]
          · obtain hsame | ⟨rfl, hleaving⟩ := hmove u
            · rwa [hsame] at hf
            · rw [hpc, ← hkind.2.1, ← hleaving, hf]
          · obtain hsame | ⟨rfl, hleaving⟩ := hmove u
            · rwa [hsame]
            · rw [hleaving, hkind.2.2, ← hpc, hruns]
      | _ => cases hworker

/-- A worker that dequeues, or finds nothing, keeps what it keeps. -/
theorem Owners.goto (hs : Owners workers s) (pc : Pc C) (hcbFiber : t.cbFiber = s.cbFiber)
    (hidleFiber : t.idleFiber = s.idleFiber) (hnext : t.nextFiber = s.nextFiber) (hhead : s.pc w = .head) (hpc : t.pc = Function.update s.pc w pc)
    (hcallback : callback pc = none) (hidles : idles pc = none) :
    Owners workers t ∧ ∀ f, Resting t f → Resting s f := by
  have hmove : ∀ v, t.pc v = s.pc v ∨ (v = w ∧ t.pc v = pc) := by
    intro v
    by_cases hv : v = w
    · exact .inr ⟨hv, by rw [hpc, hv, Function.update_self]⟩
    · exact .inl (by rw [hpc, Function.update_of_ne hv])
  refine ⟨hs.move hcbFiber hidleFiber hnext.ge (fun v f hf => ?_) (fun v f hf => ?_),
    fun f hf => resting_of_frame hcbFiber (fun v hruns => ?_) hf⟩
  · obtain hsame | ⟨rfl, hnew⟩ := hmove v
    · rwa [hsame] at hf
    · rw [hnew, hcallback] at hf
      cases hf
  · obtain hsame | ⟨rfl, hnew⟩ := hmove v
    · rwa [hsame] at hf
    · rw [hnew, hidles] at hf
      cases hf
  · obtain hsame | ⟨rfl, -⟩ := hmove v
    · rwa [hsame]
    · rw [hhead] at hruns
      cases hruns

end

end Awcotn.Scheduler
