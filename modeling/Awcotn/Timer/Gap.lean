import Awcotn.Timer.Callbacks

/-!
# The gap in an expiry call

`listExpiredCb` looks under a read lock whether the set is empty, and reads its front under a write lock that it takes afterwards. Every idle worker of a pool calls it on the one set. Here the two critical sections are steps of their own, and `front_of_empty_iff` says which runs read the front of an empty set: those where a worker in the gap has been overtaken.
-/

namespace Awcotn.TimerManager

open Transition

variable {Cb : Type*} {m : TimerManager Cb}

/-- A manager with its workers. `checked` has the clock reading of each worker that has found the set not empty and is about to take the write lock. `overtaken` says of a worker in the gap that the last timer has been taken out since its check, and none has been added. -/
structure Gap (Cb : Type*) where
  manager : TimerManager Cb
  checked : ℕ → Option UInt64
  overtaken : ℕ → Bool

namespace Gap

/-- An operation of any thread other than an expiry, the emptiness check of a worker, or its write-locked section. -/
inductive Action (Cb : Type*)
  | operate (act : TimerManager.Action Cb)
  | check (worker : ℕ) (now : UInt64)
  | expire (worker : ℕ) (probe : Addr)

/-- What ends a run: the front of an empty set is read, or an operation has undefined behaviour. -/
inductive Fault
  | frontOfEmpty
  | operation

/-- The workers that are overtaken when the manager has become `m`. -/
def overtakenBy (s : Gap Cb) (m : TimerManager Cb) : ℕ → Bool :=
  if m.timers ≠ [] then fun _ => false
  else if s.manager.timers ≠ [] then fun worker => (s.checked worker).isSome
  else s.overtaken

def step (s : Gap Cb) : Action Cb → Outcome Fault (Gap Cb)
  | .operate (.listExpiredCb _ _) => .disabled
  | .operate act =>
    match TimerManager.step s.manager act with
    | .next m => .next { s with manager := m, overtaken := s.overtakenBy m }
    | .abort _ => .abort .operation
    | .disabled => .disabled
  | .check worker now =>
    if (s.checked worker).isSome then .disabled
    else if s.manager.timers.isEmpty then .next s
    else .next { s with checked := Function.update s.checked worker (some now) }
  | .expire worker probe =>
    match s.checked worker with
    | none => .disabled
    | some now =>
      if (s.manager.heap probe).isNone then
        match s.manager.expireLocked now probe with
        | some (_, m) =>
          .next { manager := m, checked := Function.update s.checked worker none, overtaken := s.overtakenBy m }
        | none => .abort .frontOfEmpty
      else .disabled

def init (now : UInt64) : Gap Cb :=
  { manager := TimerManager.init now, checked := fun _ => none, overtaken := fun _ => false }

/-- A worker that has been overtaken does not come to its section, unless its reading is a rollover. -/
def InTime (s : Gap Cb) : Action Cb → Prop
  | .expire worker probe => ∀ now, s.checked worker = some now → s.manager.heap probe = none → s.overtaken worker = true →
    (s.manager.delectClockRollover now).1 = true
  | _ => True

/-- In the gap, a worker is overtaken exactly while the set is empty. -/
structure Inv (s : Gap Cb) : Prop where
  wf : Wf s.manager
  empty : ∀ worker, s.overtaken worker = true → s.manager.timers = []
  overtaken : s.manager.timers = [] → ∀ worker, (s.checked worker).isSome → s.overtaken worker = true

end Gap

/-! ### The two sections -/

/-- The write-locked section reads the front of an empty set unless the reading is a rollover. -/
theorem expireLocked_eq_none_iff (now : UInt64) (probe : Addr) :
    m.expireLocked now probe = none ↔ m.timers = [] ∧ ¬ (m.delectClockRollover now).1 = true := by
  have htimers : (m.delectClockRollover now).2.timers = m.timers := rfl
  simp only [expireLocked, htimers]
  cases hroll : (m.delectClockRollover now).1 with
  | true => simp
  | false =>
      cases m.timers with
      | nil => simp
      | cons front rest =>
          simp only [Bool.false_eq_true, if_false]
          split_ifs <;> simp

theorem expireLocked_wf (h : Wf m) {now : UInt64} {probe : Addr} {r : List (Option Cb) × TimerManager Cb}
    (hr : m.expireLocked now probe = some r) : Wf r.2 := by
  have hclocked : (m.delectClockRollover now).2 = m.clocked now := rfl
  simp only [expireLocked, hclocked] at hr
  split at hr
  · cases hr
    exact expireFront_wf (clocked_wf h now) now probe true
  · split at hr
    · cases hr
    · split at hr
      · cases hr
        exact clocked_wf h now
      · cases hr
        exact expireFront_wf (clocked_wf h now) now probe false

/-- No other operation has undefined behaviour on a well-formed set. -/
theorem step_ne_abort (h : Wf m) (act : Action Cb) : step m act ≠ .abort () := by
  cases act with
  | cancel a =>
      simp only [step]
      cases ha : m.heap a with
      | none => simp
      | some t =>
          cases hcb : t.cb.isSome with
          | false => simp [cancel_dead ha hcb, settle]
          | true =>
              obtain ⟨m', hm', -⟩ := cancel_live h ha hcb
              simp [hm', settle]
  | refresh a now =>
      simp only [step, refresh]
      cases m.heap a with
      | none => simp
      | some t => simp only [settle]; split_ifs <;> simp
  | reset a ms fromNow now =>
      simp only [step, reset]
      cases m.heap a with
      | none => simp
      | some t => simp only [settle]; split_ifs <;> simp
  | listExpiredCb now probe =>
      obtain ⟨r, hr⟩ := m.listExpiredCb_total now probe
      simp only [step, hr, settle]
      split_ifs <;> simp
  | addTimer | release => simp only [step]; split_ifs <;> simp
  | getNextTimer now => simp [step]

namespace Gap

variable {s s' : Gap Cb} {act : Action Cb}

theorem overtakenBy_empty {worker : ℕ} (hover : s.overtakenBy m worker = true) : m.timers = [] := by
  by_contra hne
  simp [overtakenBy, hne] at hover

theorem overtakenBy_overtaken (h : s.Inv) (hempty : m.timers = []) {worker : ℕ} (hchecked : (s.checked worker).isSome) :
    s.overtakenBy m worker = true := by
  by_cases hbefore : s.manager.timers = []
  · simp [overtakenBy, hempty, hbefore, h.overtaken hbefore worker hchecked]
  · simp [overtakenBy, hempty, hbefore, hchecked]

theorem init_inv (now : UInt64) : (Gap.init now : Gap Cb).Inv :=
  ⟨init_wf now, by simp [Gap.init], by simp [Gap.init]⟩

/-- An operation is that of the manager, or not one of other threads. -/
theorem step_operate (s : Gap Cb) (act : TimerManager.Action Cb) :
    Gap.step s (.operate act) = .disabled ∨ Gap.step s (.operate act) =
      match TimerManager.step s.manager act with
      | .next m => .next { s with manager := m, overtaken := s.overtakenBy m }
      | .abort _ => .abort .operation
      | .disabled => .disabled := by
  cases act with
  | listExpiredCb now probe => exact .inl rfl
  | addTimer | cancel | refresh | reset | getNextTimer | release => exact .inr rfl

theorem step_inv (s : Gap Cb) (act : Action Cb) (s' : Gap Cb) (h : s.Inv) (hstep : Gap.step s act = .next s') : s'.Inv := by
  cases act with
  | operate act =>
      rcases step_operate s act with heq | heq
      · rw [heq] at hstep
        cases hstep
      · rw [heq] at hstep
        split at hstep <;> cases hstep
        rename_i m hm
        exact ⟨step_wf s.manager act m h.wf hm, fun worker => overtakenBy_empty,
          fun hempty worker => overtakenBy_overtaken h hempty⟩
  | check worker now =>
      simp only [Gap.step] at hstep
      split_ifs at hstep with hchecked hempty
      · cases hstep
        exact h
      · cases hstep
        exact ⟨h.wf, h.empty, fun hnil => absurd (List.isEmpty_iff.2 hnil) hempty⟩
  | expire worker probe =>
      simp only [Gap.step] at hstep
      split at hstep
      · cases hstep
      · split_ifs at hstep with hfree
        split at hstep <;> cases hstep
        rename_i now hchecked cbs m hm
        refine ⟨expireLocked_wf h.wf hm, fun w => overtakenBy_empty, fun hempty w hw => overtakenBy_overtaken h hempty ?_⟩
        by_cases hself : w = worker
        · subst hself
          simp at hw
        · simpa [Function.update_of_ne hself] using hw

theorem step_frontOfEmpty_iff (h : s.Inv) (act : Action Cb) :
    Gap.step s act = .abort .frontOfEmpty ↔ ¬ s.InTime act := by
  cases act with
  | operate act =>
      simp only [InTime, not_true_eq_false, iff_false]
      rcases step_operate s act with heq | heq <;> rw [heq]
      · simp
      · split <;> simp
  | check worker now =>
      simp only [Gap.step, InTime, not_true_eq_false, iff_false]
      split_ifs <;> simp
  | expire worker probe =>
      simp only [Gap.step, InTime]
      cases hchecked : s.checked worker with
      | none => simp
      | some now =>
          cases hprobe : s.manager.heap probe with
          | some t => simp
          | none =>
              have hover : s.overtaken worker = true ↔ s.manager.timers = [] :=
                ⟨h.empty worker, fun hempty => h.overtaken hempty worker (by simp [hchecked])⟩
              have habort := expireLocked_eq_none_iff (m := s.manager) now probe
              cases hr : s.manager.expireLocked now probe with
              | none => simpa [hover, hr] using habort.1 hr
              | some r => simpa [hover, hr] using habort.not.1 (by simp [hr])

/-- An expiry call between whose sections nothing happens is `listExpiredCb`. -/
theorem check_expire {worker : ℕ} (hidle : s.checked worker = none) (now : UInt64) {probe : Addr}
    (hfree : s.manager.heap probe = none) {r : List (Option Cb) × TimerManager Cb}
    (hr : s.manager.listExpiredCb now probe = some r) (hsome : s.manager.timers ≠ []) :
    ∃ t, run Gap.step s [.check worker now, .expire worker probe] = .next t ∧ t.manager = r.2 ∧ t.checked = s.checked := by
  have hlocked : s.manager.expireLocked now probe = some r := by
    rwa [listExpiredCb, if_neg (by simpa using hsome)] at hr
  have hback : Function.update s.checked worker none = s.checked := by
    rw [← hidle, Function.update_eq_self]
  simp [run, Gap.step, hidle, hsome, hfree, hlocked, hback]

end Gap

/-! ### Whole runs -/

/-- Whatever the order of the sections of any number of workers and of the operations of other threads, the front of an empty set is never read exactly if no worker that has been overtaken in the gap comes to its section. -/
theorem front_of_empty_iff (start : UInt64) (acts : List (Gap.Action Cb)) :
    run Gap.step (Gap.init start) acts ≠ .abort .frontOfEmpty ↔ Along Gap.step Gap.InTime (Gap.init start) acts :=
  run_ne_abort_iff_along_of_invariant Gap.step_inv (fun _ act h => Gap.step_frontOfEmpty_iff h act) (Gap.init_inv start) acts

/-- The operations of the other threads never end a run. -/
theorem operation_never_faults (start : UInt64) (acts : List (Gap.Action Cb)) :
    run Gap.step (Gap.init start) acts ≠ .abort .operation := by
  refine (run_ne_abort_iff_along_of_invariant (P := fun _ _ => True) Gap.step_inv (fun s act h => ?_)
    (Gap.init_inv start) acts).2 (along_of_forall (fun _ _ _ => trivial) _)
  simp only [not_true_eq_false, iff_false]
  cases act with
  | operate act =>
      rcases Gap.step_operate s act with heq | heq <;> rw [heq]
      · simp
      · have hsafe := step_ne_abort h.wf act
        split
        · simp
        · exact absurd ‹_› hsafe
        · simp
  | check worker now =>
      simp only [Gap.step]
      split_ifs <;> simp
  | expire worker probe =>
      simp only [Gap.step]
      split
      · simp
      · split_ifs
        · split <;> simp
        · simp

/-- Two workers find the one timer in the set; the first takes it out, and the second reads the front. -/
theorem second_worker_reads_front :
    run Gap.step (Gap.init 10 : Gap ℕ)
      [.operate (.addTimer 0 5 (some 7) false 10), .check 0 15, .check 1 15, .expire 0 1, .expire 1 1] =
        .abort .frontOfEmpty := rfl

end Awcotn.TimerManager
