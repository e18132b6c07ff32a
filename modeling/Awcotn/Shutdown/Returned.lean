import Awcotn.Shutdown.Account
import Awcotn.Shutdown.Stopped

/-!
# When `stop` returns

`stop` returns after a read of `stopping` that has returned true: its own, or that of a worker whose `idle` has returned so that it has left `run`. If no read has been disturbed, nothing was left then, and nothing has come since.
-/

namespace Awcotn.Shutdown

open Transition Scheduler

variable {C : Type*} {th : Threads} {procs : Finset ThreadId} {s t : State C}

/-- `stopping` returns true. -/
def ReturnsTrue (s : State C) (a : Action C) : Prop :=
  ∃ now e, a.evaluates s = some (now, e) ∧ (evaluate s now e).2 = .inr true

theorem evaluate_eq_true {now : UInt64} {e : EvalPc} (h : (evaluate s now e).2 = .inr true) :
    s.schedulerStopping = true ∧ ∃ timersSeen eventsSeen, e = .readQueue timersSeen eventsSeen := by
  cases e with
  | readTimers =>
      simp only [evaluate] at h
      split at h <;> cases h
  | readPending n =>
      simp only [evaluate] at h
      split at h <;> cases h
  | readQueue n k => exact ⟨Sum.inr.inj h, n, k, rfl⟩

/-- Who has passed a read of `stopping` that returned true has left a manager with nothing left. -/
structure StopInv (th : Threads) (s : State C) : Prop where
  autoStop : s.autoStop → s.stop ≠ .notCalled
  finished : ∀ w, s.idle w = .finished → Dead th s
  term : ∀ w ∈ th.workers, (s.sched.fibers w).state = .TERM → s.idle w = .finished
  exited : ∀ w ∈ th.workers, s.sched.pc w = .exited → s.idle w = .finished
  joining : s.stop = .joining → th.root.isSome → Dead th s
  returned : s.stop = .returned → Dead th s

/-- An undisturbed read that returns true finds nothing left. -/
theorem StopInv.dead (hs : StopInv th s) (hworkers : WorkersInv th procs s) (hreads : ReadsInv s) {a : Action C}
    (ha : Undisturbed th s a) (h : ReturnsTrue s a) : Dead th s := by
  obtain ⟨now, e, hevaluates, htrue⟩ := h
  obtain ⟨hstopping, n, k, rfl⟩ := evaluate_eq_true htrue
  refine ⟨stoppingMeansIdle hworkers.active hreads ha now n k hevaluates hstopping, hs.autoStop ?_⟩
  simp only [State.schedulerStopping, Bool.and_eq_true] at hstopping
  exact hstopping.1.1.1

/-! ### How `idle` and `stop` get on -/

theorem idleAfter_eq_finished {r : EvalPc ⊕ Bool} (h : idleAfter (C := C) r = .finished) : r = .inr true := by
  rcases r with e | _ | _
  · cases h
  · cases h
  · rfl

/-- `idle` returns after a read that returned true, and stays returned. -/
theorem finished_of_effect {a : Action C} (h : Effect th s a t) (w : ThreadId) :
    (s.idle w = .finished → t.idle w = .finished) ∧
      (t.idle w = .finished → s.idle w = .finished ∨ ReturnsTrue s a) := by
  have hset : ∀ {v : ThreadId} {before after : IdlePc C}, s.idle v = before → before ≠ .finished →
      t.idle = Function.update s.idle v after → (after = .finished → ReturnsTrue s a) →
      (s.idle w = .finished → t.idle w = .finished) ∧
        (t.idle w = .finished → s.idle w = .finished ∨ ReturnsTrue s a) := by
    intro v before after hbefore hne hidle hafter
    rw [hidle]
    by_cases hw : w = v
    · subst hw
      rw [Function.update_self]
      exact ⟨fun heq => absurd (hbefore.symm.trans heq) hne, fun heq => .inr (hafter heq)⟩
    · rw [Function.update_of_ne hw]
      exact ⟨id, .inl⟩
  cases h with
  | @idleEval v now probe reports allow f e hpc hidle =>
      refine hset hidle (by simp) (evaluate_setIdle ..) fun hfinished => ?_
      exact ⟨now, e, by simp [Action.evaluates, hpc, hidle], idleAfter_eq_finished hfinished⟩
  | wait hidle | expire hidle | schedule hidle | dispatch hidle => exact hset hidle (by simp) rfl (by simp)
  | idleExit hpc hidle => exact hset hidle (by simp) rfl (by simp)
  | idleCount hidle hpc =>
      refine hset hidle (by simp) rfl fun hfinished => ?_
      rcases hpc with rfl | ⟨n', rfl⟩ <;> cases hfinished
  | task _ _ _ hop | other _ _ hop =>
      rw [hop.pcs.1]
      exact ⟨id, .inl⟩
  | @earlyEval now e hstop | @checkEval now e hstop =>
      simp only [(evaluate_idle s now e).1]
      exact ⟨id, .inl⟩
  | _ => exact ⟨id, .inl⟩

theorem earlyAfter_eq_returned {r : EvalPc ⊕ Bool} (h : earlyAfter r = .returned) : r = .inr true := by
  rcases r with e | _ | _
  · cases h
  · cases h
  · rfl

theorem checkAfter_eq_joining {r : EvalPc ⊕ Bool} (h : checkAfter r = .joining) : r = .inr true := by
  rcases r with e | _ | _
  · cases h
  · cases h
  · rfl

/-- Nobody but the stopping thread writes its program point or `m_autoStop`. -/
theorem stop_of_effect {a : Action C} (h : Effect th s a t) :
    t.stop = s.stop ∧ t.autoStop = s.autoStop ∨ a = .callStop ∨ ∃ now, a = .stop now := by
  cases h with
  | callStop => exact .inr (.inl rfl)
  | mark | earlyEval | checkEval | rootDone | joined => exact .inr (.inr ⟨_, rfl⟩)
  | @idleEval w now _ _ _ _ e =>
      refine .inl ⟨(evaluate_idle s now e).2, ?_⟩
      rcases evaluate_fst s now e with heq | heq <;> simp [heq, State.setIdle]
  | task _ _ _ hop | other _ _ hop =>
      refine .inl ⟨hop.pcs.2, ?_⟩
      cases hop <;> rfl
  | _ => exact .inl ⟨rfl, rfl⟩

/-- `m_autoStop` is set inside `stop`. -/
theorem called_of_effect (hs : s.autoStop → s.stop ≠ .notCalled) {a : Action C} (h : Effect th s a t) :
    t.autoStop → t.stop ≠ .notCalled := by
  obtain ⟨hstop, hautoStop⟩ | rfl | ⟨now, rfl⟩ := stop_of_effect h
  · rw [hstop, hautoStop]
    exact hs
  · cases h
    exact fun _ => nofun
  · intro _
    cases h with
    | mark hmark => rcases hmark with ⟨-, -, rfl | rfl⟩ | ⟨-, ⟨-, rfl⟩ | ⟨-, rfl | ⟨rfl, -⟩⟩⟩ <;> nofun
    | earlyEval => exact earlyAfter_ne_notCalled _
    | checkEval => exact checkAfter_ne_notCalled _
    | rootDone | joined => nofun

/-- The stopping thread comes to join the started threads after a read of its own, after the caller's `run`, or where the caller has none. -/
theorem joining_of_effect {a : Action C} (h : Effect th s a t) (hjoining : t.stop = .joining) :
    s.stop = .joining ∨ ReturnsTrue s a ∨ th.root = none ∨ ∀ w, th.root = some w → hasExited (s.sched.pc w) := by
  obtain ⟨hstop, -⟩ | rfl | ⟨now, rfl⟩ := stop_of_effect h
  · exact .inl (hstop ▸ hjoining)
  · cases h
    cases hjoining
  · cases h with
    | mark hmark =>
        rcases hmark with ⟨-, -, rfl | rfl⟩ | ⟨-, ⟨-, rfl⟩ | ⟨-, rfl | ⟨-, hroot⟩⟩⟩
        · cases hjoining
        · cases hjoining
        · cases hjoining
        · cases hjoining
        · exact .inr (.inr (.inl hroot))
    | @earlyEval _ e hstop =>
        rcases hr : (evaluate s now e).2 with e' | _ | _ <;> simp [hr, earlyAfter] at hjoining
    | @checkEval _ e hstop =>
        exact .inr (.inl ⟨now, e, by simp [Action.evaluates, hstop], checkAfter_eq_joining hjoining⟩)
    | rootDone _ hroot => exact .inr (.inr (.inr hroot))
    | joined => cases hjoining

/-- `stop` returns after a read of its own, or when it has joined the started threads. -/
theorem returned_of_effect {a : Action C} (h : Effect th s a t) (hreturned : t.stop = .returned) :
    s.stop = .returned ∨ ReturnsTrue s a ∨ s.stop = .joining ∧ ∀ w ∈ th.started, hasExited (s.sched.pc w) := by
  obtain ⟨hstop, -⟩ | rfl | ⟨now, rfl⟩ := stop_of_effect h
  · exact .inl (hstop ▸ hreturned)
  · cases h
    cases hreturned
  · cases h with
    | mark hmark =>
        rcases hmark with ⟨-, -, rfl | rfl⟩ | ⟨-, ⟨-, rfl⟩ | ⟨-, rfl | ⟨rfl, -⟩⟩⟩ <;> cases hreturned
    | @earlyEval _ e hstop =>
        exact .inr (.inl ⟨now, e, by simp [Action.evaluates, hstop], earlyAfter_eq_returned hreturned⟩)
    | @checkEval _ e hstop =>
        rcases hr : (evaluate s now e).2 with e' | _ | _ <;> simp [hr, checkAfter] at hreturned
    | rootDone => cases hreturned
    | joined hstop hexited => exact .inr (.inr ⟨hstop, hexited⟩)

theorem hasExited_iff {pc : Pc C} : hasExited pc = true ↔ pc = .exited := by
  cases pc <;> simp [hasExited]

/-! ### The invariant -/

theorem mem_workers_of_started {w : ThreadId} (hw : w ∈ th.started) : w ∈ th.workers :=
  Finset.mem_union_left _ hw

theorem mem_workers_of_root {w : ThreadId} (hw : th.root = some w) : w ∈ th.workers := by
  refine Finset.mem_union_right _ ?_
  rw [hw]
  exact Finset.mem_singleton_self w

/-- A fiber becomes `TERM` where its code returns, and the code of a worker's idle fiber does so when `idle` has returned. -/
theorem WorkersInv.idle_term (hs : WorkersInv th procs s) {a : Action C} (h : Effect th s a t) {w : ThreadId}
    (hw : w ∈ th.workers) (hterm : (t.sched.fibers w).state = .TERM) :
    (s.sched.fibers w).state = .TERM ∨ s.idle w = .finished := by
  obtain ⟨entries, hsched⟩ | ⟨b, hstep, hperforms⟩ := effect_sched h
  · rw [hsched, pushAll_eq] at hterm
    exact .inl hterm
  · rw [step_state hstep w] at hterm
    obtain hbefore | hwrite := written_eq hterm
    · exact .inl hbefore
    · right
      cases b with
      | exit v how =>
          obtain ⟨kind, f, hpc, hkind⟩ := hperforms.exit v how rfl
          simp only [writes, hpc, Option.map_eq_some_iff] at hwrite
          obtain ⟨state, hstate, heq⟩ := hwrite
          obtain ⟨rfl, rfl⟩ := Prod.mk.inj heq
          have hle : f ≤ th.workers.sup id := Finset.le_sup (f := id) hw
          by_cases hidle : kind = .idle
          · subst hidle
            obtain ⟨-, rfl⟩ := hs.owners.idle v f (by rw [hpc]; rfl)
            rcases hkind with hkind | rfl | hfinished
            · exact absurd rfl hkind
            · cases hstate
            · exact hfinished
          · exact absurd hle (Nat.not_le_of_lt (hs.running hpc hidle))
      | run v =>
          rcases writes_run hwrite with hstate | ⟨hstate, -⟩ | ⟨hstate, -⟩ <;> cases hstate
      | newFiber cb => cases hwrite
      | _ => cases hwrite

theorem step_stopInv (htables : TablesInv s) (hreads : ReadsInv s) (hworkers : WorkersInv th procs s)
    (hs : StopInv th s) {a : Action C} (ha : Undisturbed th s a) (h : Effect th s a t) : StopInv th t := by
  have hdead : Dead th s → Dead th t := fun hdead => step_dead htables hworkers.outside hdead h
  have htrue : ReturnsTrue s a → Dead th s := hs.dead hworkers hreads ha
  have hexited : ∀ w ∈ th.workers, hasExited (s.sched.pc w) = true → Dead th s := fun w hw hexit =>
    hs.finished w (hs.exited w hw (hasExited_iff.1 hexit))
  refine ⟨called_of_effect hs.autoStop h, fun w hw => ?_, fun w hw hterm => ?_, fun w hw hpc => ?_,
    fun hjoining hroot => ?_, fun hreturned => ?_⟩
  · obtain hbefore | hreturns := (finished_of_effect h w).2 hw
    · exact hdead (hs.finished w hbefore)
    · exact hdead (htrue hreturns)
  · refine (finished_of_effect h w).1 ?_
    obtain hbefore | hfinished := hworkers.idle_term h hw hterm
    · exact hs.term w hw hbefore
    · exact hfinished
  · refine (finished_of_effect h w).1 ?_
    obtain ⟨entries, hsched⟩ | ⟨b, hstep, -⟩ := effect_sched h
    · rw [hsched, pushAll_eq] at hpc
      exact hs.exited w hw hpc
    · obtain hbefore | hterm := (point_of_step hstep (f := w)).2 hpc
      · exact hs.exited w hw hbefore
      · rw [hworkers.owners.idleFiber] at hterm
        exact hs.term w hw hterm
  · obtain ⟨root, hsome⟩ := Option.isSome_iff_exists.1 hroot
    obtain hbefore | hreturns | hnone | hexit := joining_of_effect h hjoining
    · exact hdead (hs.joining hbefore hroot)
    · exact hdead (htrue hreturns)
    · rw [hsome] at hnone
      cases hnone
    · exact hdead (hexited root (mem_workers_of_root hsome) (hexit root hsome))
  · obtain hbefore | hreturns | ⟨hjoining, hexit⟩ := returned_of_effect h hreturned
    · exact hdead (hs.returned hbefore)
    · exact hdead (htrue hreturns)
    · obtain ⟨w, hw⟩ | hroot := th.nonempty
      · exact hdead (hexited w (mem_workers_of_started hw) (hexit w hw))
      · exact hdead (hs.joining hjoining hroot)

theorem stopInv_start (th : Threads) (idleCb : C) (now : UInt64) : StopInv th (start th idleCb now) where
  autoStop := nofun
  finished := nofun
  term := nofun
  exited := nofun
  joining := nofun
  returned := nofun

/-! ### Whole runs -/

/-- Where nothing is left, nothing is held. -/
theorem NothingLeft.held_eq_zero (hs : NothingLeft th s) (procs : Finset ThreadId) : held procs s = 0 := by
  have htimers : timerWork s.timers = 0 := by simp [timerWork, TimerManager.stock, hs.timers]
  have hidle : ∀ w, idleWork (s.idle w) = 0 := by
    intro w
    cases hpc : s.idle w with
    | scheduling cbs reports =>
        have hnone : cbs.reduceOption = [] := List.eq_nil_iff_forall_not_mem.2 fun c hc =>
          hs.handOver.expired w cbs reports hpc c (List.reduceOption_mem_iff.1 hc)
        simp [idleWork, cbWork, hnone]
    | _ => rfl
  have hcall : ∀ w, callWork (s.call w) = 0 := by
    intro w
    cases hpc : s.call w with
    | pushing entries =>
        obtain rfl := hs.handOver.cancelled w entries hpc
        rfl
    | _ => rfl
  have hqueue : queueWork s.sched.queue = 0 := by rw [hs.queue]; rfl
  rw [held, htimers, IOManager.stock_eq_zero hs.events, hqueue]
  simp only [hidle, hcall, Finset.sum_const_zero, add_zero]

/-- Where nothing is left, nobody has anything in hand. -/
theorem NothingLeft.hand_eq_zero (hs : NothingLeft th s) (houtside : ∀ w, w ∉ th.workers → s.sched.pc w = .head)
    {hand : ThreadId → Multiset (Work C)} (hhand : HandInv s hand) (w : ThreadId) : hand w = 0 := by
  refine hhand w ?_
  by_cases hw : w ∈ th.workers
  · have htask := hs.tasks w hw
    cases hpc : s.sched.pc w <;> rw [hpc] at htask <;> first | exact htask | rfl
  · rw [houtside w hw]
    rfl

/-- What holds throughout an undisturbed run in which `procs` take part. -/
structure RunInv (th : Threads) (procs : Finset ThreadId) (s : Tracked C) : Prop where
  tables : TablesInv s.base
  reads : ReadsInv s.base
  workers : WorkersInv th procs s.base
  stop : StopInv th s.base
  hand : HandInv s.base s.hand
  balanced : Balanced procs s

theorem runInv_start (th : Threads) (procs : Finset ThreadId) (idleCb : C) (now : UInt64) :
    RunInv th procs (Tracked.start th idleCb now) := by
  have hheld : held procs (start th idleCb now) = 0 := by
    have hio : (IOManager.init : IOManager FiberId C).stock = 0 :=
      IOManager.stock_eq_zero fun fd event => congrArg Prod.fst (congrFun IOManager.cells_init (fd, event))
    rw [held]
    simp [start, timerWork, queueWork, idleWork, callWork, TimerManager.stock, TimerManager.init, Scheduler.start, hio]
  refine ⟨⟨IOManager.wf_init, ?_, rfl, TimerManager.init_wf now⟩, ⟨?_, by simp [Tracked.start, start], by simp [Tracked.start, start]⟩,
    ⟨activeInv_start th.workers idleCb, owners_start th.workers idleCb, fun _ _ => rfl, by simp [Tracked.start, start, Scheduler.start],
      by simp [Tracked.start, start, Scheduler.start, handles], ?_⟩,
    stopInv_start th idleCb now, fun _ _ => rfl, ?_⟩
  · exact IOManager.countExact_start
  · intro w e he
    cases he
    trivial
  · intro f hf
    rw [Tracked.start, hheld] at hf
    exact absurd hf (Multiset.notMem_zero _)
  · simp [Balanced, Tracked.start, hheld]

theorem step_runInv {s t : Tracked C} (hs : RunInv th procs s) {a : Action C} (ha : Undisturbed th s.base a)
    (hprocs : ∀ w, a.thread = some w → w ∈ procs) (h : Tracked.step th s a = .next t) : RunInv th procs t := by
  have heffect := step_effect (Tracked.step_eq_next h).1
  obtain ⟨hbalanced, hhand⟩ := step_balanced hs.tables hs.hand hs.balanced hprocs h
  exact ⟨(step_tables hs.tables heffect).1, step_readsInv hs.tables hs.reads ha heffect,
    step_workersInv hs.tables hs.workers hprocs heffect,
    step_stopInv hs.tables hs.reads hs.workers hs.stop ha heffect, hhand, hbalanced⟩

/-- In a run whose reads of `stopping` are undisturbed, `stopping` returns true only where nothing is left, and when `stop` has returned, all the work that has ever been brought has been executed or deleted. -/
theorem stop_loses_nothing (th : Threads) (idleCb : C) (now : UInt64) (acts : List (Action C))
    (h : Along (step th) (Undisturbed th) (start th idleCb now) acts) :
    Along (step th) (StoppingMeansIdle th) (start th idleCb now) acts ∧
      ∀ s, run (Tracked.step th) (Tracked.start th idleCb now) acts = .next s → s.base.stop = .returned →
        NothingLeft th s.base ∧ s.accepted = s.executed + s.finished + s.deleted := by
  have hprocs : ∀ a ∈ acts, ∀ w, a.thread = some w → w ∈ (acts.filterMap Action.thread).toFinset := fun a ha w hw =>
    List.mem_toFinset.2 (List.mem_filterMap.2 ⟨a, ha, hw⟩)
  have halong : Along (Tracked.step th) (fun s a => Undisturbed th s.base a ∧
      ∀ w, a.thread = some w → w ∈ (acts.filterMap Action.thread).toFinset) (Tracked.start th idleCb now) acts :=
    (Tracked.along_base.2 h).and (along_of_forall (fun a ha _ => hprocs a ha) _)
  obtain ⟨hall, hsteps⟩ := throughout_of_along (fun s a t hs ha hstep => step_runInv hs ha.1 ha.2 hstep)
    (runInv_start th _ idleCb now) halong
  refine ⟨Tracked.along_base.1 (hsteps.mono fun s a hs => ?_), fun s hrun hreturned => ?_⟩
  · obtain ⟨hinv, ha, -⟩ := hs
    exact stoppingMeansIdle hinv.workers.active hinv.reads ha
  · have hinv := hall.last hrun
    have hleft := (hinv.stop.returned hreturned).nothing
    have hhand := hleft.hand_eq_zero hinv.workers.outside hinv.hand
    have hbalanced := hinv.balanced
    rw [Balanced, hleft.held_eq_zero, Finset.sum_eq_zero fun w _ => hhand w, add_zero, zero_add] at hbalanced
    exact ⟨hleft, hbalanced⟩

/-! ### Runs of one worker -/

def oneWorker : Threads := ⟨{1}, none, by simp, by simp⟩

/-- A read of `stopping` that does not return true, and does not find the clock at zero. -/
def readsOn (s : State C) (a : Action C) : Bool :=
  match a.evaluates s with
  | none | some (_, .readPending _) => true
  | some (now, .readTimers) => now != 0
  | some (_, .readQueue _ _) => !s.schedulerStopping

theorem undisturbed_of_readsOn {a : Action C} (h : readsOn s a) : Undisturbed th s a := by
  intro now e hevaluates
  simp only [readsOn, hevaluates] at h
  cases e with
  | readTimers => exact fun hzero => by simp [hzero] at h
  | readPending n => trivial
  | readQueue n k => exact fun hstopping => by simp [hstopping] at h

/-- A task returns and a timer is cancelled before `stop` is called, and the worker has reached its last read of `stopping`. -/
def beforeRead : List (Action Unit) :=
  ([[.other 0 (.schedule (.cb ()) none)], List.replicate 5 (.run 1), [.exit 1 .finish], List.replicate 5 (.run 1),
    [.other 0 (.timer (.addTimer 7 10 (some ()) false 5)), .other 0 (.timer (.cancel 7)), .callStop, .stop 1, .stop 1],
    List.replicate 5 (.run 1), List.replicate 2 (.idle 1 1 0 [] true)] : List (List (Action Unit))).flatten

/-- The worker leaves `run` and is joined. -/
def afterRead : List (Action Unit) := .idle 1 1 0 [] true :: (List.replicate 5 (.run 1) ++ [.stop 1])

theorem undisturbed_beforeRead : Along (step oneWorker) (Undisturbed oneWorker) (start oneWorker () 5)
    (beforeRead ++ .idle 1 1 0 [] true :: afterRead) := by
  refine (along_append rfl).2 ⟨?_, ?_⟩
  · refine Along.mono (P := fun s a => readsOn s a = true) (fun s a h => undisturbed_of_readsOn h) ?_
    decide +kernel
  · refine (along_cons_of_next rfl).2 ⟨?_, ?_⟩
    · intro now e hevaluates
      cases hevaluates
      refine fun _ => ⟨rfl, rfl, ?_, ?_, ?_, ?_⟩
      · intro w cbs reports h
        change Function.update (Function.update (fun _ => IdlePc.stopping .readTimers) 1 (.stopping (.readPending 1))) 1
          (.stopping (.readQueue 1 0)) w = .scheduling cbs reports at h
        by_cases hw : w = 1
        · subst hw
          cases h
        · rw [Function.update_of_ne hw, Function.update_of_ne hw] at h
          cases h
      · intro w entries h
        cases h
      · intro w hw kind f h
        have hone : w = 1 := by simpa [oneWorker, Threads.workers] using hw
        subst hone
        cases h
      · intro w hw kind f h
        have hone : w = 1 := by simpa [oneWorker, Threads.workers] using hw
        subst hone
        cases h
    · refine Along.mono (P := fun s a => readsOn s a = true) (fun s a h => undisturbed_of_readsOn h) ?_
      decide +kernel

theorem stop_loses_nothing_executing :
    ∃ s, run (Tracked.step oneWorker) (Tracked.start oneWorker () 5) (beforeRead ++ .idle 1 1 0 [] true :: afterRead) =
      .next s ∧ s.base.stop = .returned ∧ NothingLeft oneWorker s.base ∧
        s.accepted = s.executed + s.finished + s.deleted :=
  ⟨_, rfl, rfl, (stop_loses_nothing oneWorker () 5 _ undisturbed_beforeRead).2 _ rfl rfl⟩

/-- A task registers an event and returns; another thread cancels the event and has counted it down when `stop` begins. The worker has reached its last read of `stopping`. -/
def cancelling : List (Action Unit) :=
  ([[.other 0 (.schedule (.cb ()) none)], List.replicate 5 (.run 1),
    [.task 1 (.addEvent 5 .READ (some ()) true), .exit 1 .finish], List.replicate 5 (.run 1),
    [.other 0 (.cancelEvent 5 .READ), .call 0 true, .callStop, .stop 1, .stop 1], List.replicate 5 (.run 1),
    List.replicate 2 (.idle 1 1 0 [] true)] : List (List (Action Unit))).flatten

/-- The read of the worker returns true and the worker leaves `run`. Then the other thread pushes the task of the event, and `stop` returns with it in the queue. -/
theorem cancelled_event_left_behind :
    (∃ s, run (step oneWorker) (start oneWorker () 5) cancelling = .next s ∧
      ¬ StoppingMeansIdle oneWorker s (.idle 1 1 0 [] true)) ∧
    ∃ s, run (Tracked.step oneWorker) (Tracked.start oneWorker () 5)
        (cancelling ++ List.replicate 2 (.idle 1 1 0 [] true) ++ List.replicate 5 (.run 1) ++ [.call 0 true, .stop 1]) =
        .next s ∧ s.base.stop = .returned ∧ s.base.sched.queue = [⟨none, some (), none⟩] ∧
      s.accepted ≠ s.executed + s.finished + s.deleted := by
  refine ⟨⟨_, rfl, fun h => ?_⟩, _, rfl, rfl, rfl, fun h => ?_⟩
  · have hcancelled := (h 1 0 1 rfl rfl).handOver.cancelled 0 [⟨none, some (), none⟩] rfl
    cases hcancelled
  · have hcard := congrArg Multiset.card h
    revert hcard
    decide +kernel

end Awcotn.Shutdown
