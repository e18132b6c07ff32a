import Awcotn.Shutdown.Workers

/-!
# An account of the work

Beside a manager stands an account of the work that has come and gone in its run. What a worker dequeues is in its hand until it switches to the fiber, or until it finds that the fiber has finished already.
-/

namespace Awcotn.Shutdown

open Transition Scheduler

variable {C : Type*} {th : Threads} {procs : Finset ThreadId}

/-- A manager with its account: what has been brought, what has been switched to, what was for a fiber that had finished, what has been deleted, and what each worker has in hand. -/
structure Tracked (C : Type*) where
  base : State C
  accepted : Multiset (Work C)
  executed : Multiset (Work C)
  finished : Multiset (Work C)
  deleted : Multiset (Work C)
  hand : ThreadId → Multiset (Work C)

namespace Action

/-- What a step switches to. -/
def executes (s : State C) (hand : ThreadId → Multiset (Work C)) : Action C → Multiset (Work C)
  | .run w =>
    match s.sched.pc w with
    | .entering kind _ => if kind = .idle then 0 else hand w
    | _ => 0
  | _ => 0

/-- What a step drops: a dequeued fiber has finished, and the worker has no task. -/
def drops (s t : State C) (hand : ThreadId → Multiset (Work C)) : Action C → Multiset (Work C)
  | .run w =>
    match s.sched.pc w, t.sched.pc w with
    | .picked _, .noTask => hand w
    | _, _ => 0
  | _ => 0

/-- What the workers have in hand after a step. -/
def handAfter (s t : State C) (hand : ThreadId → Multiset (Work C)) : Action C → ThreadId → Multiset (Work C)
  | .run w =>
    match s.sched.pc w, t.sched.pc w with
    | .head, .picked ft => Function.update hand w (entryWork ft)
    | .picked _, .noTask => Function.update hand w 0
    | .entering kind _, _ => if kind = .idle then hand else Function.update hand w 0
    | _, _ => hand
  | _ => hand

end Action

namespace Tracked

def step (th : Threads) (s : Tracked C) (a : Action C) : Outcome Crash (Tracked C) :=
  match Shutdown.step th s.base a with
  | .next t =>
    .next
      { base := t
        accepted := s.accepted + a.accepts s.base t
        executed := s.executed + a.executes s.base s.hand
        finished := s.finished + a.drops s.base t s.hand
        deleted := s.deleted + a.deletes s.base t
        hand := a.handAfter s.base t s.hand }
  | .abort e => .abort e
  | .disabled => .disabled

def start (th : Threads) (idleCb : C) (now : UInt64) : Tracked C where
  base := Shutdown.start th idleCb now
  accepted := 0
  executed := 0
  finished := 0
  deleted := 0
  hand := fun _ => 0

/-- The account goes along with the manager. -/
theorem step_eq_next {s t : Tracked C} {a : Action C} (h : step th s a = .next t) :
    Shutdown.step th s.base a = .next t.base ∧
      t = { base := t.base
            accepted := s.accepted + a.accepts s.base t.base
            executed := s.executed + a.executes s.base s.hand
            finished := s.finished + a.drops s.base t.base s.hand
            deleted := s.deleted + a.deletes s.base t.base
            hand := a.handAfter s.base t.base s.hand } := by
  simp only [step] at h
  cases hstep : Shutdown.step th s.base a with
  | next u =>
      rw [hstep] at h
      cases h
      exact ⟨rfl, rfl⟩
  | abort e =>
      rw [hstep] at h
      cases h
  | disabled =>
      rw [hstep] at h
      cases h

/-- Keeping an account changes no run. -/
theorem along_base {P : State C → Action C → Prop} {s : Tracked C} {acts : List (Action C)} :
    Along (step th) (fun s a => P s.base a) s acts ↔ Along (Shutdown.step th) P s.base acts := by
  induction acts generalizing s with
  | nil => exact Iff.rfl
  | cons a rest ih =>
      simp only [Along, step]
      cases Shutdown.step th s.base a with
      | next t => simp only [ih]
      | abort e => exact Iff.rfl
      | disabled => exact Iff.rfl

end Tracked

/-! ### What is in hand -/

/-- The worker has dequeued an entry and has not switched to its fiber yet. -/
def bringing : Pc C → Bool
  | .picked _ => true
  | .resetting _ cb | .initing _ cb => cb.isSome
  | .swapIn kind _ | .checked kind _ | .entering kind _ => kind != .idle
  | _ => false

/-- Nobody else has anything in hand. -/
def HandInv (s : State C) (hand : ThreadId → Multiset (Work C)) : Prop :=
  ∀ w, bringing (s.sched.pc w) = false → hand w = 0

/-- A hand takes or gives. -/
theorem hand_trades {w : ThreadId} (hw : w ∈ procs) (hand : ThreadId → Multiset (Work C)) (work : Multiset (Work C)) :
    Trades (∑ v ∈ procs, hand v) (∑ v ∈ procs, Function.update hand w work v) (hand w) work :=
  Process.sum_update hw id hand work

/-- What a step of `run` does to the hands. -/
theorem run_hands {s t : State C} {hand : ThreadId → Multiset (Work C)} {w : ThreadId} {before after : Pc C}
    (hw : w ∈ procs) (hhand : bringing before = false → hand w = 0) (hbefore : s.sched.pc w = before)
    (hafter : t.sched.pc w = after) (hnext : Next s.sched w before after) :
    Trades (∑ v ∈ procs, hand v) (∑ v ∈ procs, (Action.run w).handAfter s t hand v)
        ((Action.run w).executes s hand + (Action.run w).drops s t hand) ((Action.run w).takesUp s t) ∧
      (bringing after = false → (Action.run w).handAfter s t hand w = 0) ∧
      ∀ v, v ≠ w → (Action.run w).handAfter s t hand v = hand v := by
  simp only [Action.handAfter, Action.executes, Action.drops, Action.takesUp, hbefore, hafter]
  have hstay : (bringing after = false → hand w = 0) →
      Trades (∑ v ∈ procs, hand v) (∑ v ∈ procs, hand v) (0 + 0) 0 ∧ (bringing after = false → hand w = 0) ∧
        ∀ v, v ≠ w → hand v = hand v := fun h => ⟨.same rfl, h, fun _ _ => rfl⟩
  have hother : ∀ work v, v ≠ w → Function.update hand w work v = hand v := fun _ _ hv => Function.update_of_ne hv ..
  cases hnext with
  | dequeue ft hmem hft =>
      have htrade := hand_trades hw hand (entryWork ft)
      rw [hhand rfl] at htrade
      exact ⟨htrade, by simp [bringing], hother _⟩
  | finished ft hcb hdead =>
      have htrade := hand_trades hw hand 0
      exact ⟨by rwa [zero_add], fun _ => Function.update_self .., hother 0⟩
  | enter kind f =>
      by_cases hkind : kind = .idle
      · subst hkind
        exact hstay fun _ => hhand rfl
      · have htrade := hand_trades hw hand 0
        simp only [if_neg hkind, add_zero]
        exact ⟨htrade, fun _ => Function.update_self .., hother 0⟩
  | read kind f => exact hstay fun _ => hhand rfl
  | takeFiber | reuseCb | newCb | init => exact hstay (by simp [bringing])
  | _ => exact hstay hhand

/-- Outside of `run` the hands stay as they are. -/
theorem HandInv.frame {s t : State C} {hand : ThreadId → Multiset (Work C)} (hs : HandInv s hand) {a : Action C}
    (h : Effect th s a t) (hrun : ∀ w, a ≠ .run w) : HandInv t hand := by
  intro v hv
  refine hs v ?_
  obtain hsame | ⟨kind, f, hpc, -⟩ := pc_of_effect h hrun v
  · rwa [hsame] at hv
  · rw [hpc]
    rfl

/-- What a step does to the hands. -/
theorem step_hands {s t : State C} {hand : ThreadId → Multiset (Work C)} (hs : HandInv s hand) {a : Action C}
    (hprocs : ∀ w, a.thread = some w → w ∈ procs) (h : Effect th s a t) :
    Trades (∑ w ∈ procs, hand w) (∑ w ∈ procs, a.handAfter s t hand w) (a.executes s hand + a.drops s t hand)
      (a.takesUp s t) ∧ HandInv t (a.handAfter s t hand) := by
  cases a with
  | run w =>
      cases h with
      | @run _ u hu =>
          obtain ⟨-, hu⟩ := Scheduler.step_run_eq_next hu
          obtain ⟨point, hrun⟩ := runStep_eq_next hu
          have hpoint : ({ s with sched := u } : State C).sched.pc w = point := by
            simp only [hrun.pc, Function.update_self]
          obtain ⟨htrades, hself, hother⟩ := run_hands (hprocs w rfl) (hs w) rfl hpoint hrun.next
          refine ⟨htrades, fun v hv => ?_⟩
          by_cases hvw : v = w
          · subst hvw
            exact hself (hpoint ▸ hv)
          · rw [hother v hvw]
            refine hs v ?_
            simpa only [hrun.pc, Function.update_of_ne hvw] using hv
  | _ => exact ⟨.same rfl, hs.frame h nofun⟩

/-! ### The balance -/

/-- Whatever has been brought is held, in some hand, switched to, for a fiber that had finished, or deleted. -/
def Balanced (procs : Finset ThreadId) (s : Tracked C) : Prop :=
  s.accepted = held procs s.base + ∑ w ∈ procs, s.hand w + s.executed + s.finished + s.deleted

/-- What a step takes up goes from the manager into a hand. -/
theorem Trades.balance {accepted before after hands hands' executed finished deleted up more executes drops deletes : Multiset (Work C)}
    (hbefore : accepted = before + hands + executed + finished + deleted) (hheld : Trades before after (up + deletes) more)
    (hhands : Trades hands hands' (executes + drops) up) :
    accepted + more = after + hands' + (executed + executes) + (finished + drops) + (deleted + deletes) := by
  rw [Trades] at hheld hhands
  have hboth : accepted + more + up =
      after + hands' + (executed + executes) + (finished + drops) + (deleted + deletes) + up := by
    calc accepted + more + up = (before + more) + (hands + up) + executed + finished + deleted := by
          rw [hbefore]
          abel
      _ = (after + (up + deletes)) + (hands' + (executes + drops)) + executed + finished + deleted := by
          rw [hheld, hhands]
      _ = after + hands' + (executed + executes) + (finished + drops) + (deleted + deletes) + up := by abel
  exact add_right_cancel hboth

/-- No step loses any work. -/
theorem step_balanced {s t : Tracked C} (htables : TablesInv s.base) (hhand : HandInv s.base s.hand)
    (hs : Balanced procs s) {a : Action C} (hprocs : ∀ w, a.thread = some w → w ∈ procs)
    (h : Tracked.step th s a = .next t) : Balanced procs t ∧ HandInv t.base t.hand := by
  obtain ⟨hstep, ht⟩ := Tracked.step_eq_next h
  have heffect := step_effect hstep
  have hheld := step_held htables hprocs heffect
  obtain ⟨htrades, hinv⟩ := step_hands hhand hprocs heffect
  rw [ht]
  exact ⟨Trades.balance hs hheld htrades, hinv⟩

end Awcotn.Shutdown
