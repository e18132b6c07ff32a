import Awcotn.Foundation.Simulation
import Awcotn.Scheduler.References
import Awcotn.Scheduler.Switching

/-!
# What the thread of a worker goes through

`References.lean` has all workers and knows of a context only whether it has been entered and has ended; `Switching.lean` has one thread and says where each context goes on. Here every run of the first is seen from the thread of one of its workers: what the worker does to fibers is what its thread does, a context switch where the worker enters a fiber or its fiber leaves, and what other workers do to a fiber happens to it elsewhere. So control is transferred on every worker's thread as `Switching.lean` has it, whatever the other workers do.
-/

namespace Awcotn.Threads

open Transition Process
open Scheduler (Pc Fiber FiberState ThreadId writes written createsCb step_run_eq_next step_exit_eq_next runStep_eq_next
  exitStep_eq_next SwapsInAlone Touches)
open References (Context RefInv contextAfter switches)
open Switching (ThreadKind)

variable {C : Type*}

/-- The thread's own fiber and the root fiber come first. -/
def name (f : Scheduler.FiberId) : Switching.FiberId := f + 2

/-- A worker of a scheduler that has no root fiber. -/
def kind : ThreadKind := .worker false

/-- The fiber whose code a worker executes. -/
def runs : Pc C → Option Scheduler.FiberId
  | .running _ f => some f
  | _ => none

/-- The fiber that a worker has put in `EXEC` and not switched to yet. -/
def enters : Pc C → Option Scheduler.FiberId
  | .entering _ f => some f
  | _ => none

/-- The stack that a worker executes on. -/
def stackOf (pc : Pc C) : Switching.Stack :=
  match runs pc with
  | some f => .fiber (name f)
  | none => .thread

/-- A place in the code of a fiber that is not on the thread. -/
def point : Context → Switching.Point
  | .fresh => .entry
  | .entered => .after 0
  | .ended => .last 0

/-- What another worker does to a fiber. -/
def elsewhere (s : References.State C) (a : Scheduler.Action C) : List Switching.Action :=
  match writes s.sched a, switches s.sched a with
  | some (f, state), _ =>
    if f = s.sched.nextFiber then [.newFiber false] else [.elsewhere (name f) state (point (contextAfter s a f))]
  | none, some f => [.elsewhere (name f) (s.sched.fibers f).state (point (contextAfter s a f))]
  | none, none => []

/-- What a step of the worker itself does on its thread. -/
def own (s : References.State C) (w : ThreadId) : Scheduler.Action C → List Switching.Action
  | .run _ =>
    match s.sched.pc w with
    | .picked ft => if createsCb s.sched w ft then [.newFiber false] else []
    | .initing f _ => [.reset (name f)]
    | .entering _ f => [.swapIn (name f)]
    | .hold _ f => [.hold (name f)]
    | _ => []
  | .exit _ how =>
    match s.sched.pc w with
    | .running _ f => [Switching.ofExit (name f) how]
    | _ => []
  | _ => []

/-- What the thread of worker `w` sees of a step. -/
def seen (w : ThreadId) (s : References.State C) : References.Action C → List Switching.Action
  | .sched a => if a.worker = some w then own s w a else elsewhere s a
  | .copy _ | .drop _ => []

/-- What the thread relies on beyond `SwapsIn`: the callback fiber is reset where the assertion of `reset` still holds, and idle functions do not yield to `READY`. -/
def settles (s : References.State C) : References.Action C → Bool
  | .sched (.run w) =>
    match s.sched.pc w with
    | .initing f _ => (s.sched.fibers f).state.resettable
    | _ => true
  | .sched (.exit w .yieldToReady) =>
    match s.sched.pc w with
    | .running .idle _ => false
    | _ => true
  | _ => true

/-- A fiber is swapped in, or reused for a new callback, only while no other worker is concerned with it, and the step `settles`. -/
def Allowed (s : References.State C) (a : References.Action C) : Prop := References.SwapsIn s a ∧ settles s a = true

/-! ### The states that workers find -/

/-- What is known of the state of a fiber where a worker is concerned with it. -/
def Finds (state : Scheduler.FiberId → FiberState) : Pc C → Prop
  | .entering _ f | .running _ f => state f = .EXEC
  | .leaving .idle f | .returned .idle f | .counted .idle f => state f ≠ .READY
  | .requeue _ f => state f = .READY
  | .hold _ f => state f ≠ .READY ∧ (state f).dead = false
  | _ => True

/-- A fiber in `EXEC` is with a worker. -/
structure Execs (s : Scheduler.State C) : Prop where
  exec : ∀ f, (s.fibers f).state = .EXEC → ∃ w, (s.pc w).concern = some f
  finds : ∀ w, Finds (fun f => (s.fibers f).state) (s.pc w)

theorem execs_start (workers : Finset ThreadId) (idleCb : C) : Execs (Scheduler.start workers idleCb) where
  exec := fun _ h => by cases h
  finds := fun _ => trivial

theorem finds_congr {state state' : Scheduler.FiberId → FiberState} {pc : Pc C}
    (h : ∀ f, pc.concern = some f → state' f = state f) (hfinds : Finds state pc) : Finds state' pc := by
  cases pc with
  | entering k f | running k f | requeue k f | hold k f =>
      simp only [Finds] at hfinds ⊢
      rwa [h f rfl]
  | leaving k f | returned k f | counted k f =>
      cases k with
      | idle =>
          simp only [Finds] at hfinds ⊢
          rwa [h f rfl]
      | fiber | cb => trivial
  | _ => trivial

section

variable {workers : Finset ThreadId} {s t : References.State C} {sched : Scheduler.State C} {w : ThreadId}
  {f : Scheduler.FiberId}

/-- A worker is concerned with a fiber in `EXEC` until it writes its state. -/
theorem next_concern {before after : Pc C} (h : Scheduler.Next s.sched w before after) (hf : before.concern = some f)
    (hstate : (s.sched.fibers f).state = .EXEC) : after.concern = some f ∨
      (∃ k, before = .hold k f ∨ before = .requeue k f) ∨ before = .initing f none := by
  cases h with
  | read k g =>
      obtain rfl : g = f := Option.some.inj hf
      left
      cases k <;> simp [Scheduler.bookkeeping, hstate, FiberState.dead, Pc.concern]
  | requeued k g | held k g hk =>
      obtain rfl : g = f := Option.some.inj hf
      exact .inr (.inl ⟨k, by simp⟩)
  | heldIdle g =>
      obtain rfl : g = f := Option.some.inj hf
      exact .inr (.inl ⟨.idle, by simp⟩)
  | cleared g =>
      obtain rfl : g = f := Option.some.inj hf
      exact .inr (.inr rfl)
  | reset g cb => cases cb <;> exact .inl hf
  | enter k g | back k g hk | backIdle g | count k g => exact .inl hf
  | _ => cases hf

/-- `run` reads the state and goes on accordingly. -/
theorem finds_bookkeeping {state : Scheduler.FiberId → FiberState} {k : Scheduler.Kind} (h : k = .idle → state f ≠ .READY) :
    Finds state (Scheduler.bookkeeping k f (state f) : Pc C) := by
  cases k with
  | idle =>
      simp only [Scheduler.bookkeeping]
      split_ifs with hdead
      · trivial
      · exact ⟨h rfl, by simpa using hdead⟩
  | fiber | cb =>
      simp only [Scheduler.bookkeeping]
      split_ifs with hready hdead
      · exact hready
      · trivial
      · exact ⟨hready, by simpa using hdead⟩

theorem finds_run (hexecs : Execs s.sched) (h : Scheduler.runStep s.sched w = .next sched) :
    Finds (fun f => (sched.fibers f).state) (sched.pc w) := by
  have hbefore := hexecs.finds w
  have hstate := Scheduler.runStep_state h
  obtain ⟨after, hrun⟩ := runStep_eq_next h
  rw [hrun.pc, Function.update_self]
  have hnext := hrun.next
  have hkept : writes s.sched (.run w) = none → ∀ f, (sched.fibers f).state = (s.sched.fibers f).state := by
    intro hwrites f
    rw [hstate, hwrites]
    rfl
  generalize hpc : s.sched.pc w = before at hnext hbefore
  cases hnext with
  | exec k f =>
      show (sched.fibers f).state = .EXEC
      rw [hstate]
      simp [writes, hpc, written]
  | enter k f =>
      exact (hkept (by simp [writes, hpc]) f).trans hbefore
  | backIdle f =>
      show (sched.fibers f).state ≠ .READY
      rw [hkept (by simp [writes, hpc])]
      exact hbefore
  | count k f =>
      cases k with
      | idle =>
          show (sched.fibers f).state ≠ .READY
          rw [hkept (by simp [writes, hpc])]
          exact hbefore
      | fiber | cb => trivial
  | read k f =>
      have hsame := hkept (by simp [writes, hpc])
      rw [← hsame f]
      refine finds_bookkeeping fun hk => ?_
      subst hk
      exact (hsame f).symm ▸ hbefore
  | back k f hk =>
      cases k with
      | idle => exact absurd rfl hk
      | fiber | cb => trivial
  | _ => trivial

/-- Idle functions leave their fiber in another state than `READY`. -/
theorem finds_exit (hexecs : Execs s.sched) {how : Scheduler.Exit}
    (hidle : how = .yieldToReady → ∀ f, s.sched.pc w ≠ .running .idle f)
    (h : Scheduler.exitStep s.sched w how = .next sched) : Finds (fun f => (sched.fibers f).state) (sched.pc w) := by
  have hstate := Scheduler.exitStep_state h
  obtain ⟨k, f, hpc, hgoto, -⟩ := exitStep_eq_next h
  have hbefore := hexecs.finds w
  rw [hpc] at hbefore
  rw [hgoto, Function.update_self]
  cases k with
  | idle =>
      show (sched.fibers f).state ≠ .READY
      rw [hstate]
      cases how with
      | yieldToReady => exact absurd hpc (hidle rfl f)
      | swapOut =>
          have hexec : (s.sched.fibers f).state = .EXEC := hbefore
          simp [writes, hpc, Scheduler.Exit.state, written, hexec]
      | yieldToHold | finish | throw => simp [writes, hpc, Scheduler.Exit.state, written]
  | fiber | cb => trivial

theorem execs_step (hs : RefInv workers s) (hexecs : Execs s.sched) {a : Scheduler.Action C} (ha : SwapsInAlone s.sched a)
    (hidle : ∀ w, a = .exit w .yieldToReady → ∀ f, s.sched.pc w ≠ .running .idle f)
    (h : Scheduler.step workers s.sched a = .next sched) : Execs sched where
  exec f hf := by
    rw [Scheduler.step_state h] at hf
    rcases Scheduler.written_eq hf with hbefore | hwrites
    · obtain ⟨v, hv⟩ := hexecs.exec f hbefore
      refine ⟨v, ?_⟩
      by_cases hworker : a.worker = some v
      · have hnot : ∀ state, writes s.sched a = some (f, state) → state = .EXEC := by
          intro state hwrites
          rw [hwrites] at hf
          simpa [written] using hf
        cases a with
        | run u =>
            obtain rfl : u = v := Option.some.inj hworker
            obtain ⟨-, hrunStep⟩ := step_run_eq_next h
            obtain ⟨after, hrun⟩ := runStep_eq_next hrunStep
            rw [hrun.pc, Function.update_self]
            rcases next_concern hrun.next hv hbefore with hafter | ⟨k, hpc | hpc⟩ | hpc
            · exact hafter
            · cases hnot .HOLD (by simp [writes, hpc])
            · have hready := hexecs.finds u
              rw [hpc] at hready
              rw [show (s.sched.fibers f).state = .READY from hready] at hbefore
              cases hbefore
            · cases hnot .INIT (by simp [writes, hpc])
        | exit u how =>
            obtain rfl : u = v := Option.some.inj hworker
            obtain ⟨-, hexit⟩ := step_exit_eq_next h
            obtain ⟨k, g, hpc, hgoto, -⟩ := exitStep_eq_next hexit
            rw [hpc] at hv
            rw [hgoto, Function.update_self]
            exact hv
        | _ => cases hworker
      · rw [(hs.others ha h hworker).1]
        exact hv
    · cases a with
      | run v =>
          rcases Scheduler.writes_run hwrites with heq | ⟨-, k, hpc⟩ | ⟨heq, -⟩
          · cases heq
          · obtain ⟨-, hrunStep⟩ := step_run_eq_next h
            rw [Scheduler.runStep, hpc] at hrunStep
            cases hrunStep
            exact ⟨v, by simp [Scheduler.State.goto, Pc.concern]⟩
          · cases heq
      | exit v how =>
          simp only [writes] at hwrites
          split at hwrites
          · obtain ⟨state, hhow, hpair⟩ := Option.map_eq_some_iff.1 hwrites
            obtain ⟨-, rfl⟩ := Prod.mk.inj hpair
            cases how <;> cases hhow
          · cases hwrites
      | _ => cases hwrites
  finds v := by
    by_cases hworker : a.worker = some v
    · cases a with
      | run u =>
          obtain rfl : u = v := Option.some.inj hworker
          exact finds_run hexecs (step_run_eq_next h).2
      | exit u how =>
          obtain rfl : u = v := Option.some.inj hworker
          exact finds_exit hexecs (fun hhow => hidle u (by rw [hhow])) (step_exit_eq_next h).2
      | _ => cases hworker
    · obtain ⟨hsame, hkept⟩ := hs.others ha h hworker
      rw [hsame]
      exact finds_congr (fun f hf => (hkept f hf).2) (hexecs.finds v)

end

/-! ### The thread against the worker -/

/-- A context stands where the code of the fiber does. -/
def Matches : Context → Switching.Point → Prop
  | .fresh, .entry | .entered, .after _ | .ended, .last _ => True
  | _, _ => False

theorem matches_point (c : Context) : Matches c (point c) := by
  cases c <;> trivial

/-- The thread executes the code that its worker does, and it has the fibers as the workers left them, except that it does not tell the write of `EXEC` from the switch behind it and knows nothing of the context of the fiber that it executes. -/
structure Shows (w : ThreadId) (s : References.State C) (u : Switching.State) : Prop where
  inv : Switching.Inv kind u
  nextFiber : u.nextFiber = name s.sched.nextFiber
  here : u.here.stack = stackOf (s.sched.pc w)
  state : ∀ f, f < s.sched.nextFiber → enters (s.sched.pc w) ≠ some f →
    (u.fibers (name f)).m_state = (s.sched.fibers f).state
  unentered : ∀ f, enters (s.sched.pc w) = some f → (u.fibers (name f)).m_state ≠ .EXEC
  context : ∀ f, f < s.sched.nextFiber → runs (s.sched.pc w) ≠ some f →
    Matches (s.context f) (u.fibers (name f)).m_ctx.point
  use_caller : ∀ f, f < s.sched.nextFiber → (u.fibers (name f)).use_caller = false

/-- A step on the thread that leaves one fiber in a state and with a context of some kind, and every other as it was. -/
structure Effect (u v : Switching.State) (f : Scheduler.FiberId) (state : FiberState) (at_ : Switching.Point) : Prop where
  state : ∀ g, (v.fibers (name g)).m_state = if g = f then state else (u.fibers (name g)).m_state
  point : ∀ g, (v.fibers (name g)).m_ctx.point = if g = f then at_ else (u.fibers (name g)).m_ctx.point
  use_caller : ∀ g, (v.fibers (name g)).use_caller = if g = f then false else (u.fibers (name g)).use_caller

theorem name_injective {f g : Scheduler.FiberId} : name f = name g ↔ f = g := Nat.add_right_cancel_iff

theorem name_ne_main (f : Scheduler.FiberId) : name f ≠ Switching.main := Nat.succ_ne_zero _

theorem name_ne_root (f : Scheduler.FiberId) : name f ≠ Switching.root := fun h => Nat.succ_ne_zero f (Nat.succ.inj h)

section

variable {workers : Finset ThreadId} {s t : References.State C} {w : ThreadId} {f : Scheduler.FiberId}
  {u v : Switching.State} {state : FiberState} {at_ : Switching.Point}

/-- A step of which the thread sees nothing. -/
theorem Shows.unseen (hs : Shows w s u) (hnext : t.sched.nextFiber = s.sched.nextFiber)
    (hstack : stackOf (t.sched.pc w) = stackOf (s.sched.pc w)) (henters : enters (t.sched.pc w) = enters (s.sched.pc w))
    (hruns : runs (t.sched.pc w) = runs (s.sched.pc w))
    (hstate : ∀ f, (t.sched.fibers f).state = (s.sched.fibers f).state) (hcontext : t.context = s.context) : Shows w t u where
  inv := hs.inv
  nextFiber := by rw [hs.nextFiber, hnext]
  here := by rw [hs.here, hstack]
  state f hf hnot := by
    rw [hstate]
    exact hs.state f (hnext ▸ hf) (henters ▸ hnot)
  unentered f hf := hs.unentered f (henters ▸ hf)
  context f hf hnot := by
    rw [hcontext]
    exact hs.context f (hnext ▸ hf) (hruns ▸ hnot)
  use_caller f hf := hs.use_caller f (hnext ▸ hf)

/-- A step that concerns one fiber: the thread and the workers leave it in the same state and with the same context, and the others as they were. -/
theorem Shows.effect (hs : Shows w s u) (hinv : Switching.Inv kind v) (heffect : Effect u v f state at_)
    (hnext : v.nextFiber = name t.sched.nextFiber) (hhere : v.here.stack = stackOf (t.sched.pc w))
    (hcreated : ∀ g, g ≠ f → g < t.sched.nextFiber → g < s.sched.nextFiber)
    (hstate : ∀ g, g ≠ f → (t.sched.fibers g).state = (s.sched.fibers g).state)
    (hcontext : ∀ g, g ≠ f → t.context g = s.context g)
    (henters : ∀ g, g ≠ f → (enters (t.sched.pc w) = some g ↔ enters (s.sched.pc w) = some g))
    (hruns : ∀ g, g ≠ f → runs (s.sched.pc w) = some g → runs (t.sched.pc w) = some g)
    (hleft : enters (t.sched.pc w) ≠ some f → state = (t.sched.fibers f).state)
    (hentering : enters (t.sched.pc w) = some f → state ≠ .EXEC)
    (hpoint : runs (t.sched.pc w) ≠ some f → Matches (t.context f) at_) : Shows w t v where
  inv := hinv
  nextFiber := hnext
  here := hhere
  state g hg hnot := by
    rw [heffect.state]
    split_ifs with hgf
    · subst hgf
      exact hleft hnot
    · rw [hstate g hgf]
      exact hs.state g (hcreated g hgf hg) fun henter => hnot ((henters g hgf).2 henter)
  unentered g hg := by
    rw [heffect.state]
    split_ifs with hgf
    · subst hgf
      exact hentering hg
    · exact hs.unentered g ((henters g hgf).1 hg)
  context g hg hnot := by
    rw [heffect.point]
    split_ifs with hgf
    · subst hgf
      exact hpoint hnot
    · rw [hcontext g hgf]
      exact hs.context g (hcreated g hgf hg) fun hrun => hnot (hruns g hgf hrun)
  use_caller g hg := by
    rw [heffect.use_caller]
    split_ifs with hgf
    · rfl
    · exact hs.use_caller g (hcreated g hgf hg)

/-- A step that concerns one fiber, and none that the worker executes or enters. -/
theorem Shows.quiet (hs : Shows w s u) (hinv : Switching.Inv kind v) (heffect : Effect u v f state at_)
    (hnext : v.nextFiber = name t.sched.nextFiber) (hhere : v.here = u.here)
    (hcreated : ∀ g, g ≠ f → g < t.sched.nextFiber → g < s.sched.nextFiber)
    (hothers : ∀ g, g ≠ f → (t.sched.fibers g).state = (s.sched.fibers g).state ∧ t.context g = s.context g)
    (hsame : runs (t.sched.pc w) = runs (s.sched.pc w) ∧ enters (t.sched.pc w) = enters (s.sched.pc w))
    (hfree : runs (s.sched.pc w) ≠ some f ∧ enters (s.sched.pc w) ≠ some f)
    (hleft : state = (t.sched.fibers f).state) (hpoint : Matches (t.context f) at_) : Shows w t v := by
  refine hs.effect hinv heffect hnext ?_ hcreated (fun g hg => (hothers g hg).1) (fun g hg => (hothers g hg).2)
    (fun g _ => by rw [hsame.2]) (fun g _ hg => by rw [hsame.1, hg]) (fun _ => hleft) (fun hentering => ?_) fun _ => hpoint
  · rw [hhere, hs.here, stackOf, stackOf, hsame.1]
  · exact absurd (hsame.2 ▸ hentering) hfree.2

end

/-! ### The steps of the thread -/

section

variable {s : References.State C} {w : ThreadId} {f : Scheduler.FiberId} {u : Switching.State}

theorem Shows.names (hs : Shows w s u) (hf : f < s.sched.nextFiber) : u.names (name f) :=
  ⟨name_ne_root f, by rw [hs.nextFiber]; exact Nat.add_lt_add_right hf 2⟩

/-- A fiber whose code the thread does not execute is not swapped in on it. -/
theorem Shows.apart (hs : Shows w s u) (hruns : runs (s.sched.pc w) ≠ some f) :
    u.here.stack ≠ .fiber (name f) ∧ u.entered (name f) = none := by
  have hstack : u.here.stack ≠ .fiber (name f) := by
    rw [hs.here, stackOf]
    split
    · rename_i g hg
      intro heq
      rw [name_injective.1 (Switching.Stack.fiber.inj heq)] at hg
      exact hruns hg
    · exact fun h => by cases h
  refine ⟨hstack, ?_⟩
  cases hentered : u.entered (name f) with
  | none => rfl
  | some c => exact absurd (hs.inv.entered (name f) c hentered).1 hstack

/-- Another thread does something to a fiber. -/
theorem Shows.elsewhere (hs : Shows w s u) (hf : f < s.sched.nextFiber) (hruns : runs (s.sched.pc w) ≠ some f)
    {state : FiberState} {at_ : Switching.Point} (hfresh : state = .INIT → at_ = .entry) :
    ∃ v, Switching.step kind u (.elsewhere (name f) state at_) = .next v ∧ Switching.Inv kind v ∧
      Effect u v f state at_ ∧ v.nextFiber = u.nextFiber ∧ v.here = u.here := by
  obtain ⟨hstack, hentered⟩ := hs.apart hruns
  have hcaller : ¬ (kind = .caller ∧ name f = Switching.root) := fun h => name_ne_root f h.2
  have hstep : Switching.step kind u (.elsewhere (name f) state at_) = .next { u with
      fibers := Function.update u.fibers (name f)
        { u.fibers (name f) with m_state := state, m_ctx := ⟨.fiber (name f), at_⟩ } } :=
    if_pos ⟨name_ne_main f, hcaller, (hs.names hf).2, hstack, hentered, hfresh⟩
  refine ⟨_, hstep, (Switching.inv_stays hs.inv rfl hstep).1, ⟨fun g => ?_, fun g => ?_, fun g => ?_⟩, rfl, rfl⟩
  · by_cases hg : g = f <;> simp [hg, name_injective]
  · by_cases hg : g = f <;> simp [hg, name_injective]
  · by_cases hg : g = f
    · subst hg
      simpa using hs.use_caller g hf
    · simp [hg, name_injective]

/-- A fiber is created. -/
theorem Shows.newFiber (hs : Shows w s u) :
    ∃ v, Switching.step kind u (.newFiber false) = .next v ∧ Switching.Inv kind v ∧
      Effect u v s.sched.nextFiber .INIT .entry ∧ v.nextFiber = u.nextFiber + 1 ∧ v.here = u.here := by
  have hnext : u.nextFiber = name s.sched.nextFiber := hs.nextFiber
  have hstep : Switching.step kind u (.newFiber false) = .next { u with
      fibers := Function.update u.fibers u.nextFiber ⟨.INIT, false, ⟨.fiber u.nextFiber, .entry⟩⟩
      nextFiber := u.nextFiber + 1 } := rfl
  refine ⟨_, hstep, (Switching.inv_stays hs.inv rfl hstep).1, ⟨fun g => ?_, fun g => ?_, fun g => ?_⟩, rfl, rfl⟩ <;>
    by_cases hg : g = s.sched.nextFiber <;> simp [hg, hnext, name_injective]

/-- `run` executes on the thread's own stack. -/
theorem Shows.runs_of_thread (hs : Shows w s u) (hruns : runs (s.sched.pc w) = none) : u.runs kind = true := by
  have hstack : u.here.stack = .thread := by rw [hs.here, stackOf, hruns]
  simp [Switching.State.runs, hstack, kind]

theorem Shows.reset (hs : Shows w s u) (hf : f < s.sched.nextFiber) (henters : enters (s.sched.pc w) ≠ some f)
    (hstate : (s.sched.fibers f).state.resettable = true) :
    ∃ v, Switching.step kind u (.reset (name f)) = .next v ∧ Switching.Inv kind v ∧
      Effect u v f .INIT .entry ∧ v.nextFiber = u.nextFiber ∧ v.here = u.here := by
  have hresettable : (u.fibers (name f)).m_state.resettable = true := by rw [hs.state f hf henters, hstate]
  have hreset : Switching.reset u (name f) = .next { u with
      fibers := Function.update u.fibers (name f) ⟨.INIT, false, ⟨.fiber (name f), .entry⟩⟩ } :=
    if_pos ⟨name_ne_main f, hresettable⟩
  have hstep : Switching.step kind u (.reset (name f)) = .next { u with
      fibers := Function.update u.fibers (name f) ⟨.INIT, false, ⟨.fiber (name f), .entry⟩⟩ } :=
    (if_pos (hs.names hf)).trans hreset
  refine ⟨_, hstep, (Switching.inv_stays hs.inv rfl hstep).1, ⟨fun g => ?_, fun g => ?_, fun g => ?_⟩, rfl, rfl⟩ <;>
    by_cases hg : g = f <;> simp [hg, name_injective]

theorem Shows.hold (hs : Shows w s u) (hf : f < s.sched.nextFiber) (hruns : runs (s.sched.pc w) = none)
    (henters : enters (s.sched.pc w) ≠ some f) (hready : (s.sched.fibers f).state ≠ .READY)
    (hlive : (s.sched.fibers f).state.dead = false) :
    ∃ v, Switching.step kind u (.hold (name f)) = .next v ∧ Switching.Inv kind v ∧
      Effect u v f .HOLD (u.fibers (name f)).m_ctx.point ∧ v.nextFiber = u.nextFiber ∧ v.here = u.here := by
  have hstate := hs.state f hf henters
  have hstep : Switching.step kind u (.hold (name f)) = .next (u.setState (name f) .HOLD) :=
    if_pos ⟨hs.runs_of_thread hruns, hs.names hf, name_ne_main f, by rw [hstate]; exact hready, by rw [hstate]; exact hlive⟩
  refine ⟨_, hstep, (Switching.inv_stays hs.inv rfl hstep).1, ⟨fun g => ?_, fun g => ?_, fun g => ?_⟩, rfl, rfl⟩
  · rw [Switching.setState_state]
    simp [name_injective]
  · rw [Switching.setState_ctx]
    split_ifs with hg
    · rw [hg]
    · rfl
  · rw [Switching.setState_use_caller]
    split_ifs with hg
    · rw [hg, hs.use_caller f hf]
    · rfl

/-- The worker swaps a fiber in: its thread switches to the stack of the fiber. -/
theorem Shows.swapIn (hs : Shows w s u) (hf : f < s.sched.nextFiber) (hruns : runs (s.sched.pc w) = none)
    (henters : enters (s.sched.pc w) = some f) (hended : s.context f ≠ .ended) :
    ∃ v, Switching.step kind u (.swapIn (name f)) = .next v ∧ Switching.Inv kind v ∧
      Effect u v f .EXEC (u.fibers (name f)).m_ctx.point ∧ v.nextFiber = u.nextFiber ∧
      v.here.stack = .fiber (name f) := by
  have hexec := hs.unentered f henters
  have hrunning := hs.runs_of_thread hruns
  have hscheduler : u.t_scheduler_fiber = Switching.main := hs.inv.scheduler
  have hsched : u.t_scheduler_fiber ≠ name f := by
    rw [hscheduler]
    exact (name_ne_main f).symm
  have hlive : ((u.setState (name f) .EXEC).fibers (name f)).m_ctx.Live := by
    rw [Switching.setState_ctx]
    intro n hlast
    have hmatches := hs.context f hf (by rw [hruns]; exact fun h => by cases h)
    rw [hlast] at hmatches
    cases hcontext : s.context f <;> simp_all [Matches]
  obtain ⟨v, hnext, hjump⟩ := Switching.swapcontext_jump { u.setState (name f) .EXEC with
      t_fiber := name f, entered := Function.update u.entered (name f) (some ⟨u.here.stack, .after u.switches⟩) }
    u.t_scheduler_fiber (name f) .after hsched hlive
  have hturn : Switching.Turn u v (name f) .EXEC u.t_scheduler_fiber (name f) ⟨u.here.stack, .after u.switches⟩ :=
    hjump.turn rfl rfl rfl rfl
  have hswap : Switching.swapIn u (name f) = .next v := by
    rw [← hnext]
    simp only [Switching.swapIn, if_neg hexec]
    rfl
  have hstep : Switching.step kind u (.swapIn (name f)) = .next v := (if_pos ⟨hrunning, hs.names hf⟩).trans hswap
  refine ⟨v, hstep, Switching.inv_swapIn hs.inv hrunning (hs.names hf) hswap, ⟨fun g => ?_, fun g => ?_, fun g => ?_⟩,
    hturn.nextFiber, by rw [hturn.here, hs.inv.own _ (name_ne_main f)]⟩
  · rw [hturn.state]
    simp [name_injective]
  · rw [hturn.ctx, hscheduler, if_neg (name_ne_main g)]
    split_ifs with hg
    · rw [hg]
    · rfl
  · rw [hturn.use_caller]
    split_ifs with hg
    · rw [hg, hs.use_caller f hf]
    · rfl

/-- The fiber that the thread executes leaves: the thread goes back to its own stack. -/
theorem Shows.swapOut (hs : Shows w s u) (hruns : runs (s.sched.pc w) = some f) (state : FiberState)
    (at_ : ℕ → Switching.Point) :
    ∃ v, Switching.swapOut (u.setState (name f) state) (name f) at_ = .next v ∧ Switching.Inv kind v ∧
      (∀ g, (v.fibers (name g)).m_state = if g = f then state else (u.fibers (name g)).m_state) ∧
      (∀ g, (v.fibers (name g)).m_ctx.point = if g = f then at_ u.switches else (u.fibers (name g)).m_ctx.point) ∧
      (∀ g, (v.fibers (name g)).use_caller = (u.fibers (name g)).use_caller) ∧
      v.nextFiber = u.nextFiber ∧ v.here.stack = .thread := by
  have hhere : u.here.stack = .fiber (name f) := by rw [hs.here, stackOf, hruns]
  obtain ⟨v, c, hc, hnext, hback, hinv, -, hstate⟩ := Switching.inv_swapOut hs.inv hhere (name_ne_root f) state at_
  obtain ⟨-, -, -, hthread, -⟩ := hs.inv.entered _ c hc
  have hsched : u.t_scheduler_fiber = Switching.main := hs.inv.scheduler
  have hne : name f ≠ (u.setState (name f) state).t_scheduler_fiber := fun heq => name_ne_main f (heq.trans hsched)
  have hjump := Switching.jump_of_next hne hnext
  refine ⟨v, hnext, hinv, fun g => by rw [hstate]; simp [name_injective], fun g => ?_, fun g => ?_, hjump.nextFiber, ?_⟩
  · rw [hjump.ctx]
    simp only [name_injective]
    split_ifs with hg
    · rfl
    · exact congrArg Switching.Context.point (Switching.setState_ctx u (name f) (name g) state)
  · rw [hjump.use_caller]
    exact Switching.setState_use_caller u (name f) (name g) state
  · rw [hback]
    exact hthread

/-- The state that fiber code leaves, where it writes one. -/
def leavesIn (how : Scheduler.Exit) (state : FiberState) : FiberState := how.state.getD state

/-- Where the code of a fiber that has left stands. -/
def leavesAt (how : Scheduler.Exit) (switch : ℕ) : Switching.Point :=
  match how with
  | .finish | .throw => .last switch
  | _ => .after switch

/-- The code of the fiber that the thread executes leaves it, as it should. -/
theorem Shows.exit (hs : Shows w s u) (hruns : runs (s.sched.pc w) = some f) (hf : f < s.sched.nextFiber)
    (how : Scheduler.Exit) :
    Switching.Disciplined kind u (Switching.ofExit (name f) how) ∧
      ∃ v, Switching.step kind u (Switching.ofExit (name f) how) = .next v ∧ Switching.Inv kind v ∧
        Effect u v f (leavesIn how (u.fibers (name f)).m_state) (leavesAt how u.switches) ∧
        v.nextFiber = u.nextFiber ∧ v.here.stack = .thread := by
  have hhere : u.here.stack = .fiber (name f) := by rw [hs.here, stackOf, hruns]
  have hprograms := (Switching.programs_fiber kind hhere).2 (name_ne_root f)
  have hthis : u.t_fiber = name f := by rw [hs.inv.this, Switching.State.executing, hhere]
  have hcaller := hs.use_caller f hf
  have hstep : Switching.step kind u (Switching.ofExit (name f) how) =
      Switching.swapOut (u.setState (name f) (leavesIn how (u.fibers (name f)).m_state)) (name f) (leavesAt how) := by
    cases how with
    | yieldToHold =>
        simp [Switching.ofExit, Switching.step, hprograms, Switching.YieldToHold, hthis, leavesIn, Scheduler.Exit.state]
        rfl
    | yieldToReady =>
        simp [Switching.ofExit, Switching.step, hprograms, Switching.YieldToReady, hthis, leavesIn, Scheduler.Exit.state]
        rfl
    | finish | throw =>
        simp [Switching.ofExit, Switching.step, Switching.ends, hhere, hprograms, Switching.MainFunc, hcaller, leavesIn,
          Scheduler.Exit.state]
        rfl
    | swapOut =>
        simp [Switching.ofExit, Switching.step, hprograms, hs.names hf, Switching.State.setState, leavesIn, Scheduler.Exit.state]
        rfl
  obtain ⟨v, hnext, hinv, hstate, hpoint, hcallers, hfibers, hthread⟩ := hs.swapOut hruns (leavesIn how (u.fibers (name f)).m_state)
    (leavesAt how)
  refine ⟨?_, v, hstep.trans hnext, hinv, ⟨hstate, hpoint, fun g => ?_⟩, hfibers, hthread⟩
  · cases how with
    | yieldToHold | yieldToReady => exact fun _ => by rw [hhere]; exact fun h => by cases h
    | finish | throw =>
        intro g hg _
        rw [hhere] at hg
        rw [← Switching.Stack.fiber.inj hg, hcaller]
    | swapOut => exact fun _ _ => hhere
  · rw [hcallers]
    split_ifs with hg
    · rw [hg, hcaller]
    · rfl

end

end Awcotn.Threads
