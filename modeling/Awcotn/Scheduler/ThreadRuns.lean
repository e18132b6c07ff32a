import Awcotn.Scheduler.Threads

/-!
# Runs on the thread of a worker

Each step of the workers is matched on the thread of one of them: what another worker does to a fiber happens elsewhere, and what the worker does itself is seen where it enters a fiber, where the fiber leaves, and where it creates, resets or holds one. So a whole run is matched, and it keeps the discipline of `Switching.lean`.
-/

namespace Awcotn.Threads

open Transition Process
open Scheduler (Pc Fiber FiberState ThreadId writes written createsCb step_run_eq_next step_exit_eq_next runStep_eq_next
  exitStep_eq_next SwapsInAlone Touches)
open References (Context RefInv contextAfter switches)
open Switching (ThreadKind)

variable {C : Type*}

/-! ### Every step -/

section

variable {workers : Finset ThreadId} {s t : References.State C} {sched : Scheduler.State C} {w : ThreadId}
  {f : Scheduler.FiberId} {u : Switching.State} {a : Scheduler.Action C}

theorem branch_nextFiber (s : Scheduler.State C) (w : ThreadId) (ft : Scheduler.FiberAndThread C) :
    (Scheduler.branch s w ft).nextFiber = if createsCb s w ft then s.nextFiber + 1 else s.nextFiber := by
  simp only [Scheduler.branch]
  split
  · rename_i g hg
    simp [createsCb, hg, Scheduler.State.goto]
  · rename_i hnone
    split
    · rename_i c hc
      split
      · rename_i g hg
        simp [createsCb, hg, Scheduler.State.goto]
      · rename_i hcbFiber
        simp [createsCb, hnone, hc, hcbFiber, Scheduler.State.goto, Scheduler.State.setCbFiber, Scheduler.State.setFiber]
    · rename_i hc
      simp [createsCb, hc, Scheduler.State.goto]

/-- `run` creates a fiber only for a callback. -/
theorem runStep_nextFiber {s t : Scheduler.State C} (h : Scheduler.runStep s w = .next t) :
    t.nextFiber = match s.pc w with
      | .picked ft => if createsCb s w ft then s.nextFiber + 1 else s.nextFiber
      | _ => s.nextFiber := by
  simp only [Scheduler.runStep] at h
  cases hpc : s.pc w with
  | head =>
      rw [hpc] at h
      dsimp only at h
      split at h <;> cases h <;> rfl
  | picked ft =>
      rw [hpc] at h
      cases h
      exact branch_nextFiber s w ft
  | noTask | resetting g cb | swapIn k g =>
      rw [hpc] at h
      dsimp only at h
      split at h <;> cases h <;> rfl
  | requeue k g | hold k g =>
      rw [hpc] at h
      cases h
      by_cases hk : k = .cb <;>
        simp [hk, Scheduler.State.goto, Scheduler.State.setCbFiber, Scheduler.State.setState, Scheduler.schedule_eq]
  | running k g | exited =>
      rw [hpc] at h
      cases h
  | initing g cb | checked k g | entering k g | leaving k g | returned k g | counted k g | idleDone =>
      rw [hpc] at h
      cases h
      rfl

/-- A fiber whose state a step writes is new, or it exists and no other worker is concerned with it. -/
theorem writes_cases (hs : RefInv workers s) (ha : SwapsInAlone s.sched a)
    (h : Scheduler.step workers s.sched a = .next sched) {state : FiberState} (hwrites : writes s.sched a = some (f, state)) :
    (f = s.sched.nextFiber ∧ state = .INIT ∧ sched.nextFiber = s.sched.nextFiber + 1) ∨
      (f < s.sched.nextFiber ∧ sched.nextFiber = s.sched.nextFiber ∧
        ∀ w, a.worker ≠ some w → (s.sched.pc w).concern ≠ some f) := by
  have hother : (∃ v, Touches s.sched a v f) → ∀ w, a.worker ≠ some w → (s.sched.pc w).concern ≠ some f := by
    rintro ⟨v, htouches⟩ w hworker hconcern
    refine hs.untouched ha hconcern (fun how => ⟨?_, ?_⟩) v htouches
    · rintro rfl
      exact hworker rfl
    · rintro rfl
      exact hworker rfl
  cases a with
  | newFiber cb =>
      cases h
      cases hwrites
      exact .inl ⟨rfl, rfl, rfl⟩
  | exit v how =>
      right
      obtain ⟨-, hexit⟩ := step_exit_eq_next h
      obtain ⟨k, g, hpc, -, -, hnext, -⟩ := exitStep_eq_next hexit
      have hfg : f = g := by
        simp only [writes, hpc] at hwrites
        obtain ⟨state', -, hpair⟩ := Option.map_eq_some_iff.1 hwrites
        exact (Prod.mk.inj hpair).1.symm
      subst hfg
      exact ⟨hs.known.at (w := v) (Scheduler.at_of_inside (by rw [hpc]; rfl)), hnext, hother ⟨v, rfl, k, hpc⟩⟩
  | run v =>
      obtain ⟨-, hrunStep⟩ := step_run_eq_next h
      have hnext := runStep_nextFiber hrunStep
      simp only [writes] at hwrites
      cases hpc : s.sched.pc v with
      | picked ft =>
          rw [hpc] at hwrites hnext
          dsimp only at hwrites hnext
          split_ifs at hwrites with hcreates
          rw [if_pos hcreates] at hnext
          cases hwrites
          exact .inl ⟨rfl, rfl, hnext⟩
      | initing g cb =>
          rw [hpc] at hwrites hnext
          cases hwrites
          exact .inr ⟨hs.known.at (w := v) (.inr (.inl (by rw [hpc]; rfl))), hnext, hother ⟨v, rfl, by rw [hpc]; rfl⟩⟩
      | checked k g =>
          rw [hpc] at hwrites hnext
          cases hwrites
          have hat : Scheduler.At (s.sched.pc v) f := by
            rw [hpc]
            cases k
            · exact .inl rfl
            · exact .inr (.inl rfl)
            · exact .inr (.inr rfl)
          exact .inr ⟨hs.known.at hat, hnext, hother ⟨v, rfl, by rw [hpc]; rfl⟩⟩
      | hold k g =>
          rw [hpc] at hwrites hnext
          cases hwrites
          exact .inr ⟨hs.known.at (w := v) (References.at_of_concern (by rw [hpc]; rfl)), hnext,
            hother ⟨v, rfl, by rw [hpc]; rfl⟩⟩
      | _ =>
          rw [hpc] at hwrites
          cases hwrites
  | schedule ft | register v | trigger i => cases hwrites

/-- A step that writes no state creates no fiber. -/
theorem nextFiber_of_notWritten (h : Scheduler.step workers s.sched a = .next sched) (hwrites : writes s.sched a = none) :
    sched.nextFiber = s.sched.nextFiber := by
  cases a with
  | newFiber cb => cases hwrites
  | exit v how =>
      obtain ⟨-, hexit⟩ := step_exit_eq_next h
      obtain ⟨-, -, -, -, -, hnext, -⟩ := exitStep_eq_next hexit
      exact hnext
  | run v =>
      obtain ⟨-, hrunStep⟩ := step_run_eq_next h
      have hnext := runStep_nextFiber hrunStep
      simp only [writes] at hwrites
      split at hnext
      · rename_i ft hpc
        rw [hpc] at hwrites
        dsimp only at hwrites
        split_ifs at hwrites with hcreates
        rw [hnext, if_neg hcreates]
      · exact hnext
  | schedule ft | register v | trigger i =>
      simp only [Scheduler.step] at h
      split at h <;> cases h
      simp

theorem ne_of_concern {pc : Pc C} (h : pc.concern ≠ some f) : runs pc ≠ some f ∧ enters pc ≠ some f := by
  constructor
  · intro hruns
    cases pc <;> simp_all [runs, Pc.concern]
  · intro henters
    cases pc <;> simp_all [enters, Pc.concern]

/-- The state of a fiber that a step does not write. -/
theorem state_of_ne (h : Scheduler.step workers s.sched a = .next sched) {g : Scheduler.FiberId}
    (hne : ∀ state, writes s.sched a ≠ some (g, state)) : (sched.fibers g).state = (s.sched.fibers g).state := by
  rw [Scheduler.step_state h]
  rcases Scheduler.written_eq (rfl : written (writes s.sched a) g (s.sched.fibers g).state = _) with hsame | hwrites
  · exact hsame.symm
  · exact absurd hwrites (hne _)

/-- The context of a fiber that a step does not write and does not switch to. -/
theorem context_of_ne {g : Scheduler.FiberId} (hne : ∀ state, writes s.sched a ≠ some (g, state))
    (hswitches : switches s.sched a ≠ some g) : contextAfter s a g = s.context g := by
  rcases References.contextAfter_of_notWritten hne with hsame | ⟨heq, -⟩
  · exact hsame
  · exact absurd heq hswitches

theorem switches_of_writes {sched : Scheduler.State C} {write : Scheduler.FiberId × FiberState}
    (hwrites : writes sched a = some write) : switches sched a = none := by
  cases hswitches : switches sched a with
  | none => rfl
  | some g =>
      obtain ⟨v, k, rfl, hpc⟩ := References.switches_eq hswitches
      simp [writes, hpc] at hwrites

/-- Every other fiber is left as it was. -/
theorem others_of_writes (h : Scheduler.step workers s.sched a = .next sched) {state : FiberState}
    (hwrites : writes s.sched a = some (f, state)) {g : Scheduler.FiberId} (hg : g ≠ f) :
    (sched.fibers g).state = (s.sched.fibers g).state ∧ contextAfter s a g = s.context g := by
  have hne : ∀ state', writes s.sched a ≠ some (g, state') := by
    intro state' heq
    rw [hwrites] at heq
    exact hg (Prod.mk.inj (Option.some.inj heq)).1.symm
  exact ⟨state_of_ne h hne, context_of_ne hne (by rw [switches_of_writes hwrites]; exact fun h => by cases h)⟩

/-- The state that is written. -/
theorem state_of_writes (h : Scheduler.step workers s.sched a = .next sched) {state : FiberState}
    (hwrites : writes s.sched a = some (f, state)) : (sched.fibers f).state = state := by
  rw [Scheduler.step_state h, hwrites]
  simp [written]

/-- The thread matches the step by one of its own. -/
theorem Shows.one {b : Switching.Action} {v : Switching.State} (hv : Switching.step kind u b = .next v)
    (hd : Switching.Disciplined kind u b) (hshows : Shows w t v) :
    ∃ v, run (Switching.step kind) u [b] = .next v ∧ Shows w t v ∧
      Along (Switching.step kind) (Switching.Disciplined kind) u [b] :=
  ⟨v, by rw [run_cons_of_next _ hv, run_nil], hshows, along_singleton.2 hd⟩

/-- What another worker does happens elsewhere. -/
theorem shows_elsewhere (hs : RefInv workers s) (hexecs : Execs s.sched) (hshows : Shows w s u) (ha : SwapsInAlone s.sched a)
    (h : Scheduler.step workers s.sched a = .next sched) (hworker : a.worker ≠ some w) (hsched : t.sched = sched)
    (hcontext : t.context = contextAfter s a) :
    ∃ v, run (Switching.step kind) u (elsewhere s a) = .next v ∧ Shows w t v ∧
      Along (Switching.step kind) (Switching.Disciplined kind) u (elsewhere s a) := by
  have hpc : t.sched.pc w = s.sched.pc w := by rw [hsched, (hs.others ha h hworker).1]
  cases hwrites : writes s.sched a with
  | some write =>
      obtain ⟨f, state⟩ := write
      have hstate := state_of_writes h hwrites
      have hothers : ∀ g, g ≠ f → (t.sched.fibers g).state = (s.sched.fibers g).state ∧ t.context g = s.context g := by
        intro g hg
        rw [hsched, hcontext]
        exact others_of_writes h hwrites hg
      rcases writes_cases hs ha h hwrites with ⟨rfl, rfl, hnext⟩ | ⟨hf, hnext, hconcern⟩
      · have hseen : elsewhere s a = [.newFiber false] := by simp [elsewhere, hwrites]
        obtain ⟨v, hv, hinv, heffect, hfibers, hhere⟩ := hshows.newFiber
        have hfresh : ∀ g, enters (s.sched.pc w) = some g ∨ runs (s.sched.pc w) = some g → g < s.sched.nextFiber := by
          intro g hg
          refine hs.known.at (w := w) (References.at_of_concern ?_)
          rcases hg with hg | hg <;> cases hpoint : s.sched.pc w <;> rw [hpoint] at hg <;> simp_all [enters, runs, Pc.concern]
        rw [hseen]
        refine Shows.one hv trivial (hshows.quiet hinv heffect ?_ hhere (fun g hg hlt => ?_) hothers (by rw [hpc]; exact ⟨rfl, rfl⟩)
          ⟨fun hruns => ?_, fun henters => ?_⟩ (by rw [hsched, hstate]) ?_)
        · rw [hfibers, hshows.nextFiber, hsched, hnext]
          rfl
        · rw [hsched, hnext] at hlt
          exact Nat.lt_of_le_of_ne (Nat.le_of_lt_succ hlt) hg
        · exact absurd (hfresh _ (.inr hruns)) (Nat.lt_irrefl _)
        · exact absurd (hfresh _ (.inl henters)) (Nat.lt_irrefl _)
        · rw [hcontext, References.contextAfter_of_writes hwrites]
          trivial
      · have hseen : elsewhere s a = [.elsewhere (name f) state (point (contextAfter s a f))] := by
          simp [elsewhere, hwrites, Nat.ne_of_lt hf]
        obtain ⟨hruns, henters⟩ := ne_of_concern (hconcern w hworker)
        have hfresh : state = .INIT → point (contextAfter s a f) = .entry := by
          rintro rfl
          rw [References.contextAfter_of_writes hwrites]
          rfl
        obtain ⟨v, hv, hinv, heffect, hfibers, hhere⟩ := hshows.elsewhere hf hruns hfresh
        rw [hseen]
        refine Shows.one hv trivial (hshows.quiet hinv heffect ?_ hhere (fun g _ hlt => ?_) hothers (by rw [hpc]; exact ⟨rfl, rfl⟩)
          ⟨hruns, henters⟩ (by rw [hsched, hstate]) ?_)
        · rw [hfibers, hshows.nextFiber, hsched, hnext]
        · rwa [hsched, hnext] at hlt
        · rw [hcontext]
          exact matches_point _
  | none =>
      have hnext := nextFiber_of_notWritten h hwrites
      have hstate : ∀ g, (t.sched.fibers g).state = (s.sched.fibers g).state := fun g => by
        rw [hsched]
        exact state_of_ne h (by rw [hwrites]; exact fun _ h => by cases h)
      cases hswitches : switches s.sched a with
      | some f =>
          obtain ⟨v, k, rfl, hentering⟩ := References.switches_eq hswitches
          have hvw : v ≠ w := by
            rintro rfl
            exact hworker rfl
          have hvconcern : (s.sched.pc v).concern = some f := by rw [hentering]; rfl
          have hconcern : (s.sched.pc w).concern ≠ some f := fun hw => hvw (hs.apart v w f hvconcern hw)
          obtain ⟨hruns, henters⟩ := ne_of_concern hconcern
          have hf := hs.known.at (References.at_of_concern hvconcern)
          have hseen : elsewhere s (.run v) =
              [.elsewhere (name f) (s.sched.fibers f).state (point (contextAfter s (.run v) f))] := by
            simp [elsewhere, hwrites, hswitches]
          have hfresh : (s.sched.fibers f).state = .INIT → point (contextAfter s (.run v) f) = .entry := by
            intro hinit
            have hexec := hexecs.finds v
            rw [hentering] at hexec
            have heq : (s.sched.fibers f).state = .EXEC := hexec
            rw [hinit] at heq
            cases heq
          obtain ⟨x, hx, hinv, heffect, hfibers, hhere⟩ := hshows.elsewhere hf hruns hfresh
          rw [hseen]
          refine Shows.one hx trivial (hshows.quiet hinv heffect ?_ hhere (fun g _ hlt => ?_) (fun g hg => ⟨hstate g, ?_⟩)
            (by rw [hpc]; exact ⟨rfl, rfl⟩) ⟨hruns, henters⟩ (hstate f).symm ?_)
          · rw [hfibers, hshows.nextFiber, hsched, hnext]
          · rwa [hsched, hnext] at hlt
          · rw [hcontext]
            refine context_of_ne (by rw [hwrites]; exact fun _ h => by cases h) ?_
            rw [hswitches]
            exact fun heq => hg (Option.some.inj heq).symm
          · rw [hcontext]
            exact matches_point _
      | none =>
          have hseen : elsewhere s a = [] := by simp [elsewhere, hwrites, hswitches]
          rw [hseen]
          refine ⟨u, rfl, hshows.unseen ?_ ?_ ?_ ?_ hstate ?_, trivial⟩
          · rw [hsched, hnext]
          · rw [hpc]
          · rw [hpc]
          · rw [hpc]
          · rw [hcontext]
            funext g
            exact context_of_ne (by rw [hwrites]; exact fun _ h => by cases h) (by rw [hswitches]; exact fun h => by cases h)

/-- A step of the worker that its thread does not see. -/
theorem shows_unseen (hshows : Shows w s u) (h : Scheduler.runStep s.sched w = .next sched)
    (hsched : t.sched = sched) (hcontext : t.context = contextAfter s (.run w)) (hwrites : writes s.sched (.run w) = none)
    (hswitches : switches s.sched (.run w) = none) (hnext : sched.nextFiber = s.sched.nextFiber)
    (hbefore : runs (s.sched.pc w) = none ∧ enters (s.sched.pc w) = none)
    (hafter : runs (sched.pc w) = none ∧ enters (sched.pc w) = none) : Shows w t u := by
  refine hshows.unseen (by rw [hsched, hnext]) ?_ ?_ ?_ (fun g => ?_) ?_
  · rw [hsched, stackOf, stackOf, hbefore.1, hafter.1]
  · rw [hsched, hbefore.2, hafter.2]
  · rw [hsched, hbefore.1, hafter.1]
  · rw [hsched, Scheduler.runStep_state h, hwrites]
    rfl
  · rw [hcontext]
    funext g
    exact context_of_ne (by rw [hwrites]; exact fun _ h => by cases h) (by rw [hswitches]; exact fun h => by cases h)

/-- Behind a step of `run`, a worker executes or enters a fiber only as it has done before the step, or by it. -/
theorem runs_after {before after : Pc C} (h : Scheduler.Next s.sched w before after) (hentering : enters before = none)
    (hchecked : ∀ k f, before ≠ .checked k f) : runs after = none ∧ enters after = none := by
  cases h with
  | read k g => cases k <;> simp only [Scheduler.bookkeeping] <;> (repeat' split) <;> exact ⟨rfl, rfl⟩
  | enter k g => cases hentering
  | exec k g => exact absurd rfl (hchecked k g)
  | _ => exact ⟨rfl, rfl⟩

/-! ### The steps of `run` -/

/-- The thread goes along with a step of its worker. -/
def Follows (w : ThreadId) (s t : References.State C) (a : Scheduler.Action C) (u : Switching.State) : Prop :=
  ∃ v, run (Switching.step kind) u (own s w a) = .next v ∧ Shows w t v ∧
    Along (Switching.step kind) (Switching.Disciplined kind) u (own s w a)

/-- The worker creates its callback fiber. -/
theorem follows_create (hshows : Shows w s u) (h : Scheduler.step workers s.sched (.run w) = .next sched)
    (hsched : t.sched = sched) (hcontext : t.context = contextAfter s (.run w)) {ft : Scheduler.FiberAndThread C}
    (hpc : s.sched.pc w = .picked ft) (hcreates : createsCb s.sched w ft = true)
    (hafter : runs (sched.pc w) = none ∧ enters (sched.pc w) = none) : Follows w s t (.run w) u := by
  have hwrites : writes s.sched (.run w) = some (s.sched.nextFiber, .INIT) := by simp [writes, hpc, hcreates]
  have hown : own s w (.run w) = [.newFiber false] := by simp [own, hpc, hcreates]
  have hnext := runStep_nextFiber (step_run_eq_next h).2
  rw [hpc] at hnext
  dsimp only at hnext
  rw [if_pos hcreates] at hnext
  obtain ⟨v, hv, hinv, heffect, hfibers, hhere⟩ := hshows.newFiber
  rw [Follows, hown]
  refine Shows.one hv trivial (hshows.quiet hinv heffect ?_ hhere (fun g hg hlt => ?_) (fun g hg => ?_) ?_ ?_ ?_ ?_)
  · rw [hfibers, hshows.nextFiber, hsched, hnext]
    rfl
  · rw [hsched, hnext] at hlt
    exact Nat.lt_of_le_of_ne (Nat.le_of_lt_succ hlt) hg
  · rw [hsched, hcontext]
    exact others_of_writes h hwrites hg
  · rw [hsched, hafter.1, hafter.2, hpc]
    exact ⟨rfl, rfl⟩
  · rw [hpc]
    exact ⟨(fun h => by cases h), (fun h => by cases h)⟩
  · rw [hsched, state_of_writes h hwrites]
  · rw [hcontext, References.contextAfter_of_writes hwrites]
    trivial

/-- The worker resets its callback fiber, or sets a fiber that has come back to `HOLD`. -/
theorem follows_write (hshows : Shows w s u) (h : Scheduler.step workers s.sched (.run w) = .next sched)
    (hsched : t.sched = sched) (hcontext : t.context = contextAfter s (.run w)) {state : FiberState}
    (hwrites : writes s.sched (.run w) = some (f, state)) (hnext : sched.nextFiber = s.sched.nextFiber)
    (hbefore : runs (s.sched.pc w) = none ∧ enters (s.sched.pc w) = none)
    (hafter : runs (sched.pc w) = none ∧ enters (sched.pc w) = none) {b : Switching.Action} (hown : own s w (.run w) = [b])
    {v : Switching.State} {at_ : Switching.Point} (hv : Switching.step kind u b = .next v) (hd : Switching.Disciplined kind u b)
    (hinv : Switching.Inv kind v) (heffect : Effect u v f state at_) (hfibers : v.nextFiber = u.nextFiber)
    (hhere : v.here = u.here) (hpoint : Matches (t.context f) at_) : Follows w s t (.run w) u := by
  rw [Follows, hown]
  refine Shows.one hv hd (hshows.quiet hinv heffect ?_ hhere (fun g _ hlt => ?_) (fun g hg => ?_) ?_ ?_ ?_ hpoint)
  · rw [hfibers, hshows.nextFiber, hsched, hnext]
  · rwa [hsched, hnext] at hlt
  · rw [hsched, hcontext]
    exact others_of_writes h hwrites hg
  · rw [hsched, hafter.1, hafter.2, hbefore.1, hbefore.2]
    exact ⟨rfl, rfl⟩
  · rw [hbefore.1, hbefore.2]
    exact ⟨(fun h => by cases h), (fun h => by cases h)⟩
  · rw [hsched, state_of_writes h hwrites]

/-- The worker writes `EXEC`, which its thread does together with the switch. -/
theorem follows_check (hs : RefInv workers s) (hexecs : Execs s.sched) (hshows : Shows w s u)
    (ha : SwapsInAlone s.sched (.run w)) (h : Scheduler.step workers s.sched (.run w) = .next sched)
    (hsched : t.sched = sched) (hcontext : t.context = contextAfter s (.run w)) {k : Scheduler.Kind}
    (hpc : s.sched.pc w = .checked k f) (hpoint : sched.pc w = .entering k f) : Follows w s t (.run w) u := by
  have hwrites : writes s.sched (.run w) = some (f, .EXEC) := by simp [writes, hpc]
  have hown : own s w (.run w) = [] := by simp [own, hpc]
  have hnext := runStep_nextFiber (step_run_eq_next h).2
  rw [hpc] at hnext
  have hexec : (s.sched.fibers f).state ≠ .EXEC := by
    intro heq
    obtain ⟨v, hv⟩ := hexecs.exec f heq
    have hvw : v ≠ w := by
      rintro rfl
      rw [hpc] at hv
      cases hv
    exact ha f (.inl ⟨k, hpc⟩) v hvw hv
  have hf : f < s.sched.nextFiber := by
    refine hs.known.at (w := w) ?_
    rw [hpc]
    cases k
    · exact .inl rfl
    · exact .inr (.inl rfl)
    · exact .inr (.inr rfl)
  have hsame : (u.fibers (name f)).m_state = (s.sched.fibers f).state := hshows.state f hf (by rw [hpc]; exact fun h => by cases h)
  have heffect : Effect u u f (u.fibers (name f)).m_state (u.fibers (name f)).m_ctx.point := by
    refine ⟨fun g => ?_, fun g => ?_, fun g => ?_⟩ <;> split_ifs with hg
    · rw [hg]
    · rfl
    · rw [hg]
    · rfl
    · rw [hg, hshows.use_caller f hf]
    · rfl
  rw [Follows, hown]
  refine ⟨u, rfl, hshows.effect hshows.inv heffect ?_ ?_ (fun g _ hlt => ?_) (fun g hg => ?_) (fun g hg => ?_) (fun g hg => ?_)
    (fun g _ hg => ?_) (fun hnot => ?_) (fun _ => ?_) (fun _ => ?_), trivial⟩
  · rw [hshows.nextFiber, hsched, hnext]
  · rw [hshows.here, hsched, hpoint, hpc]
    rfl
  · rwa [hsched, hnext] at hlt
  · rw [hsched]
    exact (others_of_writes h hwrites hg).1
  · rw [hcontext]
    exact (others_of_writes h hwrites hg).2
  · rw [hsched, hpoint, hpc]
    exact ⟨fun heq => absurd (Option.some.inj heq).symm hg, (fun h => by cases h)⟩
  · rw [hpc] at hg
    cases hg
  · exact absurd (by rw [hsched, hpoint]; rfl) hnot
  · rw [hsame]
    exact hexec
  · have hkept : t.context f = s.context f := by
      rw [hcontext, References.contextAfter_of_writes hwrites]
      rfl
    rw [hkept]
    exact hshows.context f hf (by rw [hpc]; exact fun h => by cases h)

/-- The worker enters the fiber: its thread swaps it in. -/
theorem follows_enter (hs : RefInv workers s) (hexecs : Execs s.sched) (hshows : Shows w s u)
    (hended : References.resumesEnded s (.run w) = false) (h : Scheduler.step workers s.sched (.run w) = .next sched)
    (hsched : t.sched = sched) (hcontext : t.context = contextAfter s (.run w)) {k : Scheduler.Kind}
    (hpc : s.sched.pc w = .entering k f) (hpoint : sched.pc w = .running k f) : Follows w s t (.run w) u := by
  have hwrites : writes s.sched (.run w) = none := by simp [writes, hpc]
  have hswitches : switches s.sched (.run w) = some f := by simp [switches, hpc]
  have hown : own s w (.run w) = [.swapIn (name f)] := by simp [own, hpc]
  have hnext := runStep_nextFiber (step_run_eq_next h).2
  rw [hpc] at hnext
  have hf : f < s.sched.nextFiber := hs.known.at (w := w) (References.at_of_concern (by rw [hpc]; rfl))
  have hcontextNe : s.context f ≠ .ended := by
    rw [References.resumesEnded, hswitches] at hended
    simpa using hended
  obtain ⟨v, hv, hinv, heffect, hfibers, hhere⟩ := hshows.swapIn hf (by rw [hpc]; rfl) (by rw [hpc]; rfl) hcontextNe
  have hstate : ∀ g, (t.sched.fibers g).state = (s.sched.fibers g).state := fun g => by
    rw [hsched]
    exact state_of_ne h (by rw [hwrites]; exact fun _ h => by cases h)
  rw [Follows, hown]
  refine Shows.one hv trivial (hshows.effect hinv heffect ?_ ?_ (fun g _ hlt => ?_) (fun g _ => hstate g) (fun g hg => ?_)
    (fun g hg => ?_) (fun g _ hg => ?_) (fun _ => ?_) (fun hentering => ?_) fun hnot => ?_)
  · rw [hfibers, hshows.nextFiber, hsched, hnext]
  · rw [hhere, hsched, hpoint]
    rfl
  · rwa [hsched, hnext] at hlt
  · rw [hcontext]
    refine context_of_ne (by rw [hwrites]; exact fun _ h => by cases h) ?_
    rw [hswitches]
    exact fun heq => hg (Option.some.inj heq).symm
  · rw [hsched, hpoint, hpc]
    exact ⟨(fun h => by cases h), fun heq => absurd (Option.some.inj heq).symm hg⟩
  · rw [hpc] at hg
    cases hg
  · have hfinds := hexecs.finds w
    rw [hpc] at hfinds
    rw [hstate]
    exact Eq.symm hfinds
  · rw [hsched, hpoint] at hentering
    cases hentering
  · exact absurd (by rw [hsched, hpoint]; rfl) hnot

/-- What the worker does in `run`, its thread does. -/
theorem shows_run (hs : RefInv workers s) (hexecs : Execs s.sched) (hshows : Shows w s u)
    (ha : SwapsInAlone s.sched (.run w)) (hsettles : settles s (.sched (.run w)) = true)
    (hended : References.resumesEnded s (.run w) = false) (h : Scheduler.step workers s.sched (.run w) = .next sched)
    (hsched : t.sched = sched) (hcontext : t.context = contextAfter s (.run w)) : Follows w s t (.run w) u := by
  obtain ⟨-, hrunStep⟩ := step_run_eq_next h
  have hnext := runStep_nextFiber hrunStep
  obtain ⟨after, hrun⟩ := runStep_eq_next hrunStep
  have hpoint : sched.pc w = after := by rw [hrun.pc, Function.update_self]
  have hmoves := hrun.next
  cases hpc : s.sched.pc w with
  | picked ft =>
      rw [hpc] at hnext hmoves
      have hafter : runs (sched.pc w) = none ∧ enters (sched.pc w) = none := hpoint ▸ runs_after hmoves rfl fun _ _ h => by cases h
      by_cases hcreates : createsCb s.sched w ft = true
      · exact follows_create hshows h hsched hcontext hpc hcreates hafter
      · have hown : own s w (.run w) = [] := by simp [own, hpc, hcreates]
        rw [Follows, hown]
        refine ⟨u, rfl, shows_unseen hshows hrunStep hsched hcontext (by simp [writes, hpc, hcreates]) (by simp [switches, hpc])
          (hnext.trans (if_neg hcreates)) (by rw [hpc]; exact ⟨rfl, rfl⟩) hafter, trivial⟩
  | checked k f =>
      rw [hpc] at hmoves
      cases hmoves
      exact follows_check hs hexecs hshows ha h hsched hcontext hpc hpoint
  | entering k f =>
      rw [hpc] at hmoves
      cases hmoves
      exact follows_enter hs hexecs hshows hended h hsched hcontext hpc hpoint
  | initing f cb =>
      rw [hpc] at hnext hmoves
      have hwrites : writes s.sched (.run w) = some (f, .INIT) := by simp [writes, hpc]
      have hf : f < s.sched.nextFiber := hs.known.at (w := w) (.inr (.inl (by rw [hpc]; rfl)))
      have hresettable : (s.sched.fibers f).state.resettable = true := by simpa [settles, hpc] using hsettles
      obtain ⟨v, hv, hinv, heffect, hfibers, hhere⟩ := hshows.reset hf (by rw [hpc]; exact fun h => by cases h) hresettable
      refine follows_write hshows h hsched hcontext hwrites hnext (by rw [hpc]; exact ⟨rfl, rfl⟩) (hpoint ▸ runs_after hmoves rfl fun _ _ h => by cases h)
        (by simp [own, hpc]) hv trivial hinv heffect hfibers hhere ?_
      rw [hcontext, References.contextAfter_of_writes hwrites]
      trivial
  | hold k f =>
      rw [hpc] at hnext hmoves
      have hwrites : writes s.sched (.run w) = some (f, .HOLD) := by simp [writes, hpc]
      have hf : f < s.sched.nextFiber := hs.known.at (w := w) (References.at_of_concern (by rw [hpc]; rfl))
      have hfinds := hexecs.finds w
      rw [hpc] at hfinds
      obtain ⟨hready, hlive⟩ : (s.sched.fibers f).state ≠ .READY ∧ (s.sched.fibers f).state.dead = false := hfinds
      obtain ⟨v, hv, hinv, heffect, hfibers, hhere⟩ := hshows.hold hf (by rw [hpc]; rfl) (by rw [hpc]; exact fun h => by cases h) hready hlive
      refine follows_write hshows h hsched hcontext hwrites hnext (by rw [hpc]; exact ⟨rfl, rfl⟩) (hpoint ▸ runs_after hmoves rfl fun _ _ h => by cases h)
        (by simp [own, hpc]) hv trivial hinv heffect hfibers hhere ?_
      have hkept : t.context f = s.context f := by
        rw [hcontext, References.contextAfter_of_writes hwrites]
        rfl
      rw [hkept]
      exact hshows.context f hf (by rw [hpc]; exact fun h => by cases h)
  | running k f =>
      rw [Scheduler.runStep, hpc] at hrunStep
      cases hrunStep
  | _ =>
      rw [hpc] at hnext hmoves
      have hown : own s w (.run w) = [] := by simp [own, hpc]
      rw [Follows, hown]
      exact ⟨u, rfl, shows_unseen hshows hrunStep hsched hcontext (by simp [writes, hpc]) (by simp [switches, hpc]) hnext
        (by rw [hpc]; exact ⟨rfl, rfl⟩) (hpoint ▸ runs_after hmoves rfl fun _ _ h => by cases h), trivial⟩

/-! ### The ways fiber code leaves -/

/-- The code of a fiber that has left stands where its context says. -/
theorem matches_leavesAt (hentered : s.context f = .entered) {k : Scheduler.Kind} (hpc : s.sched.pc w = .running k f)
    (how : Scheduler.Exit) (switch : ℕ) : Matches (contextAfter s (.exit w how) f) (leavesAt how switch) := by
  cases how <;> simp [contextAfter, writes, switches, hpc, Scheduler.Exit.state, leavesAt, Matches, hentered]

/-- Where the code of the worker's fiber leaves, the thread switches back. -/
theorem shows_exit (hs : RefInv workers s) (hshows : Shows w s u) {how : Scheduler.Exit}
    (h : Scheduler.step workers s.sched (.exit w how) = .next sched) (hsched : t.sched = sched)
    (hcontext : t.context = contextAfter s (.exit w how)) : Follows w s t (.exit w how) u := by
  obtain ⟨-, hexit⟩ := step_exit_eq_next h
  obtain ⟨k, f, hpc, hgoto, -, hnext, hfibers⟩ := exitStep_eq_next hexit
  have hown : own s w (.exit w how) = [Switching.ofExit (name f) how] := by simp [own, hpc]
  have hf : f < s.sched.nextFiber := hs.known.at (w := w) (References.at_of_concern (by rw [hpc]; rfl))
  have hpoint : t.sched.pc w = .leaving k f := by rw [hsched, hgoto, Function.update_self]
  have hentered : s.context f = .entered := hs.amid w f (by rw [hpc]; rfl)
  have hstate : (t.sched.fibers f).state = leavesIn how (u.fibers (name f)).m_state := by
    rw [hsched, Scheduler.exitStep_state hexit, hshows.state f hf (by rw [hpc]; exact fun h => by cases h)]
    cases how <;> simp [writes, hpc, Scheduler.Exit.state, written, leavesIn]
  have hnot : ∀ g, g ≠ f → ∀ state, writes s.sched (.exit w how) ≠ some (g, state) := by
    intro g hg state heq
    simp only [writes, hpc] at heq
    obtain ⟨state', -, hpair⟩ := Option.map_eq_some_iff.1 heq
    exact hg (Prod.mk.inj hpair).1.symm
  obtain ⟨hd, v, hv, hinv, heffect, hnextFiber, hthread⟩ := hshows.exit (by rw [hpc]; rfl) hf how
  rw [Follows, hown]
  refine Shows.one hv hd (hshows.effect hinv heffect ?_ ?_ (fun g _ hlt => ?_) (fun g hg => ?_) (fun g hg => ?_)
    (fun g _ => ?_) (fun g hg hruns => ?_) (fun _ => hstate.symm) (fun hentering => ?_) fun _ => ?_)
  · rw [hnextFiber, hshows.nextFiber, hsched, hnext]
  · rw [hthread, hpoint]
    rfl
  · rwa [hsched, hnext] at hlt
  · rw [hsched]
    exact state_of_ne h (hnot g hg)
  · rw [hcontext]
    exact context_of_ne (hnot g hg) (fun h => by cases h)
  · rw [hpoint, hpc]
    exact ⟨(fun h => by cases h), (fun h => by cases h)⟩
  · rw [hpc] at hruns
    exact absurd (Option.some.inj hruns).symm hg
  · rw [hpoint] at hentering
    cases hentering
  · rw [hcontext]
    exact matches_leavesAt hentered hpc how u.switches

/-- What the workers and the thread of one of them have in common. -/
structure Related (workers : Finset ThreadId) (w : ThreadId) (s : References.State C) (u : Switching.State) : Prop where
  refs : RefInv workers s
  execs : Execs s.sched
  shows_ : Shows w s u

/-- Every step of the workers that is allowed is matched by steps of the thread that keep the discipline. -/
theorem simulates (workers : Finset ThreadId) (w : ThreadId) :
    Simulates (References.step (C := C) workers) (Switching.step kind) (seen w) (Related workers w) Allowed
      (Switching.Disciplined kind) := by
  rintro s a t u ⟨hs, hexecs, hshows⟩ ⟨ha, hsettles⟩ h
  have hrefs := ((References.step_refInv hs ha).2 t h).1
  cases a with
  | sched a =>
      obtain ⟨sched, hsched, hended, hsame, hcontext⟩ := References.sched_eq_next h
      have hidle : ∀ v, a = .exit v .yieldToReady → ∀ f, s.sched.pc v ≠ .running .idle f := by
        rintro v rfl f hpc
        simp [settles, hpc] at hsettles
      have hexecs' : Execs t.sched := hsame ▸ execs_step hs hexecs ha hidle hsched
      simp only [seen]
      split_ifs with hworker
      · cases a with
        | run v =>
            obtain rfl : v = w := Option.some.inj hworker
            obtain ⟨v, hv, hsv, hd⟩ := shows_run hs hexecs hshows ha hsettles hended hsched hsame hcontext
            exact ⟨v, hv, ⟨hrefs, hexecs', hsv⟩, hd⟩
        | exit v how =>
            obtain rfl : v = w := Option.some.inj hworker
            obtain ⟨v, hv, hsv, hd⟩ := shows_exit hs hshows hsched hsame hcontext
            exact ⟨v, hv, ⟨hrefs, hexecs', hsv⟩, hd⟩
        | _ => cases hworker
      · obtain ⟨v, hv, hsv, hd⟩ := shows_elsewhere hs hexecs hshows ha hsched hworker hsame hcontext
        exact ⟨v, hv, ⟨hrefs, hexecs', hsv⟩, hd⟩
  | copy f =>
      simp only [References.step] at h
      split at h <;> cases h
      exact ⟨u, rfl, ⟨hrefs, hexecs, ⟨hshows.inv, hshows.nextFiber, hshows.here, hshows.state, hshows.unentered, hshows.context,
        hshows.use_caller⟩⟩, trivial⟩
  | drop i =>
      simp only [References.step] at h
      split at h
      · simp only [References.State.release] at h
        split at h <;> cases h
        exact ⟨u, rfl, ⟨hrefs, hexecs, ⟨hshows.inv, hshows.nextFiber, hshows.here, hshows.state, hshows.unentered,
          hshows.context, hshows.use_caller⟩⟩, trivial⟩
      · cases h

/-! ### The start -/

/-- The thread at the beginning of `run`, with `n` fibers created. -/
theorem created (n : ℕ) : ∃ u, run (Switching.step kind) (Switching.start kind) (List.replicate n (.newFiber false)) = .next u ∧
    Switching.Inv kind u ∧ u.nextFiber = name n ∧ u.here.stack = .thread ∧
    ∀ f, f < n → u.fibers (name f) = ⟨.INIT, false, ⟨.fiber (name f), .entry⟩⟩ := by
  induction n with
  | zero => exact ⟨_, rfl, Switching.inv_start kind, rfl, rfl, (fun _ h => by cases h)⟩
  | succ n ih =>
      obtain ⟨u, hu, hinv, hnext, hstack, hfibers⟩ := ih
      have hstep : Switching.step kind u (.newFiber false) = .next { u with
          fibers := Function.update u.fibers u.nextFiber ⟨.INIT, false, ⟨.fiber u.nextFiber, .entry⟩⟩
          nextFiber := u.nextFiber + 1 } := rfl
      refine ⟨_, ?_, (Switching.inv_stays hinv rfl hstep).1, ?_, hstack, fun f hf => ?_⟩
      · rw [List.replicate_succ', run_append_of_next _ hu, run_cons_of_next _ hstep, run_nil]
      · show u.nextFiber + 1 = name (n + 1)
        rw [hnext]
        rfl
      · show Function.update u.fibers u.nextFiber _ (name f) = _
        rw [hnext]
        by_cases hfn : f = n
        · subst hfn
          rw [Function.update_self]
        · rw [Function.update_of_ne fun heq => hfn (name_injective.1 heq)]
          exact hfibers f (Nat.lt_of_le_of_ne (Nat.le_of_lt_succ hf) hfn)

theorem related_start (workers : Finset ThreadId) (idleCb : C) (w : ThreadId) :
    ∃ u, run (Switching.step kind) (Switching.start kind) (List.replicate (workers.sup id + 1) (.newFiber false)) = .next u ∧
      Related workers w (References.start workers idleCb) u := by
  obtain ⟨u, hu, hinv, hnext, hstack, hfibers⟩ := created (workers.sup id + 1)
  refine ⟨u, hu, References.refInv_start workers idleCb, execs_start workers idleCb, hinv, hnext, hstack, fun f hf _ => ?_, (fun _ h => by cases h),
    fun f hf _ => ?_, fun f hf => ?_⟩
  · rw [hfibers f hf]
    rfl
  · rw [hfibers f hf]
    trivial
  · rw [hfibers f hf]

end

/-- What the thread of worker `w` goes through in a run: its own beginning, with the idle fibers of all workers, and what it sees of each step. -/
def threadRun (workers : Finset ThreadId) (idleCb : C) (w : ThreadId) (acts : List (References.Action C)) : List Switching.Action :=
  List.replicate (workers.sup id + 1) (.newFiber false) ++
    trace (References.step workers) (seen w) (References.start workers idleCb) acts

/-- Every allowed run of any number of workers is, on the thread of each of them, a run of `call`, `swapIn` and `swapOut` in which control is transferred as it should be: at each step `GetThis` is the fiber that executes, and a fiber that leaves goes on behind the `swapIn` that entered it. Where the run ends, the thread executes the code that the worker does, with that fiber as `GetThis`. -/
theorem transfers_on_every_thread (workers : Finset ThreadId) (idleCb : C) (w : ThreadId) (acts : List (References.Action C))
    (h : Along (References.step workers) Allowed (References.start workers idleCb) acts) {s : References.State C}
    (hrun : run (References.step workers) (References.start workers idleCb) acts = .next s) :
    Along (Switching.step kind) (Switching.Good kind) (Switching.start kind) (threadRun workers idleCb w acts) ∧
      ∃ u, run (Switching.step kind) (Switching.start kind) (threadRun workers idleCb w acts) = .next u ∧
        u.here.stack = stackOf (s.sched.pc w) ∧ u.t_fiber = (runs (s.sched.pc w)).elim Switching.main name ∧
        ∀ f, f < s.sched.nextFiber → enters (s.sched.pc w) ≠ some f →
          (u.fibers (name f)).m_state = (s.sched.fibers f).state := by
  obtain ⟨u, hu, hrelated⟩ := related_start workers idleCb w
  obtain ⟨v, hv, hend, hdisciplined⟩ := (simulates workers w).run hrelated h hrun
  have hall : run (Switching.step kind) (Switching.start kind) (threadRun workers idleCb w acts) = .next v := by
    rw [threadRun, run_append_of_next _ hu, hv]
  have hcreating : Along (Switching.step kind) (Switching.Disciplined kind) (Switching.start kind)
      (List.replicate (workers.sup id + 1) (.newFiber false)) := by
    refine along_of_forall (fun a ha _ => ?_) _
    rw [(List.mem_replicate.1 ha).2]
    trivial
  have halong := (along_append hu).2 ⟨hcreating, hdisciplined⟩
  refine ⟨?_, v, hall, hend.shows_.here, ?_, hend.shows_.state⟩
  · exact (throughout_of_along (fun _ _ t hs hd ht => (Switching.good_of_disciplined hs hd).2 t ht) (Switching.inv_start kind)
      halong).2.mono fun _ _ hs => (Switching.good_of_disciplined hs.1 hs.2).1
  · rw [hend.shows_.inv.this, Switching.State.executing, hend.shows_.here, stackOf]
    cases runs (s.sched.pc w) with
    | none => exact hend.shows_.inv.threadFiber
    | some f => rfl

/-- The fiber that worker 1 has left goes on in the thread of worker 2. -/
theorem transfers_on_every_thread_leaving :
    (Along (Switching.step kind) (Switching.Good kind) (Switching.start kind) (threadRun {1, 2} () 1 References.leavingRun)) ∧
      Along (Switching.step kind) (Switching.Good kind) (Switching.start kind) (threadRun {1, 2} () 2 References.leavingRun) := by
  have hallowed : Along (References.step {1, 2}) Allowed (References.start {1, 2} ()) References.leavingRun :=
    References.swapsIn_leavingRun.and (by decide +kernel :
      Along (References.step {1, 2}) (fun s a => settles s a = true) (References.start {1, 2} ()) References.leavingRun)
  exact ⟨(transfers_on_every_thread {1, 2} () 1 _ hallowed rfl).1, (transfers_on_every_thread {1, 2} () 2 _ hallowed rfl).1⟩

end Awcotn.Threads
