import Awcotn.Scheduler.Exclusive
import Awcotn.Scheduler.Owners

/-!
# Entries of fibers at rest

The scan skips entries whose fiber is in `EXEC`. That protects a fiber from the `EXEC` write of `swapIn` until its code writes another state, and at no other time: not between the dequeuing of its entry and that write, and not between the state write of a yield and the end of what `run` does after `swapIn` has returned. A fiber that a worker keeps for its next callback is not protected either.

If no entry is dequeued while its fiber is so exposed at another worker, the test does the rest: no two workers ever have a fiber in hand, and every step is exclusive.
-/

namespace Awcotn.Scheduler

open Transition Process

variable {C : Type*}

/-- The fiber of the entry a worker has dequeued, while the state `EXEC` does not protect it. -/
def exposes : Pc C → Option FiberId
  | .picked ft => ft.fiber
  | .swapIn .fiber f | .checked .fiber f | .leaving .fiber f | .returned .fiber f | .counted .fiber f | .requeue .fiber f |
    .hold .fiber f => some f
  | _ => none

/-- The entry that the next step of a worker dequeues. -/
def taken (s : State C) (w : ThreadId) : Option (FiberAndThread C) :=
  match s.pc w, pick s.fibers w s.queue with
  | .head, .ok (some (ft, _)) => some ft
  | _, _ => none

/-- An entry is dequeued only while no other worker keeps its fiber for callbacks or, unless the fiber has finished, has it exposed; and idle fibers are neither scheduled nor registered. -/
def DequeuesAtRest (workers : Finset ThreadId) (s : State C) : Action C → Prop
  | .run w => ∀ ft ∈ taken s w, ∀ f ∈ ft.fiber, ∀ v ∈ workers, v ≠ w →
      s.cbFiber v ≠ some f ∧ ((s.fibers f).state.dead = false → exposes (s.pc v) ≠ some f)
  | .schedule ft => ∀ v ∈ workers, ft.fiber ≠ some (s.idleFiber v)
  | .register w => idles (s.pc w) = none
  | _ => True

instance (workers : Finset ThreadId) (s : State C) : (a : Action C) → Decidable (DequeuesAtRest workers s a)
  | .run _ | .schedule _ | .register _ => by
    unfold DequeuesAtRest
    infer_instance
  | .newFiber _ | .exit _ _ | .trigger _ => .isTrue trivial

/-! ### The invariant -/

/-- What a worker can rely on about the state of the fiber of its entry. -/
def Meets (state : FiberState) : Pc C → Prop
  | .swapIn .fiber _ | .checked .fiber _ | .hold .fiber _ => state.dead = false
  | .entering .fiber _ | .running .fiber _ => state = .EXEC
  | _ => True

/-- A worker has a fiber in hand: that of the entry it has dequeued, unless it will find that the fiber has finished, or the one it keeps for callbacks. -/
def Has (s : State C) (w : ThreadId) (f : FiberId) : Prop :=
  s.cbFiber w = some f ∨ handles (s.pc w) = some f ∧ ∀ ft, s.pc w = .picked ft → (s.fibers f).state.dead = false

/-- A fiber that a queue entry, a registration or a dequeued entry refers to. -/
def Named (s : State C) (f : FiberId) : Prop :=
  (∃ ft ∈ s.queue, ft.fiber = some f) ∨ f ∈ s.waiting ∨ ∃ w, handles (s.pc w) = some f

/-- No two workers have a fiber in hand, and what a worker has dequeued is nobody's idle fiber and no other's callback. -/
structure RestInv (workers : Finset ThreadId) (s : State C) : Prop where
  owners : Owners workers s
  named : ∀ f, Named s f → f < s.nextFiber ∧ f ∉ workers
  idle : ∀ w f, s.pc w ≠ .requeue .idle f
  worker : ∀ w f, s.cbFiber w = some f ∨ handles (s.pc w) = some f → w ∈ workers
  apart : ∀ w v f, Has s w f → Has s v f → w = v
  kept : ∀ w v f, handles (s.pc w) = some f → s.cbFiber v = some f → v = w
  meets : ∀ w f, handles (s.pc w) = some f → Meets (s.fibers f).state (s.pc w)

theorem restInv_start (workers : Finset ThreadId) (idleCb : C) : RestInv workers (start workers idleCb) where
  owners := owners_start workers idleCb
  named := by
    rintro f (⟨ft, hmem, -⟩ | hmem | ⟨w, hw⟩)
    · cases hmem
    · cases hmem
    · cases hw
  idle := nofun
  worker := by
    rintro w f (h | h) <;> cases h
  apart := by
    rintro w v f (h | ⟨h, -⟩) <;> cases h
  kept := nofun
  meets := nofun

section

variable {workers : Finset ThreadId} {s t : State C} {w v : ThreadId} {f : FiberId}

/-- The scan takes no entry whose fiber is in `EXEC`. -/
theorem pick_ne_exec {fibers : FiberId → Fiber C} {queue rest : List (FiberAndThread C)} {ft : FiberAndThread C}
    (h : pick fibers w queue = .ok (some (ft, rest))) (hf : ft.fiber = some f) : (fibers f).state ≠ .EXEC := by
  induction queue generalizing rest with
  | nil => cases h
  | cons first later ih =>
      have hlater : (pick fibers w later).map (Option.map fun r => (r.1, first :: r.2)) = .ok (some (ft, rest)) →
          (fibers f).state ≠ .EXEC := by
        intro hr
        obtain ⟨o, ho, hmap⟩ := map_eq_ok hr
        cases o with
        | none => cases hmap
        | some r =>
            obtain ⟨rfl, -⟩ := Prod.mk.inj (Option.some.inj hmap)
            exact ih ho
      simp only [pick] at h
      split at h
      · exact hlater h
      split at h
      · cases h
      split at h
      · exact hlater h
      · rename_i hexec
        cases h
        intro heq
        exact hexec (by simp [hf, heq])

theorem taken_eq_some {ft : FiberAndThread C} (h : taken s w = some ft) :
    s.pc w = .head ∧ ∃ rest, pick s.fibers w s.queue = .ok (some (ft, rest)) := by
  simp only [taken] at h
  split at h
  · rename_i hpc hpick
    cases h
    exact ⟨hpc, _, hpick⟩
  · cases h

/-- A worker that comes from the top of the loop has the entry it has taken. -/
theorem taken_of_runStep (h : runStep s w = .next t) (hhead : s.pc w = .head) (hf : handles (t.pc w) = some f) :
    ∃ ft, taken s w = some ft ∧ t.pc w = .picked ft ∧ ft.fiber = some f := by
  simp only [runStep, hhead] at h
  split at h
  · cases h
  · cases h
    simp [State.goto, handles] at hf
  · rename_i ft rest hpick
    cases h
    simp only [State.goto, Function.update_self] at hf ⊢
    exact ⟨ft, by simp only [taken, hhead, hpick], rfl, hf⟩

/-- The entries of the queue after a step of `run` were there, or the step has queued the fiber of the worker again. -/
theorem mem_queue_of_runStep (h : runStep s w = .next t) {ft : FiberAndThread C} (hmem : ft ∈ t.queue) :
    ft ∈ s.queue ∨ ∃ kind f, s.pc w = .requeue kind f ∧ ft = ⟨some f, none, none⟩ := by
  by_cases hhead : s.pc w = .head
  · simp only [runStep, hhead] at h
    split at h
    · cases h
    · cases h
      exact .inl hmem
    · rename_i ft' rest hpick
      cases h
      exact .inl ((pick_eq_some hpick).2.mem_iff.2 (List.mem_cons_of_mem _ hmem))
  · rw [runStep_queue h hhead, List.mem_append, Option.mem_toList] at hmem
    refine hmem.imp_right fun hpushed => ?_
    have hpushed := Option.eq_some_of_filter_eq_some hpushed
    simp only [pushed] at hpushed
    split at hpushed
    · rename_i kind f hpc
      exact ⟨kind, f, hpc, (Option.some.inj hpushed).symm⟩
    · cases hpushed

/-! ### Who writes a fiber -/

/-- The states of fibers that exist are written by workers that keep the fiber, have it from an entry and rely on its not having finished, or have it as idle fiber. -/
theorem writer_of_writes {a : Action C} {state : FiberState} (hs : Owners workers s) (h : writes s a = some (f, state))
    (hf : f < s.nextFiber) : ∃ u, a.worker = some u ∧
      (s.cbFiber u = some f ∨
        (handles (s.pc u) = some f ∧ (∀ ft, s.pc u ≠ .picked ft) ∧ ∀ now, Meets now (s.pc u) → now.dead = false) ∨
        idles (s.pc u) = some f) := by
  have hkind : ∀ u, callback (s.pc u) = some f → s.cbFiber u = some f := fun u hu => hs.owner u f hu
  have hexec : ∀ now : FiberState, now = .EXEC → now.dead = false := by
    rintro _ rfl
    rfl
  cases a with
  | newFiber cb =>
      obtain ⟨rfl, -⟩ := Prod.mk.inj (Option.some.inj h)
      exact absurd hf (Nat.lt_irrefl _)
  | exit u how =>
      refine ⟨u, rfl, ?_⟩
      simp only [writes] at h
      split at h
      · rename_i kind g hpc
        obtain ⟨state', -, hpair⟩ := Option.map_eq_some_iff.1 h
        obtain ⟨rfl, -⟩ := Prod.mk.inj hpair
        rw [hpc]
        cases kind with
        | fiber => exact .inr (.inl ⟨rfl, by simp, hexec⟩)
        | cb => exact .inl (hkind u (by rw [hpc]; rfl))
        | idle => exact .inr (.inr rfl)
      · cases h
  | run u =>
      refine ⟨u, rfl, ?_⟩
      simp only [writes] at h
      split at h
      · split at h
        · obtain ⟨rfl, -⟩ := Prod.mk.inj (Option.some.inj h)
          exact absurd hf (Nat.lt_irrefl _)
        · cases h
      · rename_i g cb hpc
        obtain ⟨rfl, -⟩ := Prod.mk.inj (Option.some.inj h)
        exact .inl (hkind u (by rw [hpc]; rfl))
      · rename_i kind g hpc
        obtain ⟨rfl, -⟩ := Prod.mk.inj (Option.some.inj h)
        rw [hpc]
        cases kind with
        | fiber => exact .inr (.inl ⟨rfl, by simp, fun now hnow => hnow⟩)
        | cb => exact .inl (hkind u (by rw [hpc]; rfl))
        | idle => exact .inr (.inr rfl)
      · rename_i kind g hpc
        obtain ⟨rfl, -⟩ := Prod.mk.inj (Option.some.inj h)
        rw [hpc]
        cases kind with
        | fiber => exact .inr (.inl ⟨rfl, by simp, fun now hnow => hnow⟩)
        | cb => exact .inl (hkind u (by rw [hpc]; rfl))
        | idle => exact .inr (.inr rfl)
      · cases h
  | _ => cases h

theorem RestInv.has_of_handles (hf : handles (s.pc w) = some f) (hlive : ∀ ft, s.pc w ≠ .picked ft) : Has s w f :=
  .inr ⟨hf, fun ft hft => absurd hft (hlive ft)⟩

/-- What a worker has in hand exists and is nobody's idle fiber. -/
theorem RestInv.bound (hs : RestInv workers s) (hf : s.cbFiber w = some f ∨ handles (s.pc w) = some f) :
    f < s.nextFiber ∧ f ∉ workers := by
  rcases hf with hkept | hhandles
  · obtain ⟨hlow, hhigh⟩ := hs.owners.fresh w f hkept
    exact ⟨hhigh, fun hmem => absurd (Finset.le_sup (f := id) hmem) (Nat.not_le_of_lt hlow)⟩
  · exact hs.named f (.inr (.inr ⟨w, hhandles⟩))

/-- While a worker has a fiber from an entry, nobody else writes its state. -/
theorem RestInv.writer (hs : RestInv workers s) (hf : handles (s.pc w) = some f) {a : Action C} {state : FiberState}
    (h : writes s a = some (f, state)) : a.worker = some w := by
  obtain ⟨hbound, hidle⟩ := hs.bound (.inr hf)
  obtain ⟨u, hu, hkept | ⟨hhandles, hpicked, hmeets⟩ | hidles⟩ := writer_of_writes hs.owners h hbound
  · rw [hu, hs.kept w u f hf hkept]
  · have hlive := hmeets _ (hs.meets u f hhandles)
    rw [hu, hs.apart u w f (has_of_handles hhandles hpicked) (.inr ⟨hf, fun _ _ => hlive⟩)]
  · obtain ⟨hmem, rfl⟩ := hs.owners.idle u f hidles
    exact absurd hmem hidle

/-! ### One step -/

/-- What a worker has dequeued keeps its state while the worker does not move. -/
theorem RestInv.state_eq (hs : RestInv workers s) {a : Action C} (h : step workers s a = .next t)
    (hf : handles (s.pc v) = some f) (hv : a.worker ≠ some v) : (t.fibers f).state = (s.fibers f).state := by
  rcases written_eq (step_state h f).symm with hsame | hwrite
  · exact hsame.symm
  · exact absurd (hs.writer hf hwrite) hv

/-- What a worker handles after a step it handled before, or it has just dequeued it. -/
theorem step_handles {a : Action C} (h : step workers s a = .next t) (hf : handles (t.pc w) = some f) :
    handles (s.pc w) = some f ∨ a = .run w ∧ ∃ ft, taken s w = some ft ∧ t.pc w = .picked ft ∧ ft.fiber = some f := by
  by_cases hw : a.worker = some w
  · cases a with
    | run u =>
        obtain rfl : u = w := Option.some.inj hw
        obtain ⟨-, h⟩ := step_run_eq_next h
        by_cases hhead : s.pc u = .head
        · exact .inr ⟨rfl, taken_of_runStep h hhead hf⟩
        · obtain ⟨after, hrun⟩ := runStep_eq_next h
          rw [hrun.pc, Function.update_self] at hf
          exact .inl (next_handles hrun.next hhead hf)
    | exit u how =>
        obtain rfl : u = w := Option.some.inj hw
        obtain ⟨-, h⟩ := step_exit_eq_next h
        obtain ⟨kind, g, hpc, hgoto, -⟩ := exitStep_eq_next h
        rw [hgoto, Function.update_self] at hf
        rw [hpc]
        exact .inl (by cases kind <;> exact hf)
    | _ => cases hw
  · exact .inl ((step_others h hw).1 ▸ hf)

/-- The callback fiber a worker keeps after a step it kept before, or it has just created it. -/
theorem step_cbFiber {a : Action C} (h : step workers s a = .next t) (hf : t.cbFiber w = some f) :
    s.cbFiber w = some f ∨ a = .run w ∧ f = s.nextFiber := by
  by_cases hw : a.worker = some w
  · cases a with
    | run u =>
        obtain rfl : u = w := Option.some.inj hw
        obtain ⟨-, h⟩ := step_run_eq_next h
        cases runStep_keeping h with
        | same hcbFiber _ _ => exact .inl (hcbFiber ▸ hf)
        | created hcbFiber _ _ =>
            rw [hcbFiber, Function.update_self] at hf
            exact .inr ⟨rfl, (Option.some.inj hf).symm⟩
        | released hcbFiber _ =>
            rw [hcbFiber, Function.update_self] at hf
            cases hf
    | exit u how =>
        obtain ⟨-, h⟩ := step_exit_eq_next h
        exact .inl ((exitStep_frame h).1 ▸ hf)
    | _ => cases hw
  · exact .inl ((step_others h hw).2 ▸ hf)

/-- What a worker has in hand after a step it had before, or has just created or dequeued. -/
theorem RestInv.has_of_step (hs : RestInv workers s) {a : Action C} (h : step workers s a = .next t) (hf : Has t w f) :
    Has s w f ∨ a = .run w ∧ (f = s.nextFiber ∨ ∃ ft, taken s w = some ft ∧ ft.fiber = some f ∧ (s.fibers f).state.dead = false) := by
  rcases hf with hkept | ⟨hhandles, hlive⟩
  · exact (step_cbFiber h hkept).imp .inl fun ⟨ha, hnew⟩ => ⟨ha, .inl hnew⟩
  rcases step_handles h hhandles with hbefore | ⟨rfl, ft, htaken, hpicked, hft⟩
  · refine .inl (.inr ⟨hbefore, fun ft hft => ?_⟩)
    by_cases hw : a.worker = some w
    · cases a with
      | run u =>
          obtain rfl : u = w := Option.some.inj hw
          obtain ⟨-, h⟩ := step_run_eq_next h
          obtain ⟨after, hrun⟩ := runStep_eq_next h
          rw [hrun.pc, Function.update_self] at hhandles
          have hnext := hrun.next
          rw [hft] at hnext
          cases hnext with
          | takeFiber _ g hg halive =>
              cases hhandles
              exact halive
          | _ => cases hhandles
      | exit u how =>
          obtain rfl : u = w := Option.some.inj hw
          obtain ⟨-, h⟩ := step_exit_eq_next h
          obtain ⟨kind, g, hpc, -⟩ := exitStep_eq_next h
          rw [hpc] at hft
          cases hft
      | _ => cases hw
    · rw [← hs.state_eq h hbefore hw]
      exact hlive ft ((step_others h hw).1.trans hft)
  · refine .inr ⟨rfl, .inr ⟨ft, htaken, hft, ?_⟩⟩
    have hstate := step_state h f
    simp only [writes, (taken_eq_some htaken).1, written] at hstate
    rw [← hstate]
    exact hlive ft hpicked

/-- A fiber that is not exposed is in `EXEC`. -/
theorem exposes_or_exec (hf : handles (s.pc w) = some f) (hmeets : Meets (s.fibers f).state (s.pc w)) :
    exposes (s.pc w) = some f ∨ (s.fibers f).state = .EXEC := by
  cases hpc : s.pc w with
  | swapIn kind g | checked kind g | leaving kind g | returned kind g | counted kind g | requeue kind g | hold kind g =>
      rw [hpc] at hf
      cases kind <;> exact .inl hf
  | entering kind g | running kind g =>
      rw [hpc] at hf hmeets
      cases kind <;> first | exact .inr hmeets | cases hf
  | picked ft =>
      rw [hpc] at hf
      exact .inl hf
  | _ =>
      rw [hpc] at hf
      cases hf

/-- What a worker dequeues no other has in hand. -/
theorem RestInv.not_has_of_taken (hs : RestInv workers s) (ha : DequeuesAtRest workers s (.run w))
    {ft : FiberAndThread C} (htaken : taken s w = some ft) (hft : ft.fiber = some f)
    (hlive : (s.fibers f).state.dead = false) (hv : v ≠ w) : ¬ Has s v f := by
  intro hhas
  have hmem : v ∈ workers := hs.worker v f (hhas.imp id And.left)
  obtain ⟨hkept, hexposed⟩ := ha ft htaken f hft v hmem hv
  rcases hhas with hcbFiber | ⟨hhandles, -⟩
  · exact hkept hcbFiber
  · rcases exposes_or_exec hhandles (hs.meets v f hhandles) with hout | hexec
    · exact hexposed hlive hout
    · obtain ⟨rest, hpick⟩ := (taken_eq_some htaken).2
      exact pick_ne_exec hpick hft hexec

theorem RestInv.apart_step (hs : RestInv workers s) {a : Action C} (ha : DequeuesAtRest workers s a)
    (h : step workers s a = .next t) (hw : Has t w f) (hv : Has t v f) : w = v := by
  have hfree : ∀ u, Has s u f → f < s.nextFiber := fun u hu => (hs.bound (hu.imp id And.left)).1
  rcases hs.has_of_step h hw with hbefore | ⟨rfl, hnew⟩
  · rcases hs.has_of_step h hv with hother | ⟨rfl, rfl | ⟨ft, htaken, hft, hlive⟩⟩
    · exact hs.apart w v f hbefore hother
    · exact absurd (hfree w hbefore) (Nat.lt_irrefl _)
    · by_contra hne
      exact hs.not_has_of_taken ha htaken hft hlive hne hbefore
  · rcases hs.has_of_step h hv with hother | ⟨hrun, -⟩
    · rcases hnew with rfl | ⟨ft, htaken, hft, hlive⟩
      · exact absurd (hfree v hother) (Nat.lt_irrefl _)
      · by_contra hne
        exact hs.not_has_of_taken ha htaken hft hlive (Ne.symm hne) hother
    · exact Action.run.inj hrun

theorem RestInv.kept_step (hs : RestInv workers s) {a : Action C} (ha : DequeuesAtRest workers s a)
    (h : step workers s a = .next t) (hw : handles (t.pc w) = some f) (hv : t.cbFiber v = some f) : v = w := by
  rcases step_cbFiber h hv with hkept | ⟨rfl, rfl⟩
  · rcases step_handles h hw with hbefore | ⟨rfl, ft, htaken, -, hft⟩
    · exact hs.kept w v f hbefore hkept
    · by_contra hne
      exact (ha ft htaken f hft v (hs.worker v f (.inl hkept)) hne).1 hkept
  · rcases step_handles h hw with hbefore | ⟨hrun, -⟩
    · exact absurd (hs.bound (.inr hbefore)).1 (Nat.lt_irrefl _)
    · exact Action.run.inj hrun

/-- A worker tests what it goes on to rely on. -/
theorem meets_of_runStep (h : runStep s w = .next t) (hf : handles (t.pc w) = some f) (hbound : f < s.nextFiber)
    (hmeets : Meets (s.fibers f).state (s.pc w)) : Meets (t.fibers f).state (t.pc w) := by
  obtain ⟨after, hrun⟩ := runStep_eq_next h
  have hkeep : (s.pc w).writes = none → (t.fibers f).state = (s.fibers f).state := by
    intro hwrites
    rw [hrun.fibers f hbound (by simp [hwrites])]
  have hnext := hrun.next
  rw [hrun.pc, Function.update_self] at hf ⊢
  generalize hpc : s.pc w = before at hnext hmeets hkeep
  cases hnext with
  | takeFiber ft g hg hlive =>
      cases hf
      rw [hkeep rfl]
      exact hlive
  | check kind g =>
      rw [hkeep rfl]
      cases kind <;> exact hmeets
  | exec kind g =>
      cases kind with
      | fiber =>
          cases hf
          have hstate := runStep_state h f
          simp only [writes, hpc, written] at hstate
          exact hstate
      | _ => cases hf
  | enter kind g =>
      rw [hkeep rfl]
      cases kind <;> exact hmeets
  | read kind g =>
      rw [hkeep rfl]
      cases kind with
      | fiber =>
          simp only [bookkeeping] at hf ⊢
          by_cases hready : (s.fibers g).state = .READY
          · rw [if_pos hready]
            trivial
          by_cases hdead : (s.fibers g).state.dead = true
          · rw [if_neg hready, if_pos hdead] at hf
            cases hf
          · rw [if_neg hready, if_neg hdead] at hf ⊢
            cases hf
            exact Bool.eq_false_of_not_eq_true hdead
      | _ =>
          simp only [bookkeeping] at hf
          (repeat' split at hf) <;> cases hf
  | count kind g | back kind g hkind => cases kind <;> trivial
  | _ => trivial

/-- Entries, registrations and workers come to refer only to fibers that exist and are not idle fibers. -/
theorem RestInv.named_step (hs : RestInv workers s) {a : Action C} (ha : DequeuesAtRest workers s a)
    (h : step workers s a = .next t) (hf : Named t f) : f < s.nextFiber ∧ f ∉ workers := by
  have hentry : ∀ ft ∈ s.queue, ft.fiber = some f → f < s.nextFiber ∧ f ∉ workers :=
    fun ft hmem hft => hs.named f (.inl ⟨ft, hmem, hft⟩)
  rcases hf with ⟨ft, hmem, hft⟩ | hwaiting | ⟨w, hw⟩
  · by_cases hhead : ∃ w, a = .run w ∧ s.pc w = .head
    · obtain ⟨w, rfl, hpc⟩ := hhead
      rcases mem_queue_of_runStep (step_run_eq_next h).2 hmem with hold | ⟨kind, g, hrequeue, -⟩
      · exact hentry ft hold hft
      · rw [hpc] at hrequeue
        cases hrequeue
    · rw [step_queue h fun w hw hpc => hhead ⟨w, hw, hpc⟩, List.mem_append, Option.mem_toList] at hmem
      rcases hmem with hold | hpushed
      · exact hentry ft hold hft
      have hpushed := Option.eq_some_of_filter_eq_some hpushed
      cases a with
      | schedule ft' =>
          obtain rfl : ft' = ft := Option.some.inj hpushed
          refine ⟨?_, fun hmem => ha f hmem (by rw [hs.owners.idleFiber, hft])⟩
          simp only [step] at h
          split at h
          · rename_i hall
            simpa [hft] using hall
          · cases h
      | trigger i =>
          obtain ⟨g, hg, rfl⟩ := Option.map_eq_some_iff.1 hpushed
          cases hft
          exact hs.named f (.inr (.inl (List.mem_of_getElem? hg)))
      | run w =>
          simp only [pushed] at hpushed
          split at hpushed
          · rename_i kind g hpc
            cases hpushed
            cases hft
            cases kind with
            | fiber => exact hs.bound (w := w) (.inr (by rw [hpc]; rfl))
            | cb => exact hs.bound (w := w) (.inl (hs.owners.owner w f (by rw [hpc]; rfl)))
            | idle => exact absurd hpc (hs.idle w f)
          · cases hpushed
      | _ => cases hpushed
  · rcases step_waiting h with ⟨v, kind, g, rfl, hpc, heq⟩ | ⟨i, rfl, heq⟩ | ⟨heq, -⟩
    · rw [heq, List.mem_append, List.mem_singleton] at hwaiting
      rcases hwaiting with hold | rfl
      · exact hs.named f (.inr (.inl hold))
      · cases kind with
        | fiber => exact hs.bound (w := v) (.inr (by rw [hpc]; rfl))
        | cb => exact hs.bound (w := v) (.inl (hs.owners.owner v f (by rw [hpc]; rfl)))
        | idle =>
            simp only [DequeuesAtRest, hpc] at ha
            cases ha
    · rw [heq] at hwaiting
      exact hs.named f (.inr (.inl (List.mem_of_mem_eraseIdx hwaiting)))
    · rw [heq] at hwaiting
      exact hs.named f (.inr (.inl hwaiting))
  · rcases step_handles h hw with hbefore | ⟨rfl, ft, htaken, -, hft⟩
    · exact hs.bound (.inr hbefore)
    · obtain ⟨rest, hpick⟩ := (taken_eq_some htaken).2
      exact hentry ft ((pick_eq_some hpick).2.mem_iff.2 List.mem_cons_self) hft

theorem step_nextFiber_le {a : Action C} (h : step workers s a = .next t) : s.nextFiber ≤ t.nextFiber := by
  cases a with
  | run w =>
      obtain ⟨after, hrun⟩ := runStep_eq_next (step_run_eq_next h).2
      exact hrun.nextFiber
  | exit w how =>
      obtain ⟨kind, g, -, -, -, hnext, -⟩ := exitStep_eq_next (step_exit_eq_next h).2
      exact hnext.ge
  | _ => exact (step_eq_next_of_worker_eq_none h rfl).2.2.1

/-- Dequeuing only at rest, a step keeps the fibers in hand apart. -/
theorem RestInv.step (hs : RestInv workers s) {a : Action C} (ha : DequeuesAtRest workers s a)
    (h : Scheduler.step workers s a = .next t) : RestInv workers t where
  owners := (hs.owners.step h).1
  named := fun f hf => by
    obtain ⟨hbound, hidle⟩ := hs.named_step ha h hf
    exact ⟨hbound.trans_le (step_nextFiber_le h), hidle⟩
  idle := fun w f => by
    by_cases hw : a.worker = some w
    · cases a with
      | run u =>
          obtain rfl : u = w := Option.some.inj hw
          obtain ⟨after, hrun⟩ := runStep_eq_next (step_run_eq_next h).2
          rw [hrun.pc, Function.update_self]
          exact hrun.next.ne_requeue f
      | exit u how =>
          obtain rfl : u = w := Option.some.inj hw
          obtain ⟨kind, g, -, hgoto, -⟩ := exitStep_eq_next (step_exit_eq_next h).2
          rw [hgoto, Function.update_self]
          nofun
      | _ => cases hw
    · rw [(step_others h hw).1]
      exact hs.idle w f
  worker := fun w f hf => by
    by_cases hw : a.worker = some w
    · cases a with
      | run u => exact Option.some.inj hw ▸ (step_run_eq_next h).1
      | exit u how => exact Option.some.inj hw ▸ (step_exit_eq_next h).1
      | _ => cases hw
    · rw [(step_others h hw).1, (step_others h hw).2] at hf
      exact hs.worker w f hf
  apart := fun w v f hw hv => hs.apart_step ha h hw hv
  kept := fun w v f hw hv => hs.kept_step ha h hw hv
  meets := fun w f hf => by
    by_cases hw : a.worker = some w
    · cases a with
      | run u =>
          obtain rfl : u = w := Option.some.inj hw
          have hrun := (step_run_eq_next h).2
          rcases step_handles h hf with hbefore | ⟨-, ft, -, hpicked, -⟩
          · exact meets_of_runStep hrun hf (hs.bound (.inr hbefore)).1 (hs.meets u f hbefore)
          · rw [hpicked]
            trivial
      | exit u how =>
          obtain rfl : u = w := Option.some.inj hw
          obtain ⟨kind, g, -, hgoto, -⟩ := exitStep_eq_next (step_exit_eq_next h).2
          rw [hgoto, Function.update_self]
          cases kind <;> trivial
      | _ => cases hw
    · have hpc := (step_others h hw).1
      rw [hpc] at hf ⊢
      rw [hs.state_eq h hf hw]
      exact hs.meets w f hf

/-- A worker that is concerned with a fiber, or about to swap it in or to reuse it, has it in hand or as its idle fiber. -/
theorem RestInv.has_or_idles (hs : RestInv workers s)
    (hf : (s.pc w).concern = some f ∨ (∃ kind, s.pc w = .checked kind f) ∨ ∃ c, s.pc w = .initing f (some c)) :
    Has s w f ∨ idles (s.pc w) = some f := by
  have hcallback : callback (s.pc w) = some f → Has s w f := fun h => .inl (hs.owners.owner w f h)
  rcases hf with hconcern | ⟨kind, hpc⟩ | ⟨c, hpc⟩
  · cases hpc : s.pc w with
    | entering kind g | running kind g | leaving kind g | returned kind g | counted kind g | requeue kind g | hold kind g =>
        rw [hpc] at hconcern
        cases hconcern
        cases kind with
        | fiber => exact .inl (has_of_handles (by rw [hpc]; rfl) (by simp [hpc]))
        | cb => exact .inl (hcallback (by rw [hpc]; rfl))
        | idle => exact .inr rfl
    | resetting g cb | initing g cb =>
        rw [hpc] at hconcern
        cases cb <;> cases hconcern
        exact .inl (hcallback (by rw [hpc]; rfl))
    | _ =>
        rw [hpc] at hconcern
        cases hconcern
  · cases kind with
    | fiber => exact .inl (has_of_handles (by rw [hpc]; rfl) (by simp [hpc]))
    | cb => exact .inl (hcallback (by rw [hpc]; rfl))
    | idle => exact .inr (by rw [hpc]; rfl)
  · exact .inl (hcallback (by rw [hpc]; rfl))

/-- Nobody is concerned with a fiber that a worker swaps in or reuses. -/
theorem RestInv.swapsInAlone (hs : RestInv workers s) (a : Action C) : SwapsInAlone s a := by
  cases a with
  | run w =>
      intro f hfresh v hv hconcern
      have hidle : ∀ u u', Has s u f → idles (s.pc u') ≠ some f := by
        intro u u' hhas hidles
        obtain ⟨hmem, rfl⟩ := hs.owners.idle u' f hidles
        exact (hs.bound (hhas.imp id And.left)).2 hmem
      rcases hs.has_or_idles (.inr hfresh) with hw | hw <;> rcases hs.has_or_idles (.inl hconcern) with hother | hother
      · exact hv (hs.apart v w f hother hw)
      · exact hidle w v hw hother
      · exact hidle v w hother hw
      · exact hv ((hs.owners.idle v f hother).2.symm.trans (hs.owners.idle w f hw).2)
  | _ => trivial

end

/-- In a run whose entries of fibers are dequeued only at rest, from the moment a worker swaps a fiber in until it has saved the fiber's context no other worker swaps that fiber in or writes its state. -/
theorem exclusive_of_dequeuesAtRest (workers : Finset ThreadId) (idleCb : C) (acts : List (Action C))
    (h : Along (step workers) (DequeuesAtRest workers) (start workers idleCb) acts) :
    Along (step workers) Exclusive (start workers idleCb) acts := by
  refine exclusive_of_swapsInAlone workers idleCb acts ?_
  exact (throughout_of_along (fun _ _ _ hs ha ht => hs.step ha ht) (restInv_start workers idleCb) h).2.mono
    fun _ a hs => hs.1.swapsInAlone a

/-- Two workers. Fiber 3 is woken while worker 1 runs it, and worker 2 passes its entry over; when the fiber has yielded and worker 1 is done with it, worker 2 takes the entry and goes on with the fiber, while worker 1 runs a callback. -/
def movingRun : List (Action Unit) :=
  [[.newFiber (), .newFiber (), .schedule ⟨some 3, none, none⟩, .schedule ⟨some 4, none, none⟩, .run 1, .run 2],
    List.replicate 4 (.run 1), List.replicate 4 (.run 2), [.register 1, .trigger 0, .exit 2 .finish],
    List.replicate 8 (.run 2), [.exit 2 .yieldToHold], List.replicate 4 (.run 2), [.exit 1 .yieldToHold],
    List.replicate 4 (.run 1), List.replicate 5 (.run 2), [.schedule ⟨none, some (), none⟩],
    List.replicate 5 (.run 1)].flatten

theorem exclusive_of_movingRun : (∃ t, run (step {1, 2}) (start {1, 2} ()) movingRun = .next t ∧
      t.pc 1 = .running .cb 5 ∧ t.pc 2 = .running .fiber 3) ∧
    Along (step {1, 2}) Exclusive (start {1, 2} ()) movingRun :=
  ⟨⟨_, rfl, by decide +kernel, by decide +kernel⟩, exclusive_of_dequeuesAtRest {1, 2} () _ (by decide +kernel)⟩

end Awcotn.Scheduler
