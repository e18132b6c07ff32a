import Awcotn.Hook.Waiting

/-!
# What a close leaves behind

A hooked `close` cancels the events of its descriptor, forgets the context, and closes the descriptor, in three steps. It asks one manager only, the one of its own thread, and only where there is a context; and a call that has already found its descriptor open may register between any two of the steps or after the last. So a close leaves nothing behind if everybody who waits on the descriptor waits with its own manager, if nobody registers between `cancelAll` and `close_f`, if no call is on its way to `addEvent` when `close_f` comes, and if no call that repeats its raw operation on the closed number is told to wait again.
-/

namespace Awcotn.Hook

open Transition

/-- A fiber waits on a descriptor, and its wake-up is not queued. -/
def WaitsOn (s : State) (fd : ℕ) (f : FiberId) (c : Call) : Prop :=
  (∃ timer, (s.pc f).waiting = some (c, timer)) ∧ c.request.fd = fd ∧ ¬ Queued s f c

/-- No manager has an event registered for a descriptor, and no fiber waits on it. -/
structure Released (s : State) (fd : ℕ) : Prop where
  events : ∀ i event, ((s.io i).cells (fd, event)).1 = false
  fibers : ∀ f c, ¬ WaitsOn s fd f c

/-- A close that returns has released its descriptor, and a call registers only on the opening of the descriptor it was made on. -/
def CloseReleases (s : State) (act : Action) : Prop :=
  ∀ t, step s act = .next t →
    (∀ f fd allow, act = .closeStep f allow → s.pc f = .closeRaw fd → Released t fd) ∧
    ∀ f c timer allow, act = .add f allow → s.pc f = .adding c timer → t.pc f = .yielding c timer →
      c.generation = s.generation c.request.fd

/-- The call that is on its way to `addEvent`. -/
def Pc.registers : Pc → Option Call
  | .arming c | .adding c _ => some c
  | _ => none

/-- The descriptor of a close that is past `cancelAll`. -/
def Pc.closing : Pc → Option ℕ
  | .closeDel fd | .closeRaw fd => some fd
  | _ => none

/-- A close meets all who wait: everybody who waits on its descriptor waits with its manager, whose `epoll_ctl` does not fail; nobody registers between `cancelAll` and `close_f`, nobody is on the way to `addEvent` when `close_f` comes, and a raw operation repeated on a number that has been closed does not end in `EAGAIN`. -/
def MeetsWaiters (s : State) : Action → Prop
  | .closeStep f allow =>
    (∀ fd i, s.pc f = .closeGet fd i → s.fdMgr.get fd = none → ∀ g c, ¬ WaitsOn s fd g c) ∧
    (∀ fd i, s.pc f = .closeCancel fd i → ∀ g c, WaitsOn s fd g c → allow = true ∧ i = some c.iom) ∧
    ∀ fd, s.pc f = .closeRaw fd → ∀ g c, (s.pc g).registers = some c → c.request.fd ≠ fd
  | .add f _ => ∀ c timer, s.pc f = .adding c timer → ∀ g, (s.pc g).closing ≠ some c.request.fd
  | .raw f r => r = .wouldBlock → ∀ c, s.pc f = .raw c → c.generation = s.generation c.request.fd
  | _ => True

variable {s t : State} {f : FiberId}

/-- Nothing is registered where nobody waits. -/
theorem WaitingInv.clear (hs : WaitingInv s) {fd : ℕ} {i : IomId} (h : ∀ g c, WaitsOn s fd g c → c.iom ≠ i)
    (event : Event) : ((s.io i).cells (fd, event)).1 = false := by
  rw [Bool.eq_false_iff]
  intro hset
  obtain ⟨g, c, timer, hwaiting, hiom, hcell, hnot⟩ := (hs.registered_iff i (fd, event)).1 hset
  exact h g c ⟨⟨timer, hwaiting⟩, congrArg Prod.fst hcell, hnot⟩ hiom

/-- Nobody waits where nothing is registered. -/
theorem WaitingInv.released (hs : WaitingInv s) {fd : ℕ} (h : ∀ i event, ((s.io i).cells (fd, event)).1 = false) :
    Released s fd := by
  refine ⟨h, fun g c => ?_⟩
  rintro ⟨⟨timer, hwaiting⟩, rfl, hnot⟩
  have hset := (hs.registered_iff c.iom c.cell).2 ⟨g, c, timer, hwaiting, rfl, rfl, hnot⟩
  exact absurd (hset.symm.trans (h c.iom c.request.event)) (by simp)

/-! ### Between `cancelAll` and `close_f` -/

/-- From `cancelAll` on a closing descriptor has nothing registered, and a call on its way to `addEvent` is on its own opening of the descriptor. -/
structure ClosedInv (s : State) : Prop where
  waiting : WaitingInv s
  cleared : ∀ f fd, (s.pc f).closing = some fd → ∀ i event, ((s.io i).cells (fd, event)).1 = false
  fresh : ∀ f c, (s.pc f).registers = some c → c.generation = s.generation c.request.fd

/-- A step that registers nothing for a descriptor leaves it clear. -/
theorem step_clear {act : Action} (h : step s act = .next t) {fd : ℕ}
    (hact : ∀ f c timer allow, act = .add f allow → s.pc f = .adding c timer → c.request.fd ≠ fd) {i : IomId} {event : Event}
    (hclear : ((s.io i).cells (fd, event)).1 = false) : ((t.io i).cells (fd, event)).1 = false := by
  cases step_io h i with
  | sheds _ _ hsheds => exact hsheds.clear hclear
  | @added f c timer allow r hpc _ _ hr hio =>
      rw [hio]
      rcases IOManager.addEvent_eq_ok hr with ⟨-, hsame, -⟩ | ⟨-, -, -, -, -, hmoves⟩
      · rw [hsame.cells, hclear]
      · have hne : (fd, event) ≠ (c.request.fd, c.request.event) := by
          intro heq
          exact hact f c timer allow rfl hpc (congrArg Prod.fst heq).symm
        rw [hmoves.cells, Function.update_of_ne hne, hclear]
  | resumed _ _ _ hio =>
      rw [hio]
      exact hclear

/-- How a close gets past `cancelAll`. -/
theorem Next.closing {before after : Pc} (h : Next s before after) {fd : ℕ} (hafter : after.closing = some fd) :
    before.closing = some fd ∨ (∃ i, before = .closeCancel fd i ∧ after = .closeDel fd) ∨
      ∃ i, before = .closeGet fd i ∧ after = .closeRaw fd := by
  cases h with
  | cancelledAll fd' i =>
      cases hafter
      exact .inr (.inl ⟨i, rfl, rfl⟩)
  | notFound fd' i =>
      cases hafter
      exact .inr (.inr ⟨i, rfl, rfl⟩)
  | deleted fd' =>
      cases hafter
      exact .inl rfl
  | _ => cases hafter

/-- A `cancelAll` that meets all who wait clears its descriptor. -/
theorem ClosedInv.cancelAll_clear (hs : ClosedInv s) {fd : ℕ} {i : Option IomId} {allow : Bool}
    (hpc : s.pc f = .closeCancel fd i) (hmeets : ∀ g c, WaitsOn s fd g c → allow = true ∧ i = some c.iom)
    (h : step s (.closeStep f allow) = .next t) (j : IomId) (event : Event) : ((t.io j).cells (fd, event)).1 = false := by
  have hclear : (∀ g c, WaitsOn s fd g c → c.iom ≠ j) → ((t.io j).cells (fd, event)).1 = false := by
    intro hnone
    exact step_clear h (by simp) (hs.waiting.clear hnone event)
  by_cases hwaits : ∃ g c, WaitsOn s fd g c ∧ c.iom = j
  · obtain ⟨g, c, hwaits, rfl⟩ := hwaits
    obtain ⟨rfl, rfl⟩ := hmeets g c hwaits
    simp only [step, closeStep, hpc] at h
    obtain ⟨r, hr, rfl⟩ := ioStep_eq_next h
    have hself : ((s.setIo c.iom r.2).goto f (.closeDel fd)).io c.iom = r.2 := Function.update_self ..
    rw [hself]
    exact (hs.waiting.tables.io c.iom).cancelAll_clear hr event
  · exact hclear fun g c hw hiom => hwaits ⟨g, c, hw, hiom⟩

theorem step_cleared (hs : ClosedInv s) {act : Action} (ha : MeetsWaiters s act) (h : step s act = .next t) :
    ∀ f fd, (t.pc f).closing = some fd → ∀ i event, ((t.io i).cells (fd, event)).1 = false := by
  intro f fd hclosing i event
  have hkeep : (s.pc f).closing = some fd → ((t.io i).cells (fd, event)).1 = false := by
    intro hold
    refine step_clear h (fun g c timer allow hact hpc heq => ?_) (hs.cleared f fd hold i event)
    subst hact
    exact ha c timer hpc f (heq ▸ hold)
  by_cases hfiber : act.fiber = some f
  · obtain ⟨before, after, hmove⟩ := step_fiber h hfiber
    have hafter : t.pc f = after := by rw [hmove.pc, Function.update_self]
    rw [hafter] at hclosing
    rcases hmove.next.closing hclosing with hold | ⟨j, hbefore, -⟩ | ⟨j, hbefore, hraw⟩
    · exact hkeep (by rw [hmove.old, hold])
    · have hpc := hmove.old.trans hbefore
      obtain ⟨allow, rfl⟩ := eq_closeStep_of_pc h hfiber (.inr (.inl ⟨j, hpc⟩))
      exact hs.cancelAll_clear hpc (ha.2.1 fd j hpc) h i event
    · have hpc := hmove.old.trans hbefore
      obtain ⟨allow, rfl⟩ := eq_closeStep_of_pc h hfiber (.inl ⟨j, hpc⟩)
      have hnone : s.fdMgr.get fd = none := by
        rw [← hafter] at hraw
        simp only [step, closeStep, hpc] at h
        cases h
        by_contra hsome
        simp [State.goto, Option.isSome_iff_ne_none, hsome] at hraw
      exact step_clear h (by simp) (hs.waiting.clear (fun g c hw => absurd hw (ha.1 fd j hpc hnone g c)) event)
  · exact hkeep (by rwa [← step_pc_of_ne h hfiber])

/-! ### Calls on their own opening -/

/-- How a call gets on its way to `addEvent`. -/
theorem Next.registers {before after : Pc} (h : Next s before after) {c : Call} (hafter : after.registers = some c) :
    before.registers = some c ∨ before = .raw c ∧ after = .arming c := by
  cases h with
  | blocked c' =>
      cases hafter
      exact .inr ⟨rfl, rfl⟩
  | unarmed c' | armed c' a =>
      cases hafter
      exact .inl rfl
  | _ => cases hafter

/-- A call goes on to `addEvent` only if its raw operation would have had to wait. -/
theorem eq_raw_of_pc {act : Action} (h : step s act = .next t) (hfiber : act.fiber = some f) {c : Call}
    (hpc : s.pc f = .raw c) (hafter : t.pc f = .arming c) : act = .raw f .wouldBlock := by
  cases step_move h with
  | blocked =>
      cases hfiber
      rfl
  | interrupted =>
      rw [hpc] at hafter
      cases hafter
  | rawDone =>
      cases hfiber
      simp [State.finish, State.goto] at hafter
  | _ => cases hfiber <;> simp_all

theorem step_fresh (hs : ClosedInv s) {act : Action} (ha : MeetsWaiters s act) (h : step s act = .next t) :
    ∀ f c, (t.pc f).registers = some c → c.generation = t.generation c.request.fd := by
  intro f c hregisters
  have hbump : ∀ {fd}, t.generation fd ≠ s.generation fd → ∃ g, act.fiber = some g ∧ s.pc g = .closeRaw fd := by
    intro fd hne
    cases hfiber : act.fiber with
    | none => exact absurd (congrFun (step_other h hfiber).generation fd) hne
    | some g =>
        obtain ⟨before, after, hmove⟩ := step_fiber h hfiber
        refine ⟨g, rfl, ?_⟩
        rw [hmove.old]
        rw [hmove.generation] at hne
        cases before with
        | closeRaw fd' =>
            by_cases hfd : fd = fd'
            · rw [hfd]
            · exact absurd (Function.update_of_ne hfd ..) hne
        | _ => exact absurd rfl hne
  have hkeep : (s.pc f).registers = some c → c.generation = t.generation c.request.fd := by
    intro hold
    by_cases hsame : t.generation c.request.fd = s.generation c.request.fd
    · rw [hsame, hs.fresh f c hold]
    · obtain ⟨g, hfiber, hpc⟩ := hbump hsame
      obtain ⟨allow, rfl⟩ := eq_closeStep_of_pc h hfiber (.inr (.inr hpc))
      exact absurd rfl (ha.2.2 _ hpc f c hold)
  by_cases hfiber : act.fiber = some f
  · obtain ⟨before, after, hmove⟩ := step_fiber h hfiber
    have hafter : t.pc f = after := by rw [hmove.pc, Function.update_self]
    rw [hafter] at hregisters
    rcases hmove.next.registers hregisters with hold | ⟨hbefore, harming⟩
    · exact hkeep (by rw [hmove.old, hold])
    · have hpc := hmove.old.trans hbefore
      have hact := eq_raw_of_pc h hfiber hpc (hafter.trans harming)
      subst hact
      rw [ha rfl c hpc, hmove.generation, hbefore]
      rfl
  · exact hkeep (by rwa [← step_pc_of_ne h hfiber])

theorem step_closedInv (hs : ClosedInv s) {act : Action} (ha : MeetsWaiters s act) (h : step s act = .next t) :
    ClosedInv t :=
  ⟨step_waitingInv hs.waiting h, step_cleared hs ha h, step_fresh hs ha h⟩

theorem closedInv_start (now : UInt64) : ClosedInv (start now) :=
  ⟨waitingInv_start now, by simp [start, Pc.closing], by simp [start, Pc.registers]⟩

theorem ClosedInv.closeReleases (hs : ClosedInv s) (act : Action) : CloseReleases s act := by
  intro t h
  refine ⟨fun f fd allow hact hpc => ?_, fun f c timer allow _ hpc _ => hs.fresh f c (by rw [hpc]; rfl)⟩
  subst hact
  refine (step_waitingInv hs.waiting h).released fun i event => step_clear h (by simp) ?_
  exact hs.cleared f fd (by rw [hpc]; rfl) i event

/-- In a run whose closes meet all who wait, a close that has returned leaves no event registered for its descriptor with any manager and no fiber waiting on it, and no call made before registers on the number afterwards. -/
theorem close_releases_of_meetsWaiters (now : UInt64) (acts : List Action)
    (h : Along step MeetsWaiters (start now) acts) : Along step CloseReleases (start now) acts :=
  (throughout_of_along (fun _ _ _ hs ha ht => step_closedInv hs ha ht) (closedInv_start now) h).2.mono
    fun _ act hs => hs.1.closeReleases act

/-- A read waits on a descriptor. -/
def waitingRead : List Action :=
  [.track 5 (some true), .begin 0 0 (.read 5), .lookup 0, .raw 0 .wouldBlock, .arm 0 0 100, .add 0 true, .yield 0]

theorem idle_of_run {now : UInt64} {acts : List Action} (h : run step (start now) acts = .next s) {g : FiberId}
    (hg : ∀ act ∈ acts, act.fiber ≠ some g) : s.pc g = .idle := run_pc_of_ne h hg

theorem meetsWaiters_waitingRead : Along step MeetsWaiters (start 0) waitingRead := by
  obtain ⟨s, hs, hraw, hgeneration⟩ : ∃ s, run step (start 0) (waitingRead.take 3) = .next s ∧
      s.pc 0 = .raw ⟨0, 0, .read 5, -1, 0⟩ ∧ s.generation 5 = 0 := ⟨_, rfl, by decide +kernel⟩
  obtain ⟨u, hu, hadding⟩ : ∃ u, run step (start 0) (waitingRead.take 5) = .next u ∧
      u.pc 0 = .adding ⟨0, 0, .read 5, -1, 0⟩ none := ⟨_, rfl, by decide +kernel⟩
  have hfirst : Along step MeetsWaiters (start 0) (waitingRead.take 3) :=
    along_of_forall (by simp [waitingRead, MeetsWaiters]) _
  have hsecond : Along step MeetsWaiters (start 0) (waitingRead.take 3 ++ [.raw 0 .wouldBlock, .arm 0 0 100]) := by
    refine (along_append hs).2 ⟨hfirst, along_cons_of_forall (fun _ c hc => ?_) fun t _ => ?_⟩
    · obtain rfl := Pc.raw.inj (hraw.symm.trans hc)
      exact hgeneration.symm
    · exact along_singleton.2 trivial
  suffices h : Along step MeetsWaiters (start 0) (waitingRead.take 5 ++ [.add 0 true, .yield 0]) from h
  refine (along_append hu).2 ⟨hsecond, along_cons_of_forall ?_ fun t _ => ?_⟩
  · intro c timer hc g
    by_cases hg : g = 0
    · subst hg
      simp [hadding, Pc.closing]
    · have hidle := idle_of_run hu (g := g) (by simp [waitingRead, Action.fiber, Ne.symm hg])
      simp [hidle, Pc.closing]
  · exact along_singleton.2 trivial

theorem meetsWaiters_closeStep {allow : Bool} (hget : ∀ fd i, s.pc f = .closeGet fd i → s.fdMgr.get fd ≠ none)
    (hcancel : ∀ fd i, s.pc f = .closeCancel fd i → ∀ g c, WaitsOn s fd g c → allow = true ∧ i = some c.iom)
    (hraw : ∀ fd, s.pc f = .closeRaw fd → ∀ g c, (s.pc g).registers ≠ some c) :
    MeetsWaiters s (.closeStep f allow) :=
  ⟨fun fd i hpc hnone => absurd hnone (hget fd i hpc), hcancel, fun fd hpc g c hc => absurd hc (hraw fd hpc g c)⟩

/-- Another fiber of the same manager closes the descriptor of the read. -/
theorem close_releases_waitingRead : Along step CloseReleases (start 0)
    (waitingRead ++ [.close 1 5 (some 0)] ++ [.closeStep 1 true] ++ [.closeStep 1 true] ++ [.closeStep 1 true] ++
      [.closeStep 1 true]) := by
  refine close_releases_of_meetsWaiters 0 _ ?_
  obtain ⟨r, hr⟩ : ∃ r, run step (start 0) waitingRead = .next r := ⟨_, rfl⟩
  obtain ⟨s, hs, hpc, hsome⟩ : ∃ s, run step (start 0) (waitingRead ++ [.close 1 5 (some 0)]) = .next s ∧
      s.pc 1 = .closeGet 5 (some 0) ∧ s.fdMgr.get 5 ≠ none := ⟨_, rfl, by decide +kernel⟩
  obtain ⟨u, hu, hpu, hread⟩ : ∃ u, run step (start 0) (waitingRead ++ [.close 1 5 (some 0)] ++ [.closeStep 1 true]) =
      .next u ∧ u.pc 1 = .closeCancel 5 (some 0) ∧ u.pc 0 = .suspended ⟨0, 0, .read 5, -1, 0⟩ none :=
    ⟨_, rfl, by decide +kernel⟩
  obtain ⟨v, hv, hpv⟩ : ∃ v, run step (start 0)
      (waitingRead ++ [.close 1 5 (some 0)] ++ [.closeStep 1 true] ++ [.closeStep 1 true]) = .next v ∧
      v.pc 1 = .closeDel 5 := ⟨_, rfl, by decide +kernel⟩
  obtain ⟨w, hw, hpw, hread'⟩ : ∃ w, run step (start 0)
      (waitingRead ++ [.close 1 5 (some 0)] ++ [.closeStep 1 true] ++ [.closeStep 1 true] ++ [.closeStep 1 true]) =
      .next w ∧ w.pc 1 = .closeRaw 5 ∧ w.pc 0 = .suspended ⟨0, 0, .read 5, -1, 0⟩ none := ⟨_, rfl, by decide +kernel⟩
  have hothers : ∀ {acts : List Action} {s : State}, run step (start 0) acts = .next s →
      (∀ act ∈ acts, act.fiber = none ∨ act.fiber = some 0 ∨ act.fiber = some 1) → ∀ g, g ≠ 0 → g ≠ 1 →
      s.pc g = .idle := by
    intro acts s hs hacts g h0 h1
    refine idle_of_run hs fun act hact hfiber => ?_
    rcases hacts act hact with hnone | hzero | hone <;> simp_all
  have hidle := hothers hu (by simp [waitingRead, Action.fiber])
  have hidle' := hothers hw (by simp [waitingRead, Action.fiber])
  refine (along_append hw).2 ⟨(along_append hv).2 ⟨(along_append hu).2 ⟨(along_append hs).2
    ⟨(along_append hr).2 ⟨meetsWaiters_waitingRead, along_singleton.2 trivial⟩, ?_⟩, ?_⟩, ?_⟩, ?_⟩ <;>
    refine along_singleton.2 (meetsWaiters_closeStep ?_ ?_ ?_)
  · intro fd i h
    cases hpc.symm.trans h
    exact hsome
  · simp [hpc]
  · simp [hpc]
  · simp [hpu]
  · rintro fd i h g c ⟨⟨timer, hwaiting⟩, -⟩
    obtain ⟨rfl, rfl⟩ := Pc.closeCancel.inj (hpu.symm.trans h)
    by_cases h0 : g = 0
    · subst h0
      rw [hread] at hwaiting
      cases hwaiting
      exact ⟨rfl, rfl⟩
    by_cases h1 : g = 1
    · subst h1
      simp [hpu, Pc.waiting] at hwaiting
    · simp [hidle g h0 h1, Pc.waiting] at hwaiting
  · simp [hpu]
  · simp [hpv]
  · simp [hpv]
  · simp [hpv]
  · simp [hpw]
  · simp [hpw]
  · intro fd _ g c
    by_cases h0 : g = 0
    · subst h0
      simp [hread', Pc.registers]
    by_cases h1 : g = 1
    · subst h1
      simp [hpw, Pc.registers]
    · simp [hidle' g h0 h1, Pc.registers]

/-- A read on one manager waits, and a fiber of another manager closes the descriptor. -/
def closedByOther : List Action :=
  [.track 5 (some true), .begin 0 0 (.read 5), .lookup 0, .raw 0 .wouldBlock, .arm 0 0 100, .add 0 true, .yield 0,
    .close 1 5 (some 1), .closeStep 1 true, .closeStep 1 true, .closeStep 1 true]

/-- `cancelAll` of the closing thread's manager does not know of the other manager's event. -/
theorem close_leaves_event_of_other_manager : ¬ ∀ now acts, Along step CloseReleases (start now) acts := by
  intro h
  obtain ⟨s, hs, hpc⟩ : ∃ s, run step (start 0) closedByOther = .next s ∧ s.pc 1 = .closeRaw 5 := ⟨_, rfl, by decide +kernel⟩
  obtain ⟨t, ht, hset⟩ : ∃ t, step s (.closeStep 1 true) = .next t ∧ ((t.io 0).cells (5, .READ)).1 = true := by
    obtain rfl := Outcome.next.inj ((show run step (start 0) closedByOther = .next _ from rfl).symm.trans hs)
    exact ⟨_, rfl, by decide +kernel⟩
  have hlast := ((along_append hs).1 (h 0 (closedByOther ++ [.closeStep 1 true]))).2.1
  have hclear := ((hlast t ht).1 1 5 true rfl hpc).events 0 .READ
  exact absurd (hset.symm.trans hclear) (by simp)

end Awcotn.Hook
