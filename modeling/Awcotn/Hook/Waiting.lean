import Awcotn.Hook.Timeouts
import Awcotn.IOManager.Twice

/-!
# Who waits for an event

`addEvent` asserts that its event is not registered yet: an event table has one slot for each descriptor and direction. In a table that only hooked calls register with, every bit belongs to one fiber, which waits in its call and is not in the run queue; and a fiber that is in the run queue is there once and registered nowhere. So the assertion fails exactly when a call comes to `addEvent` while another fiber waits for the same event with the same manager.
-/

namespace Awcotn.Hook

open Transition

/-- Every registered event has a waiting fiber that is not queued, and every queued fiber is one that waits and is queued once. -/
structure OwnedInv (pc : FiberId → Pc) (i : IomId) (m : IOManager FiberId Empty) : Prop where
  owner : ∀ cell, (m.cells cell).1 = true → ∃ f c timer, (pc f).waiting = some (c, timer) ∧ c.iom = i ∧ c.cell = cell ∧
    IOManager.Parked m cell i (.fiber f) ∧ (i, .fiber f) ∉ m.scheduled
  queued : ∀ entry ∈ m.scheduled, ∃ f c timer, entry = (i, .fiber f) ∧ (pc f).waiting = some (c, timer) ∧ c.iom = i
  nodup : m.scheduled.Nodup

variable {s t : State} {i : IomId} {pc pc' : FiberId → Pc} {m m' : IOManager FiberId Empty}

/-! ### Taking a registration -/

theorem OwnedInv.same (h : OwnedInv pc i m) (hcells : m'.cells = m.cells) (hscheduled : m'.scheduled = m.scheduled) :
    OwnedInv pc i m' := by
  refine ⟨fun cell hset => ?_, by rw [hscheduled]; exact h.queued, by rw [hscheduled]; exact h.nodup⟩
  obtain ⟨f, c, timer, hwaiting, hiom, hcell, hparked, hnot⟩ := h.owner cell (by rw [← hcells, hset])
  exact ⟨f, c, timer, hwaiting, hiom, hcell, hparked.congr (by rw [hcells]), by rwa [hscheduled]⟩

/-- The fiber whose registration is taken goes into the run queue; it was not there, and it has no other registration. -/
theorem OwnedInv.takes (h : OwnedInv pc i m) {fd : ℕ} {event : Event} (htakes : IOManager.Takes m m' fd event) :
    OwnedInv pc i m' := by
  obtain ⟨f, c, timer, hwaiting, hiom, hcell, hparked, hnot⟩ := h.owner (fd, event) htakes.1
  obtain ⟨-, scheduler, hscheduler, hmoves⟩ := htakes
  have hpushed : m'.scheduled = m.scheduled ++ [(i, .fiber f)] := by
    obtain rfl : i = scheduler := Option.some.inj (hparked.scheduler.symm.trans hscheduler)
    rw [hmoves.scheduled, show ((m.ctxAt fd).slot event).task = some (.fiber f) from hparked.task]
    rfl
  refine ⟨fun cell hset => ?_, fun entry hentry => ?_, ?_⟩
  · have hne : cell ≠ (fd, event) := by
      rintro rfl
      rw [hmoves.cells, Function.update_self] at hset
      cases hset
    have hkept : m'.cells cell = m.cells cell := by rw [hmoves.cells, Function.update_of_ne hne]
    obtain ⟨g, d, timer', hwaiting', hiom', hcell', hparked', hnot'⟩ := h.owner cell (by rw [← hkept, hset])
    refine ⟨g, d, timer', hwaiting', hiom', hcell', hparked'.congr hkept, ?_⟩
    rw [hpushed, List.mem_append, List.mem_singleton, not_or]
    refine ⟨hnot', fun heq => hne ?_⟩
    cases heq
    obtain ⟨rfl, -⟩ := Prod.mk.inj (Option.some.inj (hwaiting.symm.trans hwaiting'))
    rw [← hcell', hcell]
  · rw [hpushed, List.mem_append, List.mem_singleton] at hentry
    rcases hentry with hold | rfl
    · exact h.queued entry hold
    · exact ⟨f, c, timer, rfl, hwaiting, hiom⟩
  · rw [hpushed, List.nodup_append]
    refine ⟨h.nodup, by simp, fun entry hentry other hother heq => hnot ?_⟩
    rwa [← List.mem_singleton.1 hother, ← heq]

theorem OwnedInv.sheds (h : OwnedInv pc i m) (hsheds : IOManager.Sheds m m') : OwnedInv pc i m' := by
  induction hsheds with
  | same hcells hscheduled => exact h.same hcells hscheduled
  | takes _ htakes ih => exact ih.takes htakes

/-- The fibers that wait with a manager go on waiting. -/
theorem OwnedInv.congr (h : OwnedInv pc i m)
    (hpc : ∀ f c timer, c.iom = i → (pc f).waiting = some (c, timer) → (pc' f).waiting = some (c, timer)) :
    OwnedInv pc' i m := by
  refine ⟨fun cell hset => ?_, fun entry hentry => ?_, h.nodup⟩
  · obtain ⟨f, c, timer, hwaiting, hiom, hcell, hparked⟩ := h.owner cell hset
    exact ⟨f, c, timer, hpc f c timer hiom hwaiting, hiom, hcell, hparked⟩
  · obtain ⟨f, c, timer, rfl, hwaiting, hiom⟩ := h.queued entry hentry
    exact ⟨f, c, timer, rfl, hpc f c timer hiom hwaiting, hiom⟩

/-! ### Registering and resuming -/

/-- A fiber that does not wait is neither registered nor queued, so it may register. -/
theorem OwnedInv.added (h : OwnedInv pc i m) {f : FiberId} {c : Call} {timer : Option Addr} (hold : (pc f).waiting = none)
    (hwaiting : (pc' f).waiting = some (c, timer)) (hothers : ∀ g, g ≠ f → pc' g = pc g) (hiom : c.iom = i)
    {entry : EventContext FiberId Empty} {δ : ℤ} (hmoves : IOManager.Moves m m' c.cell.1 c.cell.2 (true, entry) δ [])
    (hscheduler : entry.scheduler = some i) (htask : entry.task = some (.fiber f)) : OwnedInv pc' i m' := by
  have hscheduled : m'.scheduled = m.scheduled := by rw [hmoves.scheduled, List.append_nil]
  have hkeep : ∀ g d timer', (pc g).waiting = some (d, timer') → (pc' g).waiting = some (d, timer') := by
    intro g d timer' hg
    rw [hothers g, hg]
    rintro rfl
    cases hold.symm.trans hg
  refine ⟨fun cell hset => ?_, fun entry hentry => ?_, by rw [hscheduled]; exact h.nodup⟩
  · by_cases hcell : cell = c.cell
    · subst hcell
      have hself : m'.cells c.cell = (true, entry) := by rw [hmoves.cells]; exact Function.update_self ..
      refine ⟨f, c, timer, hwaiting, hiom, rfl, ⟨by rw [hself], by rw [hself, hscheduler], by rw [hself, htask]⟩, ?_⟩
      intro hentry
      rw [hscheduled] at hentry
      obtain ⟨g, d, timer', heq, hg, -⟩ := h.queued _ hentry
      cases heq
      cases hold.symm.trans hg
    · have hkept : m'.cells cell = m.cells cell := by
        rw [hmoves.cells]
        exact Function.update_of_ne hcell ..
      obtain ⟨g, d, timer', hg, hiom', hcell', hparked, hnot⟩ := h.owner cell (by rw [← hkept, hset])
      exact ⟨g, d, timer', hkeep g d timer' hg, hiom', hcell', hparked.congr hkept, by rwa [hscheduled]⟩
  · rw [hscheduled] at hentry
    obtain ⟨g, d, timer', rfl, hg, hiom'⟩ := h.queued entry hentry
    exact ⟨g, d, timer', rfl, hkeep g d timer' hg, hiom'⟩

/-- A queued fiber is registered nowhere, so it may take its entry and go on. -/
theorem OwnedInv.resumed (h : OwnedInv pc i m) {f : FiberId} (hentry : (i, .fiber f) ∈ m.scheduled)
    (hothers : ∀ g, g ≠ f → pc' g = pc g) (hcells : m'.cells = m.cells)
    (hscheduled : m'.scheduled = m.scheduled.erase (i, .fiber f)) : OwnedInv pc' i m' := by
  refine ⟨fun cell hset => ?_, fun entry hmem => ?_, by rw [hscheduled]; exact h.nodup.erase _⟩
  · obtain ⟨g, d, timer', hg, hiom, hcell, hparked, hnot⟩ := h.owner cell (by rw [← hcells, hset])
    have hne : g ≠ f := by
      rintro rfl
      exact hnot hentry
    refine ⟨g, d, timer', by rw [hothers g hne, hg], hiom, hcell, hparked.congr (by rw [hcells]), ?_⟩
    rw [hscheduled]
    exact fun hmem => hnot (List.mem_of_mem_erase hmem)
  · rw [hscheduled, h.nodup.mem_erase_iff] at hmem
    obtain ⟨g, d, timer', rfl, hg, hiom⟩ := h.queued entry hmem.2
    refine ⟨g, d, timer', rfl, ?_, hiom⟩
    rw [hothers g, hg]
    rintro rfl
    exact hmem.1 rfl

/-! ### Runs -/

/-- Who waits changes only where a call registers and where it is resumed. -/
theorem step_waiting {act : Action} (h : step s act = .next t) (f : FiberId) : (t.pc f).waiting = (s.pc f).waiting ∨
    (∃ c timer allow, act = .add f allow ∧ s.pc f = .adding c timer ∧ t.pc f = .yielding c timer) ∨
      ∃ c timer, act = .resume f ∧ s.pc f = .suspended c timer := by
  by_cases hfiber : act.fiber = some f
  · obtain ⟨before, after, hmove⟩ := step_fiber h hfiber
    have hafter : t.pc f = after := by rw [hmove.pc, Function.update_self]
    rw [hafter, hmove.old]
    cases hmove.next with
    | added c timer =>
        obtain ⟨rfl, -⟩ := step_add h hmove.old hafter
        exact .inr (.inl ⟨c, timer, true, rfl, rfl, rfl⟩)
    | resumed c timer =>
        refine .inr (.inr ⟨c, timer, ?_, rfl⟩)
        have hold := hmove.old
        cases act <;> cases hfiber <;> simp_all [step, closeStep]
    | _ => exact .inl rfl
  · exact .inl (by rw [step_pc_of_ne h hfiber])

theorem step_ownedInv (hs : ∀ i, OwnedInv s.pc i (s.io i)) {act : Action} (h : step s act = .next t) (i : IomId) :
    OwnedInv t.pc i (t.io i) := by
  cases step_io h i with
  | sheds hresumed _ hsheds =>
      refine ((hs i).sheds hsheds).congr fun f c timer hiom hwaiting => ?_
      rcases step_waiting h f with hsame | ⟨c', timer', allow, -, hpc, -⟩ | ⟨c', timer', hact, hpc⟩
      · rw [hsame, hwaiting]
      · rw [hpc] at hwaiting
        cases hwaiting
      · rw [hpc] at hwaiting
        cases hwaiting
        exact absurd hiom (hresumed f c timer hact hpc)
  | @added f c timer allow r hpc hiom hafter hr hio =>
      have hothers : ∀ g, g ≠ f → t.pc g = s.pc g := fun g hg => step_pc_of_ne h (by simpa [Action.fiber] using Ne.symm hg)
      have hold : (s.pc f).waiting = none := by rw [hpc]; rfl
      rw [hio]
      rcases IOManager.addEvent_eq_ok hr with ⟨hfail, hsame, -⟩ | ⟨hok, -, -, -, -, hmoves⟩
      · refine ((hs i).same hsame.cells hsame.scheduled).congr fun g d timer' _ hg => ?_
        rw [hothers g, hg]
        rintro rfl
        cases hold.symm.trans hg
      · rw [if_pos hok] at hafter
        have hwaiting : (t.pc f).waiting = some (c, timer) := by rw [hafter]; rfl
        exact (hs i).added hold hwaiting hothers hiom hmoves rfl rfl
  | @resumed f c timer hpc hiom hentry hio =>
      have hothers : ∀ g, g ≠ f → t.pc g = s.pc g := fun g hg => step_pc_of_ne h (by simpa [Action.fiber] using Ne.symm hg)
      rw [hio]
      exact (hs i).resumed hentry hothers rfl rfl

/-- Every event table belongs to the fibers that wait with it. -/
structure WaitingInv (s : State) : Prop where
  tables : TablesInv s
  registered : RegisteredInv s
  owned : ∀ i, OwnedInv s.pc i (s.io i)

theorem step_waitingInv (hs : WaitingInv s) {act : Action} (h : step s act = .next t) : WaitingInv t :=
  ⟨step_tablesInv hs.tables h, step_registeredInv hs.registered h, fun i => step_ownedInv hs.owned h i⟩

theorem waitingInv_start (now : UInt64) : WaitingInv (start now) := by
  have hinit := timeoutInv_start now
  refine ⟨hinit.tables, hinit.registered, fun i => ⟨fun cell hset => ?_, fun entry hentry => ?_, List.nodup_nil⟩⟩
  · rw [show (start now).io i = IOManager.init from rfl, IOManager.cells_init] at hset
    cases hset
  · cases hentry

/-! ### The assertion of `addEvent` -/

/-- A call comes to `addEvent` when no fiber waits for its event with its manager; a fiber whose wake-up is queued waits no more. -/
def WaitsAlone (s : State) : Action → Prop
  | .add f _ => ∀ c timer, s.pc f = .adding c timer → ∀ g c' timer', (s.pc g).waiting = some (c', timer') →
      c'.iom = c.iom → c'.cell = c.cell → Queued s g c'
  | _ => True

/-- The event of a call is registered exactly if a fiber waits for it. -/
theorem WaitingInv.registered_iff (hs : WaitingInv s) (i : IomId) (cell : ℕ × Event) :
    ((s.io i).cells cell).1 = true ↔
      ∃ g c timer, (s.pc g).waiting = some (c, timer) ∧ c.iom = i ∧ c.cell = cell ∧ ¬ Queued s g c := by
  constructor
  · intro hset
    obtain ⟨g, c, timer, hwaiting, rfl, hcell, -, hnot⟩ := (hs.owned i).owner cell hset
    exact ⟨g, c, timer, hwaiting, rfl, hcell, hnot⟩
  · rintro ⟨g, c, timer, hwaiting, rfl, rfl, hnot⟩
    exact ((hs.registered g c timer hwaiting).resolve_right hnot).set

theorem ioStep_eq_abort {β : Type*} {r : Except Fault β} {next : β → State} {e : Crash} (h : ioStep r next = .abort e) :
    ∃ fault, r = .error fault ∧ e = .io fault := by
  cases r with
  | error fault => exact ⟨fault, rfl, (Outcome.abort.inj h).symm⟩
  | ok b => cases h

theorem cancelTimer_ne_io {i : IomId} {timer : Option Addr} {next : State → State} (fault : Fault) :
    cancelTimer s i timer next ≠ .abort (.io fault) := by
  intro h
  simp only [cancelTimer] at h
  split at h
  · cases h
  · split at h <;> cases h

/-- Whatever is not a call at `addEvent` passes the assertion. -/
theorem step_ne_registered {act : Action} (hact : ∀ f allow, act ≠ .add f allow) :
    step s act ≠ .abort (.io .addEventRegistered) := by
  intro h
  have hio : ∀ {β : Type} {r : Except Fault β} {next : β → State}, ioStep r next = .abort (.io .addEventRegistered) →
      r = .error .addEventRegistered := by
    intro β r next hr
    obtain ⟨fault, herr, heq⟩ := ioStep_eq_abort hr
    cases heq
    exact herr
  cases act with
  | add f allow => exact hact f allow rfl
  | closeStep f allow =>
      simp only [step, closeStep] at h
      split at h
      · cases h
      · cases h
      · exact IOManager.cancelAll_ne_registered _ _ _ (hio h)
      · cases h
      · cases h
      · cases h
  | callback j allow =>
      simp only [step] at h
      split at h
      · rename_i timeout pc hget
        cases pc with
        | handedOut =>
            simp only [callbackStep] at h
            split at h <;> cases h
        | checked => cases h
        | flagged => exact IOManager.cancelEvent_ne_registered _ _ _ _ (hio h)
      · cases h
  | dispatch j allow =>
      simp only [step] at h
      split at h
      · exact IOManager.dispatch_ne_registered _ _ _ _ (hio h)
      · cases h
  | cancelEvent i fd event allow => exact IOManager.cancelEvent_ne_registered _ _ _ _ (hio h)
  | cancelTimer f =>
      simp only [step] at h
      split at h
      · exact cancelTimer_ne_io _ h
      · exact cancelTimer_ne_io _ h
      · cases h
  | arm f a now =>
      simp only [step] at h
      split at h
      · split at h
        · cases h
        · split at h <;> cases h
      · cases h
  | expire i now probe =>
      simp only [step] at h
      split at h
      · split at h <;> cases h
      · cases h
  | resume f =>
      simp only [step] at h
      split at h
      · split at h <;> cases h
      · cases h
  | track fd stat => cases h
  | _ =>
      simp only [step] at h
      split at h <;> cases h

/-- The assertion fails at a call that does not wait alone, and nowhere else. -/
theorem step_eq_registered_iff (hs : WaitingInv s) (act : Action) :
    step s act = .abort (.io .addEventRegistered) ↔ ¬ WaitsAlone s act := by
  by_cases hact : ∃ f allow, act = .add f allow
  · obtain ⟨f, allow, rfl⟩ := hact
    by_cases hpc : ∃ c timer, s.pc f = .adding c timer
    · obtain ⟨c, timer, hpc⟩ := hpc
      have hset := (hs.tables.io c.iom).addEvent_eq_registered_iff c.request.fd c.request.event none
        ⟨some c.iom, f, true⟩ allow
      simp only [step, hpc]
      constructor
      · intro h halone
        obtain ⟨fault, herr, heq⟩ := ioStep_eq_abort h
        cases heq
        obtain ⟨g, c', timer', hwaiting, hiom, hcell, hnot⟩ := (hs.registered_iff c.iom c.cell).1 (hset.1 herr)
        exact hnot (halone c timer hpc g c' timer' hwaiting hiom hcell)
      · intro hbusy
        have hwaits : ∃ g c' timer', (s.pc g).waiting = some (c', timer') ∧ c'.iom = c.iom ∧ c'.cell = c.cell ∧
            ¬ Queued s g c' := by
          by_contra hnone
          refine hbusy fun d timer' hd g c' timer'' hwaiting hiom hcell => ?_
          obtain ⟨rfl, -⟩ := Pc.adding.inj (hpc.symm.trans hd)
          by_contra hnot
          exact hnone ⟨g, c', timer'', hwaiting, hiom, hcell, hnot⟩
        rw [hset.2 ((hs.registered_iff c.iom c.cell).2 hwaits)]
        rfl
    · refine iff_of_false (fun h => hpc ?_) (not_not.2 fun c timer hc => absurd ⟨c, timer, hc⟩ hpc)
      simp only [step] at h
      split at h
      · rename_i c timer hc
        exact ⟨c, timer, hc⟩
      · cases h
  · have hother : ∀ f allow, act ≠ .add f allow := fun f allow heq => hact ⟨f, allow, heq⟩
    refine iff_of_false (step_ne_registered hother) (not_not.2 ?_)
    cases act with
    | add f allow => exact absurd rfl (hother f allow)
    | _ => trivial

/-- A run of hooked calls passes the assertion of `addEvent` if and only if every call that comes to it waits alone for its event. -/
theorem addEvent_passes_iff_waitsAlone (now : UInt64) (acts : List Action) :
    run step (start now) acts ≠ .abort (.io .addEventRegistered) ↔ Along step WaitsAlone (start now) acts :=
  run_ne_abort_iff_along_of_invariant (fun _ _ _ hs h => step_waitingInv hs h)
    (fun _ act hs => step_eq_registered_iff hs act) (waitingInv_start now) acts

/-- Two fibers of one manager accept on one listening socket. -/
def twoAcceptors : List Action :=
  [.track 5 (some true), .begin 0 0 (.accept 5), .lookup 0, .raw 0 .wouldBlock, .arm 0 0 100, .add 0 true, .yield 0,
    .begin 1 0 (.accept 5), .lookup 1, .raw 1 .wouldBlock, .arm 1 0 100, .add 1 true]

/-- The second of two fibers that accept on one socket ends the process. -/
theorem second_acceptor_asserts :
    ¬ ∀ now acts, run step (start now) acts ≠ .abort (.io .addEventRegistered) :=
  fun h => h 0 twoAcceptors rfl

end Awcotn.Hook
