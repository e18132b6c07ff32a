import Awcotn.IOManager.Registration

/-!
# What becomes of a registration

No operation but `delEvent` loses what a slot holds. A registration stays in its cell until somebody takes it, and whoever takes it pushes it into the run queue of the slot's scheduler.
-/

namespace Awcotn.IOManager

variable {F C : Type*} {m m' m'' : IOManager F C}

/-- An event is registered, and its slot holds a task for a scheduler. -/
structure Parked (m : IOManager F C) (cell : ℕ × Event) (scheduler : SchedulerId) (task : Task F C) : Prop where
  set : (m.cells cell).1 = true
  scheduler : (m.cells cell).2.scheduler = some scheduler
  task : (m.cells cell).2.task = some task

/-- Every registration is still there or has been handed over, and nothing has left the run queues. -/
structure HandsOver (m m' : IOManager F C) : Prop where
  parked : ∀ cell scheduler task, Parked m cell scheduler task →
    Parked m' cell scheduler task ∨ (scheduler, task) ∈ m'.scheduled
  scheduled : ∀ entry ∈ m.scheduled, entry ∈ m'.scheduled

theorem HandsOver.refl (m : IOManager F C) : HandsOver m m := ⟨fun _ _ _ => .inl, fun _ h => h⟩

theorem HandsOver.trans (h : HandsOver m m') (h' : HandsOver m' m'') : HandsOver m m'' := by
  refine ⟨fun cell scheduler task hparked => ?_, fun entry hentry => h'.scheduled entry (h.scheduled entry hentry)⟩
  rcases h.parked cell scheduler task hparked with hstill | hqueued
  · exact h'.parked cell scheduler task hstill
  · exact .inr (h'.scheduled _ hqueued)

theorem Parked.congr {cell : ℕ × Event} {scheduler : SchedulerId} {task : Task F C}
    (h : Parked m cell scheduler task) (hcell : m'.cells cell = m.cells cell) : Parked m' cell scheduler task :=
  ⟨by rw [hcell, h.set], by rw [hcell, h.scheduler], by rw [hcell, h.task]⟩

theorem Same.handsOver (h : Same m m') : HandsOver m m' :=
  ⟨fun _ _ _ hparked => .inl (hparked.congr (by rw [h.cells])), fun _ hentry => h.scheduled ▸ hentry⟩

/-- Filling an empty cell overwrites nothing. -/
theorem Moves.handsOver {fd : ℕ} {event : Event} {cell : Bool × EventContext F C} {δ : ℤ}
    (h : Moves m m' fd event cell δ []) (hempty : m.cells (fd, event) = (false, .reset)) : HandsOver m m' := by
  refine ⟨fun other scheduler task hparked => .inl (hparked.congr ?_), fun _ hentry => ?_⟩
  · rw [h.cells, Function.update_of_ne]
    rintro rfl
    exact absurd hparked.set (by simp [hempty])
  · rwa [h.scheduled, List.append_nil]

/-- Whoever takes a registration hands it over. -/
theorem Takes.mem_scheduled {fd : ℕ} {event : Event} {scheduler : SchedulerId} {task : Task F C}
    (h : Takes m m' fd event) (hparked : Parked m (fd, event) scheduler task) : (scheduler, task) ∈ m'.scheduled := by
  obtain ⟨-, scheduler', hs, hmoves⟩ := h
  obtain rfl : scheduler = scheduler' := Option.some.inj (hparked.scheduler.symm.trans hs)
  rw [hmoves.scheduled, show ((m.ctxAt fd).slot event).task = some task from hparked.task]
  simp

theorem Takes.handsOver {fd : ℕ} {event : Event} (h : Takes m m' fd event) : HandsOver m m' := by
  refine ⟨fun cell scheduler task hparked => ?_, fun entry hentry => ?_⟩
  · by_cases hcell : cell = (fd, event)
    · subst hcell
      exact .inr (h.mem_scheduled hparked)
    · obtain ⟨-, scheduler', -, hmoves⟩ := h
      exact .inl (hparked.congr (by rw [hmoves.cells, Function.update_of_ne hcell]))
  · obtain ⟨-, scheduler', -, hmoves⟩ := h
    rw [hmoves.scheduled]
    exact List.mem_append_left _ hentry

/-! ### The operations -/

theorem addEvent_handsOver {fd : ℕ} {event : Event} {cb : Option C} {caller : Caller F} {allow : Bool}
    {r : ℤ × IOManager F C} (h : m.addEvent fd event cb caller allow = .ok r) : HandsOver m r.2 := by
  rcases addEvent_eq_ok h with ⟨-, hsame, -⟩ | ⟨-, -, hempty, -, -, hmoves⟩
  · exact hsame.handsOver
  · exact hmoves.handsOver hempty

/-- `addEvent` registers its caller. -/
theorem addEvent_parked {fd : ℕ} {event : Event} {f : F} {scheduler : SchedulerId} {exec allow : Bool}
    {r : ℤ × IOManager F C} (h : m.addEvent fd event none ⟨some scheduler, f, exec⟩ allow = .ok r) (hr : r.1 = 0) :
    Parked r.2 (fd, event) scheduler (.fiber f) := by
  rcases addEvent_eq_ok h with ⟨hfail, -⟩ | ⟨-, -, -, -, -, hmoves⟩
  · omega
  · have hcell : r.2.cells (fd, event) = (true, filled none ⟨some scheduler, f, exec⟩) := by
      rw [hmoves.cells, Function.update_self]
    exact ⟨by rw [hcell], by rw [hcell]; rfl, by rw [hcell]; rfl⟩

/-- `cancelEvent` hands its registration over, unless `epoll_ctl` fails for a reason of its own. -/
theorem Wf.cancelEvent_mem_scheduled (hm : Wf m) {fd : ℕ} {event : Event} {r : Bool × IOManager F C}
    {scheduler : SchedulerId} {task : Task F C} (h : m.cancelEvent fd event true = .ok r)
    (hparked : Parked m (fd, event) scheduler task) : (scheduler, task) ∈ r.2.scheduled := by
  have hhas : (m.ctxAt fd).events.has event = true := hparked.set
  rcases cancelEvent_eq_ok h with ⟨-, hclear | hctl⟩ | ⟨-, -, htakes⟩
  · exact absurd (hhas.symm.trans hclear) (by simp)
  · have haccepts := hm.choicesAccepted.leave fd event hhas
    simp [Epoll.ctl, haccepts] at hctl
  · exact htakes.mem_scheduled hparked

/-- `cancelAll` leaves nothing registered for its descriptor, unless `epoll_ctl` fails for a reason of its own. -/
theorem Wf.cancelAll_clear (hm : Wf m) {fd : ℕ} {r : Bool × IOManager F C} (h : m.cancelAll fd true = .ok r)
    (event : Event) : (r.2.cells (fd, event)).1 = false := by
  have hempty : (m.ctxAt fd).events.any = false → (m.cells (fd, event)).1 = false := by
    intro hany
    change (m.ctxAt fd).events.has event = false
    rw [Events.any_eq_false] at hany
    rw [hany, Events.has_empty]
  rcases cancelAll_eq_ok h with ⟨rfl, hnone | hctl⟩ | ⟨-, -, -, m₁, hread, hwrite⟩
  · exact hempty hnone
  · refine hempty ?_
    by_contra hany
    have haccepts := hm.choicesAccepted.cancelAll fd (Bool.not_eq_false _ ▸ hany)
    simp [Epoll.ctl, haccepts] at hctl
  · cases event with
    | NONE => rfl
    | READ =>
        rw [hwrite.cells_of_ne (by simp), hread.has_self]
        exact Bool.and_not_self _
    | WRITE =>
        rw [hwrite.has_self, hread.cells_of_ne (by simp)]
        exact Bool.and_not_self _

/-! ### Cells and run queues alone -/

/-- Registrations are taken one after another, and nothing else happens to the cells and the run queues. -/
inductive Sheds : IOManager F C → IOManager F C → Prop
  | same {m m' : IOManager F C} : m'.cells = m.cells → m'.scheduled = m.scheduled → Sheds m m'
  | takes {m m₁ m' : IOManager F C} {fd : ℕ} {event : Event} : Sheds m m₁ → Takes m₁ m' fd event → Sheds m m'

theorem Sheds.refl (m : IOManager F C) : Sheds m m := .same rfl rfl

theorem Sheds.handsOver (h : Sheds m m') : HandsOver m m' := by
  induction h with
  | same hcells hscheduled =>
      exact ⟨fun _ _ _ hparked => .inl (hparked.congr (by rw [hcells])), fun _ hentry => hscheduled ▸ hentry⟩
  | takes _ htakes ih => exact ih.trans htakes.handsOver

/-- Nothing is registered. -/
theorem Sheds.clear (h : Sheds m m') {cell : ℕ × Event} (hclear : (m.cells cell).1 = false) :
    (m'.cells cell).1 = false := by
  induction h with
  | same hcells _ => rw [hcells, hclear]
  | @takes m₁ m' fd event _ htakes ih =>
      obtain ⟨-, scheduler, -, hmoves⟩ := htakes
      rw [hmoves.cells]
      by_cases hcell : cell = (fd, event)
      · subst hcell
        rw [Function.update_self]
      · rw [Function.update_of_ne hcell, ih]

/-- Where nothing is registered there is nothing to take. -/
theorem Sheds.of_clear (h : Sheds m m') (hclear : ∀ cell, (m.cells cell).1 = false) :
    m'.cells = m.cells ∧ m'.scheduled = m.scheduled := by
  induction h with
  | same hcells hscheduled => exact ⟨hcells, hscheduled⟩
  | @takes m₁ m' fd event _ htakes ih =>
      have hbit : (m₁.cells (fd, event)).1 = true := htakes.1
      rw [ih.1, hclear] at hbit
      cases hbit

theorem Sheds.takesIf {cond : Bool} {fd : ℕ} {event : Event} (h : Sheds m m') (htakes : TakesIf cond m' m'' fd event) :
    Sheds m m'' := by
  rcases htakes with ⟨-, rfl⟩ | ⟨-, htakes⟩
  · exact h
  · exact .takes h htakes

theorem Sheds.of_takesMask {mask : Events} {fd : ℕ} (h : TakesMask mask { m with epoll := m'.epoll } m' fd) :
    Sheds m m' := by
  obtain ⟨m₁, hread, hwrite⟩ := h
  have hepoll : Sheds m { m with epoll := m'.epoll } := .same rfl rfl
  exact (hepoll.takesIf hread).takesIf hwrite

theorem cancelEvent_sheds {fd : ℕ} {event : Event} {allow : Bool} {r : Bool × IOManager F C}
    (h : m.cancelEvent fd event allow = .ok r) : Sheds m r.2 := by
  rcases cancelEvent_eq_ok h with ⟨rfl, -⟩ | ⟨-, -, htakes⟩
  · exact .refl m
  · exact .takes (.refl m) htakes

theorem cancelAll_sheds {fd : ℕ} {allow : Bool} {r : Bool × IOManager F C} (h : m.cancelAll fd allow = .ok r) :
    Sheds m r.2 := by
  rcases cancelAll_eq_ok h with ⟨rfl, -⟩ | ⟨-, -, -, htakes⟩
  · exact .refl m
  · exact .of_takesMask htakes

theorem dispatch_sheds {fd : ℕ} {report : Report} {allow : Bool} (h : m.dispatch fd report allow = .ok m') :
    Sheds m m' := by
  rcases dispatch_eq_ok h with ⟨rfl, -⟩ | ⟨-, -, htakes⟩
  · exact .refl m'
  · exact .of_takesMask htakes

end Awcotn.IOManager
