import Awcotn.IOManager.Effects

/-!
# Three views of one registration

An event is registered in three places: the bit in the context's mask, the contents of its slot, and the interest set of the kernel. The bit and the slot make up one cell, which is empty or filled. The interest set is a function of the masks, `Events.interest`, and every operation chooses the `epoll_ctl` call that turns the interest of the old mask into that of the new one. So the three views agree after every operation, the kernel never refuses a call for its choice of `ADD`, `MOD` or `DEL`, and a call it refuses for another reason has changed nothing yet.

Callers of `addEvent` are assumed to run under a scheduler.
-/

namespace Awcotn

/-- What the kernel holds for a descriptor with a given mask. -/
def Events.interest (events : Events) : Option Events := if events.any then some events else none

theorem Events.has_iff_interest (events : Events) (event : Event) :
    events.has event ↔ ∃ mask, events.interest = some mask ∧ mask.has event := by
  cases hany : events.any with
  | true => simp [interest, hany]
  | false =>
      obtain rfl := any_eq_false.1 hany
      simp [interest, hany]

/-- A slot with a scheduler and either a fiber or a callback. -/
def EventContext.Filled {F C : Type*} (slot : EventContext F C) : Prop :=
  slot.scheduler.isSome ∧ (slot.fiber.isSome ≠ slot.cb.isSome)

namespace IOManager

open Transition

variable {F C : Type*} {m m' : IOManager F C}

/-- The mask of every descriptor. -/
def masks (m : IOManager F C) (fd : ℕ) : Events := (m.ctxAt fd).events

/-! ### Masks and the interest set -/

theorem masks_update {fd : ℕ} {events : Events} (hself : ∀ event, (m'.cells (fd, event)).1 = events.has event)
    (hother : ∀ other event, other ≠ fd → m'.cells (other, event) = m.cells (other, event)) :
    m'.masks = Function.update m.masks fd events := by
  have hext : ∀ {e e' : Events}, (∀ event, e.has event = e'.has event) → e = e' := by
    rintro ⟨_, _⟩ ⟨_, _⟩ h
    obtain rfl := h .READ
    obtain rfl := h .WRITE
    rfl
  funext other
  by_cases heq : other = fd
  · subst heq
    rw [Function.update_self]
    exact hext hself
  · rw [Function.update_of_ne heq]
    exact hext fun event => congrArg Prod.fst (hother other event heq)

theorem Moves.masks_add {fd : ℕ} {event : Event} {slot : EventContext F C} {δ : ℤ}
    {entries : List (SchedulerId × Task F C)} (h : Moves m m' fd event (true, slot) δ entries) (hne : event ≠ .NONE) :
    m'.masks = Function.update m.masks fd ((m.masks fd).add event) := by
  refine masks_update (fun other => ?_) (fun fd' other hfd => ?_)
  · by_cases heq : other = event
    · subst heq
      rw [h.cells, Function.update_self, Events.has_add_self _ hne]
    · rw [h.cells, Function.update_of_ne (by simp [heq]), Events.has_add_of_ne _ heq]
      rfl
  · rw [h.cells, Function.update_of_ne (by simp [hfd])]

theorem Moves.masks_clear {fd : ℕ} {event : Event} {slot : EventContext F C} {δ : ℤ}
    {entries : List (SchedulerId × Task F C)} (h : Moves m m' fd event (false, slot) δ entries) :
    m'.masks = Function.update m.masks fd ((m.masks fd).clear event) := by
  refine masks_update (fun other => ?_) (fun fd' other hfd => ?_)
  · by_cases heq : other = event
    · subst heq
      rw [h.cells, Function.update_self, Events.has_clear_self]
    · rw [h.cells, Function.update_of_ne (by simp [heq]), Events.has_clear_of_ne _ heq]
      rfl
  · rw [h.cells, Function.update_of_ne (by simp [hfd])]

theorem TakesMask.masks_diff {mask : Events} {fd : ℕ} (h : TakesMask mask m m' fd) :
    m'.masks = Function.update m.masks fd ((m.masks fd).diff mask) := by
  obtain ⟨m₁, hread, hwrite⟩ := h
  refine masks_update (fun event => ?_) (fun fd' event hfd => ?_)
  · cases event with
    | NONE => rfl
    | READ => rw [hwrite.cells_of_ne (by simp), hread.has_self]; rfl
    | WRITE => rw [hwrite.has_self, hread.cells_of_ne (by simp)]; rfl
  · rw [hwrite.cells_of_ne (by simp [hfd]), hread.cells_of_ne (by simp [hfd])]

theorem ctl_eq_some {epoll epoll' : Epoll} {op : EpollOp} {fd : ℕ} {mask : Events} {allow : Bool}
    (h : epoll.ctl op fd mask allow = some epoll') : epoll' = epoll.apply op fd mask := by
  simp only [Epoll.ctl] at h
  split at h
  · exact (Option.some.inj h).symm
  · cases h

theorem apply_leaveOp (epoll : Epoll) (fd : ℕ) (events : Events) :
    epoll.apply (leaveOp events) fd events = Function.update epoll fd events.interest := by
  cases h : events.any <;> simp [leaveOp, Epoll.apply, Events.interest, h]

theorem apply_addOp (epoll : Epoll) (fd : ℕ) (ctx : FdContext F C) {event : Event} (h : event ≠ .NONE) :
    epoll.apply (addOp ctx) fd (ctx.events.add event) =
      Function.update epoll fd (ctx.events.add event).interest := by
  have hany : (ctx.events.add event).any := by cases event <;> simp_all [Events.add, Events.any]
  cases hctx : ctx.events.any <;> simp [addOp, Epoll.apply, Events.interest, hctx, hany]

/-! ### The invariant -/

/-- A cell is filled or empty. -/
def CellOk (cell : Bool × EventContext F C) : Prop :=
  cell.1 = true ∧ cell.2.Filled ∨ cell.1 = false ∧ cell.2 = .reset

/-- Every cell is filled or empty, the kernel holds what the masks say, and the table is indexed by its descriptors. -/
structure Wf (m : IOManager F C) : Prop where
  cell : ∀ cell, CellOk (m.cells cell)
  kernel : m.epoll = Events.interest ∘ m.masks
  indexed : ∀ fd, (m.ctxAt fd).fd = fd
  length : 32 ≤ m.fdContexts.length

theorem Wf.of_same (hm : Wf m) (h : Same m m') : Wf m' :=
  ⟨by rw [h.cells]; exact hm.cell, by rw [h.epoll, hm.kernel]; funext fd; simp [masks, h.ctxAt],
    fun fd => by rw [h.ctxAt, hm.indexed], hm.length.trans h.length⟩

/-- A filled slot is empty after its task has been taken. -/
theorem taken_eq_reset {slot : EventContext F C} (h : slot.Filled) : slot.taken = .reset := by
  obtain ⟨-, h⟩ := h
  obtain ⟨_, _ | _, _ | _⟩ := slot <;> simp_all [EventContext.taken, EventContext.reset]

theorem filled_cell {cb : Option C} {caller : Caller F} (h : caller.scheduler.isSome) :
    CellOk (true, filled cb caller) := by
  refine .inl ⟨rfl, ?_, ?_⟩
  · cases cb <;> exact h
  · cases cb <;> simp [filled]

theorem Moves.cell {fd : ℕ} {event : Event} {cell : Bool × EventContext F C} {δ : ℤ}
    {entries : List (SchedulerId × Task F C)} (h : Moves m m' fd event cell δ entries) (hm : ∀ cell, CellOk (m.cells cell))
    (hcell : CellOk cell) : ∀ cell, CellOk (m'.cells cell) := by
  intro other
  rw [h.cells]
  by_cases heq : other = (fd, event)
  · rwa [heq, Function.update_self]
  · rw [Function.update_of_ne heq]
    exact hm other

theorem TakesIf.cell {cond : Bool} {fd : ℕ} {event : Event} (h : TakesIf cond m m' fd event)
    (hm : ∀ cell, CellOk (m.cells cell)) : ∀ cell, CellOk (m'.cells cell) := by
  rcases h with ⟨-, rfl⟩ | ⟨-, hhas, scheduler, -, hmoves⟩
  · exact hm
  · refine hmoves.cell hm (.inr ⟨rfl, ?_⟩)
    rcases hm (fd, event) with ⟨-, hfilled⟩ | ⟨hclear, -⟩
    · exact taken_eq_reset hfilled
    · exact absurd (hhas.symm.trans hclear) (by simp)

theorem TakesIf.fds {cond : Bool} {fd : ℕ} {event : Event} (h : TakesIf cond m m' fd event) (other : ℕ) :
    (m'.ctxAt other).fd = (m.ctxAt other).fd := by
  rcases h with ⟨-, rfl⟩ | ⟨-, -, scheduler, -, hmoves⟩
  · rfl
  · exact hmoves.fds other

/-- Taking the registrations of a mask, with the `epoll_ctl` call for what is left. -/
theorem Wf.takesMask {mask : Events} {fd : ℕ} (hm : Wf m)
    (hepoll : m'.epoll = Function.update m.epoll fd ((m.masks fd).diff mask).interest)
    (h : TakesMask mask { m with epoll := m'.epoll } m' fd) : Wf m' := by
  have hmasks := h.masks_diff
  obtain ⟨m₁, hread, hwrite⟩ := h
  refine ⟨hwrite.cell (hread.cell hm.cell), ?_, fun other => ?_, hm.length.trans (hread.length.trans hwrite.length)⟩
  · rw [hepoll, hm.kernel, hmasks, Function.comp_update]
    rfl
  · rw [hwrite.fds, hread.fds]
    exact hm.indexed other

theorem ctxAt_init : (init : IOManager F C).ctxAt = FdContext.new := ctxAt_append_new ⟨[], 0, fun _ => none, []⟩ 32

theorem cells_init : (init : IOManager F C).cells = fun _ => (false, .reset) := by
  funext cell
  obtain ⟨fd, _ | _ | _⟩ := cell <;> simp only [cells, ctxAt_init] <;> rfl

theorem wf_init : Wf (init : IOManager F C) := by
  have hmasks : (init : IOManager F C).masks = fun _ => .empty := by
    funext fd
    simp only [masks, ctxAt_init]
    rfl
  refine ⟨fun cell => ?_, ?_, fun fd => by rw [ctxAt_init]; rfl, by simp [init, contextResize]⟩
  · rw [cells_init]
    exact .inr ⟨rfl, rfl⟩
  · rw [hmasks]
    rfl

/-! ### The operations keep it -/

theorem Wf.addEvent {fd : ℕ} {event : Event} {cb : Option C} {caller : Caller F} {allow : Bool}
    {r : ℤ × IOManager F C} (hm : Wf m) (hcaller : caller.scheduler.isSome)
    (h : m.addEvent fd event cb caller allow = .ok r) : Wf r.2 := by
  rcases addEvent_eq_ok h with ⟨-, hsame, -⟩ | ⟨-, hne, -, -, hctl, hmoves⟩
  · exact hm.of_same hsame
  · refine ⟨hmoves.cell hm.cell (filled_cell hcaller), ?_, fun other => by rw [hmoves.fds, hm.indexed],
      hm.length.trans hmoves.length⟩
    rw [ctl_eq_some hctl, apply_addOp _ _ _ hne, hm.kernel, hmoves.masks_add hne, Function.comp_update]
    rfl

theorem Wf.delEvent {fd : ℕ} {event : Event} {allow : Bool} {r : Bool × IOManager F C} (hm : Wf m)
    (h : m.delEvent fd event allow = .ok r) : Wf r.2 := by
  rcases delEvent_eq_ok h with ⟨rfl, -⟩ | ⟨-, -, hctl, hmoves⟩
  · exact hm
  · refine ⟨hmoves.cell hm.cell (.inr ⟨rfl, rfl⟩), ?_, fun other => by rw [hmoves.fds, hm.indexed],
      hm.length.trans hmoves.length⟩
    rw [ctl_eq_some hctl, apply_leaveOp, hm.kernel, hmoves.masks_clear, Function.comp_update]
    rfl

theorem Wf.cancelEvent {fd : ℕ} {event : Event} {allow : Bool} {r : Bool × IOManager F C} (hm : Wf m)
    (h : m.cancelEvent fd event allow = .ok r) : Wf r.2 := by
  rcases cancelEvent_eq_ok h with ⟨rfl, -⟩ | ⟨-, hctl, hhas, scheduler, hs, hmoves⟩
  · exact hm
  · have htakes : TakesIf true m r.2 fd event := .inr ⟨rfl, hhas, scheduler, hs, hmoves⟩
    refine ⟨htakes.cell hm.cell, ?_, fun other => by rw [hmoves.fds, hm.indexed], hm.length.trans hmoves.length⟩
    rw [ctl_eq_some hctl, apply_leaveOp, hm.kernel, hmoves.masks_clear, Function.comp_update]
    rfl

theorem Wf.cancelAll {fd : ℕ} {allow : Bool} {r : Bool × IOManager F C} (hm : Wf m)
    (h : m.cancelAll fd allow = .ok r) : Wf r.2 := by
  rcases cancelAll_eq_ok h with ⟨rfl, -⟩ | ⟨-, -, hctl, htakes⟩
  · exact hm
  · refine hm.takesMask ?_ htakes
    have hnone : ((m.masks fd).diff (m.ctxAt fd).events).interest = none := by
      simp [masks, Events.diff, Events.interest, Events.any]
    rw [ctl_eq_some hctl, hnone]
    rfl

theorem Wf.dispatch {fd : ℕ} {report : Report} {allow : Bool} (hm : Wf m)
    (h : m.dispatch fd report allow = .ok m') : Wf m' := by
  rcases dispatch_eq_ok h with ⟨rfl, -⟩ | ⟨-, hctl, htakes⟩
  · exact hm
  · refine hm.takesMask ?_ htakes
    rw [ctl_eq_some hctl, hm.indexed, apply_leaveOp]
    rfl

/-- `addEvent` is called from threads that have a current scheduler. -/
def Action.UnderScheduler : Action F C → Prop
  | .addEvent _ _ _ caller _ => caller.scheduler.isSome
  | _ => True

theorem step_wf {s t : State F C} {a : Action F C} (hs : Wf s.io) (ha : a.UnderScheduler)
    (h : step s a = .next t) : Wf t.io := by
  cases a with
  | addEvent fd event cb caller allow =>
      obtain ⟨r, hr, rfl⟩ := map_eq_ok (Outcome.ofExcept_eq_next.1 h)
      exact hs.addEvent ha hr
  | delEvent fd event allow =>
      obtain ⟨r, hr, rfl⟩ := map_eq_ok (Outcome.ofExcept_eq_next.1 h)
      exact hs.delEvent hr
  | cancelEvent fd event allow =>
      obtain ⟨r, hr, rfl⟩ := map_eq_ok (Outcome.ofExcept_eq_next.1 h)
      exact hs.cancelEvent hr
  | cancelAll fd allow =>
      obtain ⟨r, hr, rfl⟩ := map_eq_ok (Outcome.ofExcept_eq_next.1 h)
      exact hs.cancelAll hr
  | wait reports =>
      simp only [step] at h
      split at h
      · cases h
        exact hs
      · cases h
  | dispatch i allow =>
      simp only [step] at h
      split at h
      · cases h
      obtain ⟨io, hio, rfl⟩ := map_eq_ok (Outcome.ofExcept_eq_next.1 h)
      exact hs.dispatch hio

/-! ### What the invariant says -/

/-- The bit of an event, the contents of its slot and the kernel's interest agree, and the slot of a clear bit is empty. -/
structure Consistent (m : IOManager F C) : Prop where
  slot_iff : ∀ fd event, event ≠ .NONE → ((m.ctxAt fd).events.has event ↔ ((m.ctxAt fd).slot event).Filled)
  kernel_iff : ∀ fd event, event ≠ .NONE →
    ((m.ctxAt fd).events.has event ↔ ∃ mask, m.epoll fd = some mask ∧ mask.has event)
  empty_of_clear : ∀ fd event, (m.ctxAt fd).events.has event = false → (m.ctxAt fd).slot event = .reset

/-- The kernel accepts the operation of every `epoll_ctl` call the code can make. -/
structure ChoicesAccepted (m : IOManager F C) : Prop where
  addEvent : ∀ fd, m.epoll.accepts (addOp (m.ctxAt fd)) fd
  leave : ∀ fd event, (m.ctxAt fd).events.has event →
    m.epoll.accepts (leaveOp ((m.ctxAt fd).events.clear event)) fd
  cancelAll : ∀ fd, (m.ctxAt fd).events.any → m.epoll.accepts .DEL fd
  dispatch : ∀ fd realEvents, ((m.ctxAt fd).events.inter realEvents).any →
    m.epoll.accepts (leaveOp ((m.ctxAt fd).events.diff realEvents)) (m.ctxAt fd).fd

/-- An operation whose `epoll_ctl` call fails reports failure and changes nothing. -/
structure RefusalsClean (m : IOManager F C) : Prop where
  addEvent : ∀ fd event cb caller, (m.ctxAt fd).events.has event = false →
    ∃ m', m.addEvent fd event cb caller false = .ok (-1, m') ∧ Same m m'
  delEvent : ∀ fd event, m.delEvent fd event false = .ok (false, m)
  cancelEvent : ∀ fd event, m.cancelEvent fd event false = .ok (false, m)
  cancelAll : ∀ fd, m.cancelAll fd false = .ok (false, m)
  dispatch : ∀ fd report, fd < m.fdContexts.length → m.dispatch fd report false = .ok m

theorem Wf.consistent (hm : Wf m) : Consistent m := by
  refine ⟨fun fd event hne => ?_, fun fd event hne => ?_, fun fd event hclear => ?_⟩
  · rcases hm.cell (fd, event) with ⟨hset, hfilled⟩ | ⟨hclear, hempty⟩
    · exact iff_of_true hset hfilled
    · dsimp only [cells] at hclear hempty
      rw [hclear, hempty]
      simp [EventContext.Filled, EventContext.reset]
  · rw [hm.kernel]
    exact Events.has_iff_interest (m.ctxAt fd).events event
  · rcases hm.cell (fd, event) with ⟨hset, -⟩ | ⟨-, hempty⟩
    · exact absurd (hset.symm.trans hclear) (by simp)
    · exact hempty

theorem any_of_has {events : Events} {event : Event} (h : events.has event) : events.any := by
  cases event <;> simp_all [Events.has, Events.any]

theorem Wf.isSome_epoll (hm : Wf m) (fd : ℕ) : (m.epoll fd).isSome = (m.ctxAt fd).events.any := by
  rw [hm.kernel]
  cases hany : (m.ctxAt fd).events.any <;> simp [Events.interest, masks, hany]

theorem Wf.accepts_leaveOp (hm : Wf m) {fd : ℕ} (h : (m.ctxAt fd).events.any) (left : Events) :
    m.epoll.accepts (leaveOp left) fd := by
  have hsome := hm.isSome_epoll fd
  cases hleft : left.any <;> simp [leaveOp, Epoll.accepts, hleft, hsome, h]

theorem Wf.choicesAccepted (hm : Wf m) : ChoicesAccepted m := by
  refine ⟨fun fd => ?_, fun fd event h => ?_, fun fd h => ?_, fun fd realEvents h => ?_⟩
  · have hsome := hm.isSome_epoll fd
    by_cases hany : (m.ctxAt fd).events.any = true
    · rw [addOp, if_pos hany, Epoll.accepts, hsome, hany]
    · rw [addOp, if_neg hany, Epoll.accepts, ← Option.not_isSome, hsome]
      simpa using hany
  · exact hm.accepts_leaveOp (any_of_has h) _
  · rw [Epoll.accepts, hm.isSome_epoll, h]
  · rw [hm.indexed]
    refine hm.accepts_leaveOp ?_ _
    revert h
    rcases (m.ctxAt fd).events with ⟨_ | _, _ | _⟩ <;> simp [Events.inter, Events.any]

theorem ctl_refused (epoll : Epoll) (op : EpollOp) (fd : ℕ) (mask : Events) : epoll.ctl op fd mask false = none := by
  simp [Epoll.ctl]

/-- A table is never so small that the table for a new descriptor leaves the descriptor out. -/
theorem Wf.lookupGrow_isOk (hm : Wf m) (fd : ℕ) : ∃ r, m.lookupGrow fd = .ok r := by
  have := hm.length
  exact lookupGrow_ne_error (by omega)

theorem Wf.refusalsClean (hm : Wf m) : RefusalsClean m := by
  refine ⟨fun fd event cb caller hclear => ?_, fun fd event => ?_, fun fd event => ?_, fun fd => ?_,
    fun fd report hin => ?_⟩
  · obtain ⟨⟨ctx, m₁⟩, hlookup⟩ := hm.lookupGrow_isOk fd
    obtain ⟨hctx, hat, hbits, hepoll, hscheduled, hpending⟩ := lookupGrow_eq_ok hlookup
    have hold : m.ctxAt fd = ctx := by rw [← hat, ctxAt_of_getElem? hctx]
    refine ⟨m₁, ?_, hat, hepoll, hpending, hbits, hscheduled, lookupGrow_length hlookup⟩
    simp [IOManager.addEvent, hlookup, ← hold, hclear, ctl_refused]
  · simp only [IOManager.delEvent, ctl_refused]
    split <;> simp
  · simp only [IOManager.cancelEvent, ctl_refused]
    split <;> simp
  · simp only [IOManager.cancelAll, ctl_refused]
    split <;> simp
  · simp only [IOManager.dispatch, ctl_refused, List.getElem?_eq_getElem hin]
    simp

/-- In every state of every run under schedulers the three views agree, so that the slot `addEvent` fills is unused, no `epoll_ctl` call is refused for its operation and a refused one leaves everything as it was. -/
theorem registration_consistent (acts : List (Action F C)) (h : Along step (fun _ a => a.UnderScheduler) start acts) :
    Throughout step (fun s => Consistent s.io ∧ ChoicesAccepted s.io ∧ RefusalsClean s.io ∧
      ∀ fd event cb caller allow, s.io.addEvent fd event cb caller allow ≠ .error .addEventSlotUsed) start acts := by
  have hwf := (throughout_of_along (I := fun s : State F C => Wf s.io) (fun s a t hs ha ht => step_wf hs ha ht)
    wf_init h).1
  refine hwf.mono fun s hs => ⟨hs.consistent, hs.choicesAccepted, hs.refusalsClean, ?_⟩
  intro fd event cb caller allow herr
  rcases addEvent_eq_error herr with ⟨h, -⟩ | ⟨h, -⟩ | ⟨h, -⟩ | ⟨-, hclear, hused⟩ | ⟨h, -⟩
  · cases h
  · cases h
  · cases h
  · exact hused (hs.consistent.empty_of_clear fd event hclear)
  · cases h

theorem registration_consistent_cancelled :
    Throughout step (fun s : State ℕ ℕ => Consistent s.io ∧ ChoicesAccepted s.io ∧ RefusalsClean s.io ∧
      ∀ fd event cb caller allow, s.io.addEvent fd event cb caller allow ≠ .error .addEventSlotUsed) start
      [.addEvent 5 .READ (some 0) ⟨some 0, 0, true⟩ true, .cancelEvent 5 .READ true] :=
  registration_consistent _ ⟨rfl, trivial, trivial⟩

end IOManager

end Awcotn
