import Awcotn.IOManager.Manager
import Mathlib.Algebra.BigOperators.Group.List.Basic
import Mathlib.Tactic.Ring

/-!
# What each operation does to the table

A cell is the bit and the slot of one event of one descriptor. Read cell by cell, the table does not show whether a descriptor's context exists yet, so growing it changes nothing, and every operation either leaves all cells alone or fills or empties the cells of its own descriptor. The lemmas below say this once for each operation, together with what happens to the pending count and the run queues; everything else about the event table is proved from them.
-/

namespace Awcotn.IOManager

variable {F C : Type*} {m m' : IOManager F C}

/-- The context of a descriptor, a new one where the table does not reach. -/
def ctxAt (m : IOManager F C) (fd : ℕ) : FdContext F C := (m.fdContexts[fd]?).getD (.new fd)

/-- The bit and the slot of an event. -/
def cells (m : IOManager F C) (cell : ℕ × Event) : Bool × EventContext F C :=
  ((m.ctxAt cell.1).events.has cell.2, (m.ctxAt cell.1).slot cell.2)

/-- The number of bits set over all contexts. -/
def bits (m : IOManager F C) : ℕ := (m.fdContexts.map fun ctx => ctx.events.count).sum

/-! ### The table -/

theorem ctxAt_of_getElem? {fd : ℕ} {ctx : FdContext F C} (h : m.fdContexts[fd]? = some ctx) : m.ctxAt fd = ctx := by
  simp [ctxAt, h]

theorem registered_eq (m : IOManager F C) (fd : ℕ) (event : Event) :
    m.registered fd event = (m.cells (fd, event)).1 := by
  cases h : m.fdContexts[fd]? <;> simp [registered, cells, ctxAt, h, FdContext.new]

theorem ctxAt_setCtx {fd : ℕ} (ctx : FdContext F C) (h : fd < m.fdContexts.length) :
    (m.setCtx fd ctx).ctxAt = Function.update m.ctxAt fd ctx := by
  funext other
  by_cases heq : other = fd
  · subst heq
    simp [ctxAt, setCtx, h]
  · simp [ctxAt, setCtx, heq, List.getElem?_set_ne (Ne.symm heq)]

theorem sum_count_set (ctxs : List (FdContext F C)) {fd : ℕ} {ctx : FdContext F C} (ctx' : FdContext F C)
    (h : ctxs[fd]? = some ctx) :
    ((ctxs.set fd ctx').map fun c => c.events.count).sum + ctx.events.count =
      (ctxs.map fun c => c.events.count).sum + ctx'.events.count := by
  induction ctxs generalizing fd with
  | nil => simp at h
  | cons c ctxs ih =>
      cases fd with
      | zero =>
          simp only [List.getElem?_cons_zero, Option.some.injEq] at h
          subst h
          simp only [List.set_cons_zero, List.map_cons, List.sum_cons]
          omega
      | succ fd =>
          have hlater : ctxs[fd]? = some ctx := by simpa using h
          have := ih hlater
          simp only [List.set_cons_succ, List.map_cons, List.sum_cons]
          omega

theorem bits_setCtx {fd : ℕ} {ctx : FdContext F C} (ctx' : FdContext F C) (h : m.fdContexts[fd]? = some ctx) :
    (m.setCtx fd ctx').bits + ctx.events.count = m.bits + ctx'.events.count :=
  sum_count_set m.fdContexts ctx' h

/-- A resize that does not cut the table off appends new contexts. -/
theorem contextResize_of_le {size : ℕ} {ctxs : List (FdContext F C)} (h : ctxs.length ≤ size) :
    contextResize size ctxs = ctxs ++ (List.range' ctxs.length (size - ctxs.length)).map FdContext.new := by
  rw [contextResize, List.take_of_length_le h]

theorem ctxAt_append_new (m : IOManager F C) (n : ℕ) :
    ctxAt { m with fdContexts :=
      m.fdContexts ++ (List.range' m.fdContexts.length n).map FdContext.new } = m.ctxAt := by
  funext fd
  simp only [ctxAt]
  by_cases hlt : fd < m.fdContexts.length
  · rw [List.getElem?_append_left hlt]
  · rw [List.getElem?_append_right (by omega), List.getElem?_eq_none (by omega : m.fdContexts.length ≤ fd)]
    by_cases hn : fd - m.fdContexts.length < n
    · simp only [List.getElem?_map, List.getElem?_range' hn]
      simp only [Option.map_some, Option.getD_some, Option.getD_none]
      congr
      omega
    · rw [List.getElem?_eq_none (by simpa using hn)]

theorem bits_append_new (m : IOManager F C) (n : ℕ) :
    bits { m with fdContexts := m.fdContexts ++ (List.range' m.fdContexts.length n).map FdContext.new } = m.bits := by
  simp only [bits, List.map_append, List.sum_append, List.map_map]
  rw [Nat.add_eq_left, List.sum_eq_zero]
  intro n hn
  obtain ⟨fd, -, rfl⟩ := List.mem_map.1 hn
  rfl

/-- The lookup of `addEvent` changes no cell and finds the descriptor's context in the table. -/
theorem lookupGrow_eq_ok {fd : ℕ} {r : FdContext F C × IOManager F C} (h : m.lookupGrow fd = .ok r) :
    r.2.fdContexts[fd]? = some r.1 ∧ r.2.ctxAt = m.ctxAt ∧ r.2.bits = m.bits ∧ r.2.epoll = m.epoll ∧
      r.2.scheduled = m.scheduled ∧ r.2.pendingEventCount = m.pendingEventCount := by
  simp only [lookupGrow] at h
  split at h
  · rename_i ctx hctx
    cases h
    exact ⟨hctx, rfl, rfl, rfl, rfl, rfl⟩
  · rename_i hnone
    have hlen : m.fdContexts.length ≤ fd * 3 / 2 := by
      have := List.getElem?_eq_none_iff.1 hnone
      omega
    rw [contextResize_of_le hlen] at h
    split at h
    · rename_i ctx hctx
      cases h
      exact ⟨hctx, ctxAt_append_new m _, bits_append_new m _, rfl, rfl, rfl⟩
    · cases h

theorem lookupGrow_length {fd : ℕ} {r : FdContext F C × IOManager F C} (h : m.lookupGrow fd = .ok r) :
    m.fdContexts.length ≤ r.2.fdContexts.length := by
  simp only [lookupGrow] at h
  split at h
  · cases h
    exact le_rfl
  · rename_i hnone
    have := List.getElem?_eq_none_iff.1 hnone
    rw [contextResize_of_le (by omega)] at h
    split at h
    · cases h
      simp
    · cases h

/-- The table only ever gets longer, so it always reaches past descriptor one and the lookup of `addEvent` stays inside it. -/
theorem lookupGrow_ne_error {fd : ℕ} (h : 2 ≤ m.fdContexts.length) : ∃ r, m.lookupGrow fd = .ok r := by
  simp only [lookupGrow]
  split
  · exact ⟨_, rfl⟩
  · rename_i hnone
    have hlen := List.getElem?_eq_none_iff.1 hnone
    rw [contextResize_of_le (by omega)]
    have hin : fd < (m.fdContexts ++ (List.range' m.fdContexts.length
        (fd * 3 / 2 - m.fdContexts.length)).map (FdContext.new (F := F) (C := C))).length := by
      simp only [List.length_append, List.length_map, List.length_range']
      omega
    simp only [List.getElem?_eq_getElem hin]
    exact ⟨_, rfl⟩

theorem cells_congr (h : m'.ctxAt = m.ctxAt) : m'.cells = m.cells := by
  funext cell
  simp [cells, h]

/-- Changing the bit and the slot of one event changes one cell. -/
theorem cells_update {fd : ℕ} {event : Event} {ctx' : FdContext F C}
    (h : m'.ctxAt = Function.update m.ctxAt fd ctx')
    (hevents : ∀ other, other ≠ event → ctx'.events.has other = (m.ctxAt fd).events.has other)
    (hslot : ∀ other, other ≠ event → ctx'.slot other = (m.ctxAt fd).slot other) :
    m'.cells = Function.update m.cells (fd, event) (ctx'.events.has event, ctx'.slot event) := by
  funext cell
  obtain ⟨fd', other⟩ := cell
  by_cases hfd : fd' = fd
  · subst hfd
    by_cases hev : other = event
    · subst hev
      simp [cells, h]
    · rw [Function.update_of_ne (by simp [hev])]
      simp [cells, h, hevents other hev, hslot other hev]
  · rw [Function.update_of_ne (by simp [hfd])]
    simp [cells, h, hfd]

/-! ### One cell at a time -/

/-- `m'` is `m` with one cell replaced, the pending count and the number of bits moved by the same amount, and some entries pushed. -/
structure Moves (m m' : IOManager F C) (fd : ℕ) (event : Event) (cell : Bool × EventContext F C) (δ : ℤ)
    (entries : List (SchedulerId × Task F C)) : Prop where
  cells : m'.cells = Function.update m.cells (fd, event) cell
  fds : ∀ other, (m'.ctxAt other).fd = (m.ctxAt other).fd
  pending : m'.pendingEventCount = m.pendingEventCount + δ
  bits : (m'.bits : ℤ) = m.bits + δ
  scheduled : m'.scheduled = m.scheduled ++ entries
  length : m.fdContexts.length ≤ m'.fdContexts.length

/-- `m'` differs from `m` at most in the length of the table. -/
structure Same (m m' : IOManager F C) : Prop where
  ctxAt : m'.ctxAt = m.ctxAt
  epoll : m'.epoll = m.epoll
  pending : m'.pendingEventCount = m.pendingEventCount
  bits : m'.bits = m.bits
  scheduled : m'.scheduled = m.scheduled
  length : m.fdContexts.length ≤ m'.fdContexts.length

theorem Same.refl (m : IOManager F C) : Same m m := ⟨rfl, rfl, rfl, rfl, rfl, le_rfl⟩

theorem Same.cells (h : Same m m') : m'.cells = m.cells := cells_congr h.ctxAt

theorem Moves.of_same {m₁ : IOManager F C} {fd : ℕ} {event : Event} {cell : Bool × EventContext F C} {δ : ℤ}
    {entries : List (SchedulerId × Task F C)} (hsame : Same m m₁) (h : Moves m₁ m' fd event cell δ entries) :
    Moves m m' fd event cell δ entries :=
  ⟨by rw [h.cells, hsame.cells], fun other => by rw [h.fds, hsame.ctxAt], by rw [h.pending, hsame.pending],
    by rw [h.bits, hsame.bits], by rw [h.scheduled, hsame.scheduled], hsame.length.trans h.length⟩

theorem moves_setCtx {m₁ : IOManager F C} {fd : ℕ} {ctx ctx' : FdContext F C} (event : Event) (δ : ℤ)
    (entries : List (SchedulerId × Task F C)) (hctx : m.fdContexts[fd]? = some ctx)
    (htable : m₁.fdContexts = m.fdContexts) (hpending : m₁.pendingEventCount = m.pendingEventCount + δ)
    (hscheduled : m₁.scheduled = m.scheduled ++ entries) (hfd : ctx'.fd = ctx.fd)
    (hevents : ∀ other, other ≠ event → ctx'.events.has other = ctx.events.has other)
    (hslot : ∀ other, other ≠ event → ctx'.slot other = ctx.slot other)
    (hcount : (ctx'.events.count : ℤ) = ctx.events.count + δ) :
    Moves m (m₁.setCtx fd ctx') fd event (ctx'.events.has event, ctx'.slot event) δ entries := by
  have hlt : fd < m₁.fdContexts.length := by
    rw [htable]
    exact (List.getElem?_eq_some_iff.1 hctx).1
  have hat : m₁.ctxAt = m.ctxAt := by
    funext other
    simp [IOManager.ctxAt, htable]
  have hupdate : (m₁.setCtx fd ctx').ctxAt = Function.update m.ctxAt fd ctx' := by rw [ctxAt_setCtx _ hlt, hat]
  have hold := ctxAt_of_getElem? hctx
  refine ⟨cells_update hupdate (by rwa [hold]) (by rwa [hold]), ?_, hpending, ?_, hscheduled, ?_⟩
  · intro other
    rw [hupdate]
    by_cases hother : other = fd
    · subst hother
      rw [Function.update_self, hold, hfd]
    · rw [Function.update_of_ne hother]
  · have hb := bits_setCtx ctx' (htable ▸ hctx : m₁.fdContexts[fd]? = some ctx)
    have hb₁ : m₁.bits = m.bits := by simp [IOManager.bits, htable]
    omega
  · simp [setCtx, htable]

/-! ### The operations -/

/-- The slot `addEvent` leaves behind. -/
def filled (cb : Option C) (caller : Caller F) : EventContext F C :=
  match cb with
  | some c => ⟨caller.scheduler, none, some c⟩
  | none => ⟨caller.scheduler, some caller.fiber, none⟩

private theorem eq_reset_of_unused {slot : EventContext F C}
    (h : ¬ (slot.scheduler.isSome || slot.fiber.isSome || slot.cb.isSome) = true) : slot = .reset := by
  obtain ⟨_ | _, _ | _, _ | _⟩ := slot <;> simp_all [EventContext.reset]

/-- `addEvent` returns 0 after filling the empty cell of its event, and -1 after an `epoll_ctl` failure that changed nothing. -/
theorem addEvent_eq_ok {fd : ℕ} {event : Event} {cb : Option C} {caller : Caller F} {allow : Bool}
    {r : ℤ × IOManager F C} (h : m.addEvent fd event cb caller allow = .ok r) :
    (r.1 = -1 ∧ Same m r.2 ∧ (m.ctxAt fd).events.has event = false ∧
      m.epoll.ctl (addOp (m.ctxAt fd)) fd ((m.ctxAt fd).events.add event) allow = none) ∨
    (r.1 = 0 ∧ event ≠ .NONE ∧ m.cells (fd, event) = (false, .reset) ∧ (cb.isSome ∨ caller.exec) ∧
      m.epoll.ctl (addOp (m.ctxAt fd)) fd ((m.ctxAt fd).events.add event) allow = some r.2.epoll ∧
      Moves m r.2 fd event (true, filled cb caller) 1 []) := by
  simp only [addEvent] at h
  split at h
  · cases h
  rename_i ctx m₁ hlookup
  obtain ⟨hctx, hat, hbits, hepoll, hscheduled, hpending⟩ := lookupGrow_eq_ok hlookup
  dsimp only at hctx hat hbits hepoll hscheduled hpending
  have hold : m.ctxAt fd = ctx := by rw [← hat, ctxAt_of_getElem? hctx]
  have hsame : Same m m₁ := ⟨hat, hepoll, hpending, hbits, hscheduled, lookupGrow_length hlookup⟩
  split at h
  · cases h
  rename_i hnot
  have hfree : ctx.events.has event = false := by simpa using hnot
  rw [hold]
  split at h
  · rename_i hctl
    cases h
    exact .inl ⟨rfl, hsame, hfree, by rwa [← hepoll]⟩
  · rename_i epoll hctl
    simp only [register] at h
    split at h
    · cases h
    rename_i slot hslot
    obtain ⟨hne, rfl⟩ := FdContext.getContext_eq_ok.1 hslot
    split at h
    · cases h
    rename_i hunused
    split at h
    · cases h
    rename_i hexec
    cases h
    have hempty := eq_reset_of_unused hunused
    have hslots : ∀ other, ({ ctx with events := ctx.events.add event } : FdContext F C).slot other = ctx.slot other :=
      fun other => by cases other <;> rfl
    refine .inr ⟨rfl, hne, ?_, ?_, by rw [← hepoll]; exact hctl, ?_⟩
    · simp only [IOManager.cells, hold, hfree]
      rw [← hslots event, hempty]
    · cases cb <;> simp_all
    · refine Moves.of_same hsame ?_
      have hctx' : (({ ctx with events := ctx.events.add event } : FdContext F C).setContext (filled cb caller)
          event).fd = ctx.fd := FdContext.setContext_fd ..
      have htable : ({ m₁ with pendingEventCount := m₁.pendingEventCount + 1, epoll := epoll } :
          IOManager F C).fdContexts = m₁.fdContexts := rfl
      have hmoves := moves_setCtx event 1 [] hctx htable rfl (by simp) hctx'
        (fun other ho => by simp [Events.has_add_of_ne _ ho])
        (fun other ho => by rw [FdContext.slot_setContext_of_ne _ _ ho, hslots])
        (by simp [Events.count_add hfree hne])
      rw [FdContext.setContext_events, FdContext.slot_setContext_self _ _ hne, Events.has_add_self _ hne] at hmoves
      convert hmoves using 2
      rw [hempty]
      cases cb <;> rfl

/-- What ends the process in `addEvent`. -/
theorem addEvent_eq_error {fd : ℕ} {event : Event} {cb : Option C} {caller : Caller F} {allow : Bool} {e : Fault}
    (h : m.addEvent fd event cb caller allow = .error e) :
    e = .outOfRange ∧ m.lookupGrow fd = .error e ∨ e = .addEventRegistered ∧ (m.ctxAt fd).events.has event ∨
      e = .getContext ∧ event = .NONE ∨
      e = .addEventSlotUsed ∧ (m.ctxAt fd).events.has event = false ∧ (m.ctxAt fd).slot event ≠ .reset ∨
      e = .addEventFiberNotExec ∧ cb = none ∧ caller.exec = false := by
  simp only [addEvent] at h
  split at h
  · rename_i e' hlookup
    cases h
    refine .inl ⟨?_, hlookup⟩
    simp only [lookupGrow] at hlookup
    split at hlookup
    · cases hlookup
    split at hlookup
    · cases hlookup
    · exact (Except.error.inj hlookup).symm
  rename_i ctx m₁ hlookup
  obtain ⟨hctx, hat, -⟩ := lookupGrow_eq_ok hlookup
  have hold : m.ctxAt fd = ctx := by rw [← hat, ctxAt_of_getElem? hctx]
  rw [hold]
  split at h
  · rename_i hset
    cases h
    exact .inr (.inl ⟨rfl, hset⟩)
  rename_i hnot
  split at h
  · cases h
  simp only [register] at h
  split at h
  · rename_i e' hget
    cases h
    cases event <;> simp_all [FdContext.getContext]
  rename_i slot hget
  obtain ⟨hne, rfl⟩ := FdContext.getContext_eq_ok.1 hget
  split at h
  · rename_i hused
    cases h
    refine .inr (.inr (.inr (.inl ⟨rfl, by simpa using hnot, ?_⟩)))
    intro hreset
    have hslot : ({ ctx with events := ctx.events.add event } : FdContext F C).slot event = ctx.slot event := by
      cases event <;> rfl
    rw [hslot, hreset] at hused
    simp [EventContext.reset] at hused
  split at h
  · rename_i hexec
    cases h
    exact .inr (.inr (.inr (.inr ⟨rfl, by simpa using hexec⟩)))
  · cases h

/-- `delEvent` returns true after emptying the cell of its event, and false with nothing changed where the event is not registered or `epoll_ctl` fails. -/
theorem delEvent_eq_ok {fd : ℕ} {event : Event} {allow : Bool} {r : Bool × IOManager F C}
    (h : m.delEvent fd event allow = .ok r) :
    (r = (false, m) ∧ ((m.ctxAt fd).events.has event = false ∨
      m.epoll.ctl (leaveOp ((m.ctxAt fd).events.clear event)) fd ((m.ctxAt fd).events.clear event) allow = none)) ∨
    (r.1 = true ∧ (m.ctxAt fd).events.has event ∧
      m.epoll.ctl (leaveOp ((m.ctxAt fd).events.clear event)) fd ((m.ctxAt fd).events.clear event) allow =
        some r.2.epoll ∧
      Moves m r.2 fd event (false, .reset) (-1) []) := by
  simp only [delEvent] at h
  split at h
  · rename_i hnone
    cases h
    exact .inl ⟨rfl, .inl (by simp [ctxAt, hnone, FdContext.new])⟩
  rename_i ctx hctx
  rw [ctxAt_of_getElem? hctx]
  split at h
  · rename_i hnot
    cases h
    exact .inl ⟨rfl, .inl (by simpa using hnot)⟩
  rename_i hset
  have hhas : ctx.events.has event := by simpa using hset
  have hne := Events.ne_none_of_has hhas
  split at h
  · rename_i hctl
    cases h
    exact .inl ⟨rfl, .inr hctl⟩
  rename_i epoll hctl
  split at h
  · cases h
  cases h
  refine .inr ⟨rfl, hhas, hctl, ?_⟩
  have hctx' : (({ ctx with events := ctx.events.clear event } : FdContext F C).setContext .reset event).fd = ctx.fd :=
    FdContext.setContext_fd ..
  have htable : ({ m with pendingEventCount := m.pendingEventCount - 1, epoll := epoll } :
      IOManager F C).fdContexts = m.fdContexts := rfl
  have hmoves := moves_setCtx event (-1) [] hctx htable (by dsimp only; ring) (by simp) hctx'
    (fun other ho => by simp [Events.has_clear_of_ne _ ho])
    (fun other ho => by rw [FdContext.slot_setContext_of_ne _ _ ho]; cases other <;> rfl)
    (by have := Events.count_clear_add hhas; simp; omega)
  rw [FdContext.setContext_events, FdContext.slot_setContext_self _ _ hne, Events.has_clear_self] at hmoves
  exact hmoves

/-- The registration of an event leaves its cell, and what its slot held goes to the run queue of the slot's scheduler. -/
def Takes (m m' : IOManager F C) (fd : ℕ) (event : Event) : Prop :=
  (m.ctxAt fd).events.has event ∧ ∃ scheduler, ((m.ctxAt fd).slot event).scheduler = some scheduler ∧
    Moves m m' fd event (false, ((m.ctxAt fd).slot event).taken) (-1)
      (((m.ctxAt fd).slot event).task.toList.map (Prod.mk scheduler))

/-- A trigger through the table, with the decrement that goes with it. -/
private theorem takes_of_triggerEvent {fd : ℕ} {event : Event} {ctx ctx' : FdContext F C} {m₁ : IOManager F C}
    {entries : List (SchedulerId × Task F C)} (hctx : m.fdContexts[fd]? = some ctx)
    (htrigger : ctx.triggerEvent event = .ok (ctx', entries)) (htable : m₁.fdContexts = m.fdContexts)
    (hpending : m₁.pendingEventCount = m.pendingEventCount - 1)
    (hscheduled : m₁.scheduled = m.scheduled ++ entries) : Takes m (m₁.setCtx fd ctx') fd event := by
  obtain ⟨hhas, scheduler, hs⟩ := FdContext.triggerEvent_eq_ok htrigger
  obtain ⟨ctx'', htrigger', hevents, hfd, hself, hother⟩ := FdContext.triggerEvent_of_has hhas hs
  rw [htrigger] at htrigger'
  cases htrigger'
  rw [Takes, ctxAt_of_getElem? hctx]
  refine ⟨hhas, scheduler, hs, ?_⟩
  have hmoves := moves_setCtx event (-1) _ hctx htable
    (by rw [hpending]; ring) hscheduled hfd (fun other ho => by rw [hevents, Events.has_clear_of_ne _ ho]) hother
    (by rw [hevents]; have := Events.count_clear_add hhas; omega)
  rwa [hself, hevents, Events.has_clear_self] at hmoves

/-- `cancelEvent` returns true after taking the registration of its event, and false with nothing changed where the event is not registered or `epoll_ctl` fails. -/
theorem cancelEvent_eq_ok {fd : ℕ} {event : Event} {allow : Bool} {r : Bool × IOManager F C}
    (h : m.cancelEvent fd event allow = .ok r) :
    (r = (false, m) ∧ ((m.ctxAt fd).events.has event = false ∨
      m.epoll.ctl (leaveOp ((m.ctxAt fd).events.clear event)) fd ((m.ctxAt fd).events.clear event) allow = none)) ∨
    (r.1 = true ∧
      m.epoll.ctl (leaveOp ((m.ctxAt fd).events.clear event)) fd ((m.ctxAt fd).events.clear event) allow =
        some r.2.epoll ∧
      Takes m r.2 fd event) := by
  simp only [cancelEvent] at h
  split at h
  · rename_i hnone
    cases h
    exact .inl ⟨rfl, .inl (by simp [ctxAt, hnone, FdContext.new])⟩
  rename_i ctx hctx
  rw [ctxAt_of_getElem? hctx]
  split at h
  · rename_i hnot
    cases h
    exact .inl ⟨rfl, .inl (by simpa using hnot)⟩
  split at h
  · rename_i hctl
    cases h
    exact .inl ⟨rfl, .inr hctl⟩
  rename_i epoll hctl
  split at h
  · cases h
  rename_i ctx' entries htrigger
  cases h
  exact .inr ⟨rfl, hctl, takes_of_triggerEvent hctx htrigger rfl rfl rfl⟩

theorem fire_eq_ok {fd : ℕ} {event : Event} (h : m.fire fd event = .ok m') :
    m'.epoll = m.epoll ∧ Takes m m' fd event := by
  simp only [fire] at h
  split at h
  · cases h
  rename_i ctx hctx
  split at h
  · cases h
  rename_i ctx' entries htrigger
  cases h
  exact ⟨rfl, takes_of_triggerEvent hctx htrigger rfl rfl rfl⟩

/-- Where the condition holds, the registration of an event is taken; elsewhere nothing happens. -/
def TakesIf (cond : Bool) (m m' : IOManager F C) (fd : ℕ) (event : Event) : Prop :=
  cond = false ∧ m' = m ∨ cond = true ∧ Takes m m' fd event

/-- The registrations of a mask are taken, `READ` first. -/
def TakesMask (mask : Events) (m m' : IOManager F C) (fd : ℕ) : Prop :=
  ∃ m₁, TakesIf mask.read m m₁ fd .READ ∧ TakesIf mask.write m₁ m' fd .WRITE

theorem fireIf_eq_ok {cond : Bool} {fd : ℕ} {event : Event} (h : m.fireIf cond fd event = .ok m') :
    m'.epoll = m.epoll ∧ TakesIf cond m m' fd event := by
  cases cond with
  | false =>
      obtain rfl : m = m' := by simpa [fireIf] using h
      exact ⟨rfl, .inl ⟨rfl, rfl⟩⟩
  | true =>
      obtain ⟨hepoll, htakes⟩ := fire_eq_ok (by simpa [fireIf] using h)
      exact ⟨hepoll, .inr ⟨rfl, htakes⟩⟩

theorem TakesIf.cells_of_ne {cond : Bool} {fd : ℕ} {event : Event} (h : TakesIf cond m m' fd event)
    {cell : ℕ × Event} (hne : cell ≠ (fd, event)) : m'.cells cell = m.cells cell := by
  rcases h with ⟨-, rfl⟩ | ⟨-, -, scheduler, -, hmoves⟩
  · rfl
  · rw [hmoves.cells, Function.update_of_ne hne]

theorem TakesIf.length {cond : Bool} {fd : ℕ} {event : Event} (h : TakesIf cond m m' fd event) :
    m.fdContexts.length ≤ m'.fdContexts.length := by
  rcases h with ⟨-, rfl⟩ | ⟨-, -, scheduler, -, hmoves⟩
  · rfl
  · exact hmoves.length

theorem TakesIf.has_self {cond : Bool} {fd : ℕ} {event : Event} (h : TakesIf cond m m' fd event) :
    (m'.cells (fd, event)).1 = ((m.cells (fd, event)).1 && !cond) := by
  rcases h with ⟨rfl, rfl⟩ | ⟨rfl, -, scheduler, -, hmoves⟩
  · simp
  · simp [hmoves.cells]

/-- A trigger of an event that is registered with a scheduler does not fail. -/
theorem fire_of_has {fd : ℕ} {event : Event} (hhas : (m.ctxAt fd).events.has event)
    (hs : ((m.ctxAt fd).slot event).scheduler.isSome) : ∃ m', m.fire fd event = .ok m' := by
  obtain ⟨scheduler, hs⟩ := Option.isSome_iff_exists.1 hs
  simp only [ctxAt] at hhas hs
  cases hctx : m.fdContexts[fd]? with
  | none => simp [hctx, FdContext.new] at hhas
  | some ctx =>
      simp only [hctx, Option.getD_some] at hhas hs
      obtain ⟨ctx', htrigger, -⟩ := FdContext.triggerEvent_of_has hhas hs
      exact ⟨_, by simp only [fire, hctx, htrigger]; rfl⟩

/-- A conditional trigger returns exactly where there is nothing to trigger or a registration with a scheduler. -/
theorem fireIf_isOk_iff (m : IOManager F C) (cond : Bool) (fd : ℕ) (event : Event) : (∃ m', m.fireIf cond fd event = .ok m') ↔
    (cond → (m.ctxAt fd).events.has event ∧ ((m.ctxAt fd).slot event).scheduler.isSome) := by
  constructor
  · rintro ⟨m', h⟩ hcond
    rcases (fireIf_eq_ok h).2 with ⟨rfl, -⟩ | ⟨-, hhas, scheduler, hs, -⟩
    · cases hcond
    · exact ⟨hhas, by simp [hs]⟩
  · intro h
    cases cond with
    | false => exact ⟨m, rfl⟩
    | true =>
        obtain ⟨hhas, hs⟩ := h rfl
        exact fire_of_has hhas hs

/-- The assertion of `triggerEvent` fails exactly on a clear bit. -/
theorem fire_eq_triggerEvent {fd : ℕ} {event : Event} : m.fire fd event = .error .triggerEvent ↔
    fd < m.fdContexts.length ∧ (m.ctxAt fd).events.has event = false := by
  cases hctx : m.fdContexts[fd]? with
  | none =>
      have hout := List.getElem?_eq_none_iff.1 hctx
      simp only [fire, hctx]
      constructor
      · intro h
        cases h
      · rintro ⟨hin, -⟩
        omega
  | some ctx =>
      have hin := (List.getElem?_eq_some_iff.1 hctx).1
      rw [ctxAt_of_getElem? hctx]
      cases hhas : ctx.events.has event with
      | false => simp only [fire, hctx, FdContext.triggerEvent_of_not_has hhas, hin, and_self]
      | true =>
          have hne := FdContext.triggerEvent_ne_of_has hhas
          simp only [fire, hctx, hin, Bool.true_eq_false, and_false, iff_false]
          split
          · rename_i e htrigger
            intro h
            cases h
            exact hne htrigger
          · simp

theorem fireIf_eq_triggerEvent {cond : Bool} {fd : ℕ} {event : Event} :
    m.fireIf cond fd event = .error .triggerEvent ↔
      cond ∧ fd < m.fdContexts.length ∧ (m.ctxAt fd).events.has event = false := by
  cases cond with
  | false => simp [fireIf]
  | true => simpa [fireIf] using fire_eq_triggerEvent

/-- `cancelAll` returns true after taking every registration of its descriptor, and false with nothing changed where there is none or `epoll_ctl` fails. -/
theorem cancelAll_eq_ok {fd : ℕ} {allow : Bool} {r : Bool × IOManager F C} (h : m.cancelAll fd allow = .ok r) :
    (r = (false, m) ∧ ((m.ctxAt fd).events.any = false ∨ m.epoll.ctl .DEL fd .empty allow = none)) ∨
    (r.1 = true ∧ (m.ctxAt fd).events.any ∧ m.epoll.ctl .DEL fd .empty allow = some r.2.epoll ∧
      TakesMask (m.ctxAt fd).events { m with epoll := r.2.epoll } r.2 fd) := by
  simp only [cancelAll] at h
  split at h
  · rename_i hnone
    cases h
    exact .inl ⟨rfl, .inl (by simp [ctxAt, hnone, FdContext.new])⟩
  rename_i ctx hctx
  have hold := ctxAt_of_getElem? hctx
  split at h
  · rename_i hnot
    cases h
    exact .inl ⟨rfl, .inl (by simpa [hold] using hnot)⟩
  rename_i hany
  split at h
  · rename_i hctl
    cases h
    exact .inl ⟨rfl, .inr hctl⟩
  rename_i epoll hctl
  obtain ⟨m₁, hread, h⟩ := Transition.bind_eq_ok.1 h
  obtain ⟨m₂, hwrite, h⟩ := Transition.bind_eq_ok.1 h
  split at h
  · cases h
  cases h
  obtain ⟨hepoll₁, hread⟩ := fireIf_eq_ok hread
  obtain ⟨hepoll₂, hwrite⟩ := fireIf_eq_ok hwrite
  have hepoll : m₂.epoll = epoll := hepoll₂.trans hepoll₁
  rw [registered_eq, hread.cells_of_ne (by simp)] at hwrite
  rw [registered_eq] at hread
  subst hepoll
  exact .inr ⟨rfl, by simpa only [hold, Bool.not_eq_true', Bool.not_eq_false] using hany, hctl, m₁, hread, hwrite⟩

/-- A dispatch that returns has taken exactly the reported registrations, or has changed nothing because none of them exists or `epoll_ctl` fails. -/
theorem dispatch_eq_ok {fd : ℕ} {report : Report} {allow : Bool} (h : m.dispatch fd report allow = .ok m') :
    (m' = m ∧ (((m.ctxAt fd).events.inter report.realEvents).any = false ∨
      m.epoll.ctl (leaveOp ((m.ctxAt fd).events.diff report.realEvents)) (m.ctxAt fd).fd
        ((m.ctxAt fd).events.diff report.realEvents) allow = none)) ∨
    (((m.ctxAt fd).events.inter report.realEvents).any ∧
      m.epoll.ctl (leaveOp ((m.ctxAt fd).events.diff report.realEvents)) (m.ctxAt fd).fd
        ((m.ctxAt fd).events.diff report.realEvents) allow = some m'.epoll ∧
      TakesMask report.realEvents { m with epoll := m'.epoll } m' fd) := by
  simp only [dispatch] at h
  split at h
  · cases h
  rename_i ctx hctx
  have hold := ctxAt_of_getElem? hctx
  rw [hold]
  split at h
  · rename_i hnone
    cases h
    exact .inl ⟨rfl, .inl (by simpa using hnone)⟩
  rename_i hany
  split at h
  · rename_i hctl
    cases h
    exact .inl ⟨rfl, .inr hctl⟩
  rename_i epoll hctl
  obtain ⟨m₁, hread, hwrite⟩ := Transition.bind_eq_ok.1 h
  obtain ⟨hepoll₁, hread⟩ := fireIf_eq_ok hread
  obtain ⟨hepoll₂, hwrite⟩ := fireIf_eq_ok hwrite
  have hepoll : m'.epoll = epoll := hepoll₂.trans hepoll₁
  subst hepoll
  exact .inr ⟨by simpa only [Bool.not_eq_true', Bool.not_eq_false] using hany, hctl, m₁, hread, hwrite⟩

end Awcotn.IOManager
