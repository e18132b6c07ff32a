import Mathlib.Tactic.Common

/-!
# Descriptor contexts

`IOManager::FdContext` of `iomanager.cc`: the events registered for one descriptor, as a bit mask and one slot for each direction. A slot is filled by `addEvent` and emptied either by `resetContext` or by `triggerEvent`, which moves what it holds into the queue of the slot's scheduler: `schedule` is handed a pointer and `FiberAndThread` swaps the pointee out.

The types of fibers and callbacks are parameters. Nothing in the component looks inside them.
-/

namespace Awcotn

/-- `IOManager::Event`. -/
inductive Event
  | NONE
  | READ
  | WRITE
  deriving DecidableEq

/-- A mask of events: the values `Event` takes as a bit set. -/
structure Events where
  read : Bool
  write : Bool
  deriving DecidableEq

namespace Events

def empty : Events := ⟨false, false⟩

/-- `events & event`. -/
def has (events : Events) : Event → Bool
  | .NONE => false
  | .READ => events.read
  | .WRITE => events.write

/-- `events | event`. -/
def add (events : Events) : Event → Events
  | .NONE => events
  | .READ => { events with read := true }
  | .WRITE => { events with write := true }

/-- `events & ~event`. -/
def clear (events : Events) : Event → Events
  | .NONE => events
  | .READ => { events with read := false }
  | .WRITE => { events with write := false }

/-- `events & other`. -/
def inter (events other : Events) : Events := ⟨events.read && other.read, events.write && other.write⟩

/-- `events & ~other`. -/
def diff (events other : Events) : Events := ⟨events.read && !other.read, events.write && !other.write⟩

/-- Some bit is set. -/
def any (events : Events) : Bool := events.read || events.write

/-- The number of bits set. -/
def count (events : Events) : ℕ := events.read.toNat + events.write.toNat

/-- Every bit of `events` is a bit of `other`. -/
def Subset (events other : Events) : Prop :=
  (events.read → other.read) ∧ (events.write → other.write)

instance (events other : Events) : Decidable (events.Subset other) :=
  inferInstanceAs (Decidable (_ ∧ _))

theorem count_clear_add {events : Events} {event : Event} (h : events.has event) :
    (events.clear event).count + 1 = events.count := by
  cases event <;> simp_all [has, clear, count]
  omega

theorem count_add {events : Events} {event : Event} (h : events.has event = false) (hne : event ≠ .NONE) :
    (events.add event).count = events.count + 1 := by
  cases event <;> simp_all [has, add, count]
  omega

theorem has_clear_self (events : Events) (event : Event) : (events.clear event).has event = false := by
  cases event <;> rfl

theorem has_clear_of_ne (events : Events) {event other : Event} (h : other ≠ event) :
    (events.clear event).has other = events.has other := by
  cases event <;> cases other <;> simp_all [clear, has]

theorem has_add_self (events : Events) {event : Event} (h : event ≠ .NONE) : (events.add event).has event := by
  cases event <;> simp_all [add, has]

theorem has_add_of_ne (events : Events) {event other : Event} (h : other ≠ event) :
    (events.add event).has other = events.has other := by
  cases event <;> cases other <;> simp_all [add, has]

@[simp] theorem has_empty (event : Event) : empty.has event = false := by
  cases event <;> rfl

theorem ne_none_of_has {events : Events} {event : Event} (h : events.has event) : event ≠ .NONE := by
  rintro rfl
  simp [has] at h

@[simp] theorem any_eq_false {events : Events} : events.any = false ↔ events = empty := by
  obtain ⟨_ | _, _ | _⟩ := events <;> simp [any, empty]

end Events

/-- A scheduler, by identity. -/
abbrev SchedulerId := ℕ

/-- `FdContext::EventContext`. -/
structure EventContext (F C : Type*) where
  scheduler : Option SchedulerId
  fiber : Option F
  cb : Option C
  deriving DecidableEq

/-- What `triggerEvent` puts into a run queue. -/
inductive Task (F C : Type*)
  | fiber (f : F)
  | cb (c : C)
  deriving DecidableEq

/-- The assertions of `iomanager.cc`, and the two ways its code leaves defined behaviour. -/
inductive Fault
  | getContext
  | triggerEvent
  | addEventRegistered
  | addEventSlotUsed
  | addEventFiberNotExec
  | cancelAllEventsLeft
  | nullScheduler
  | outOfRange
  deriving DecidableEq

/-- `IOManager::FdContext`. -/
structure FdContext (F C : Type*) where
  read : EventContext F C
  write : EventContext F C
  fd : ℕ
  events : Events
  deriving DecidableEq

variable {F C : Type*}

/-- `resetContext` of a slot, and the slot of a new context. -/
def EventContext.reset : EventContext F C := ⟨none, none, none⟩

/-- What a slot holds to be run: a callback if it has one, else the fiber. -/
def EventContext.task (slot : EventContext F C) : Option (Task F C) :=
  match slot.cb with
  | some c => some (.cb c)
  | none => slot.fiber.map .fiber

/-- A slot after `triggerEvent` has swapped its task into the queue. -/
def EventContext.taken (slot : EventContext F C) : EventContext F C :=
  { scheduler := none, fiber := if slot.cb.isSome then slot.fiber else none, cb := none }

namespace FdContext

/-- `new FdContext` with its descriptor set. -/
def new (fd : ℕ) : FdContext F C := ⟨.reset, .reset, fd, .empty⟩

/-- `FdContext::getContext`, which asserts that the event is one of the two. -/
def getContext (ctx : FdContext F C) : Event → Except Fault (EventContext F C)
  | .NONE => .error .getContext
  | .READ => .ok ctx.read
  | .WRITE => .ok ctx.write

/-- Write through the reference `getContext` returned. -/
def setContext (ctx : FdContext F C) (slot : EventContext F C) : Event → FdContext F C
  | .NONE => ctx
  | .READ => { ctx with read := slot }
  | .WRITE => { ctx with write := slot }

/-- `FdContext::triggerEvent`: the context afterwards and the entry that `schedule` pushes, if the slot held one. -/
def triggerEvent (ctx : FdContext F C) (event : Event) :
    Except Fault (FdContext F C × List (SchedulerId × Task F C)) :=
  if ctx.events.has event then
    match ctx.getContext event with
    | .error e => .error e
    | .ok slot =>
      let ctx := { ctx with events := ctx.events.clear event }
      match slot.scheduler with
      | none => .error .nullScheduler
      | some scheduler =>
        match slot.cb with
        | some c =>
          .ok (ctx.setContext { slot with cb := none, scheduler := none } event, [(scheduler, .cb c)])
        | none =>
          .ok (ctx.setContext { slot with fiber := none, scheduler := none } event,
            slot.fiber.toList.map fun f => (scheduler, .fiber f))
  else .error .triggerEvent

/-! ### Slots -/

/-- The slot of an event, for the two events that have one. -/
def slot (ctx : FdContext F C) : Event → EventContext F C
  | .NONE => .reset
  | .READ => ctx.read
  | .WRITE => ctx.write

theorem getContext_eq_ok {ctx : FdContext F C} {event : Event} {slot : EventContext F C} :
    ctx.getContext event = .ok slot ↔ event ≠ .NONE ∧ slot = ctx.slot event := by
  cases event <;> simp [getContext, FdContext.slot, eq_comm]

@[simp] theorem setContext_events (ctx : FdContext F C) (slot : EventContext F C) (event : Event) :
    (ctx.setContext slot event).events = ctx.events := by
  cases event <;> rfl

@[simp] theorem setContext_fd (ctx : FdContext F C) (slot : EventContext F C) (event : Event) :
    (ctx.setContext slot event).fd = ctx.fd := by
  cases event <;> rfl

theorem slot_setContext_self (ctx : FdContext F C) (slot : EventContext F C) {event : Event}
    (h : event ≠ .NONE) : (ctx.setContext slot event).slot event = slot := by
  cases event <;> simp_all [setContext, FdContext.slot]

theorem slot_setContext_of_ne (ctx : FdContext F C) (slot : EventContext F C) {event other : Event}
    (h : other ≠ event) : (ctx.setContext slot event).slot other = ctx.slot other := by
  cases event <;> cases other <;> simp_all [setContext, FdContext.slot]

/-! ### What a trigger does -/

/-- The error path of the assertion: the event is not registered. -/
theorem triggerEvent_of_not_has {ctx : FdContext F C} {event : Event} (h : ctx.events.has event = false) :
    ctx.triggerEvent event = .error .triggerEvent := by
  simp [triggerEvent, h]

/-- A trigger of a registered event clears its bit, empties its slot and hands over what the slot held, with nothing else changed. -/
theorem triggerEvent_of_has {ctx : FdContext F C} {event : Event} {scheduler : SchedulerId}
    (h : ctx.events.has event) (hs : (ctx.slot event).scheduler = some scheduler) :
    ∃ ctx', ctx.triggerEvent event = .ok (ctx', (ctx.slot event).task.toList.map (Prod.mk scheduler)) ∧
      ctx'.events = ctx.events.clear event ∧ ctx'.fd = ctx.fd ∧
      ctx'.slot event = (ctx.slot event).taken ∧ ∀ other, other ≠ event → ctx'.slot other = ctx.slot other := by
  have hne := Events.ne_none_of_has h
  have hget : ctx.getContext event = .ok (ctx.slot event) := getContext_eq_ok.2 ⟨hne, rfl⟩
  have hother : ∀ slot other, other ≠ event →
      ({ ctx with events := ctx.events.clear event }.setContext slot event).slot other = ctx.slot other := by
    intro slot other ho
    rw [slot_setContext_of_ne _ _ ho]
    cases other <;> rfl
  cases hcb : (ctx.slot event).cb with
  | some c =>
      refine ⟨{ ctx with events := ctx.events.clear event }.setContext
        { ctx.slot event with cb := none, scheduler := none } event, ?_, setContext_events .., setContext_fd .., ?_,
        hother _⟩
      · simp [triggerEvent, h, hget, hs, hcb, EventContext.task]
      · rw [slot_setContext_self _ _ hne]
        simp [EventContext.taken, hcb]
  | none =>
      refine ⟨{ ctx with events := ctx.events.clear event }.setContext
        { ctx.slot event with fiber := none, scheduler := none } event, ?_, setContext_events .., setContext_fd .., ?_,
        hother _⟩
      · cases hf : (ctx.slot event).fiber <;> simp [triggerEvent, h, hget, hs, hcb, hf, EventContext.task]
      · rw [slot_setContext_self _ _ hne]
        simp [EventContext.taken, hcb]

theorem triggerEvent_ne_of_has {ctx : FdContext F C} {event : Event} (h : ctx.events.has event) :
    ctx.triggerEvent event ≠ .error .triggerEvent := by
  have hget : ctx.getContext event = .ok (ctx.slot event) := getContext_eq_ok.2 ⟨Events.ne_none_of_has h, rfl⟩
  cases hs : (ctx.slot event).scheduler with
  | none => simp [triggerEvent, h, hget, hs]
  | some scheduler =>
      obtain ⟨ctx', htrigger, -⟩ := triggerEvent_of_has h hs
      simp [htrigger]

theorem triggerEvent_eq_ok {ctx : FdContext F C} {event : Event}
    {r : FdContext F C × List (SchedulerId × Task F C)} (h : ctx.triggerEvent event = .ok r) :
    ctx.events.has event ∧ ∃ scheduler, (ctx.slot event).scheduler = some scheduler := by
  cases hhas : ctx.events.has event with
  | false =>
      rw [triggerEvent_of_not_has hhas] at h
      cases h
  | true =>
      refine ⟨rfl, ?_⟩
      have hget : ctx.getContext event = .ok (ctx.slot event) :=
        getContext_eq_ok.2 ⟨Events.ne_none_of_has hhas, rfl⟩
      cases hs : (ctx.slot event).scheduler with
      | none =>
          simp [triggerEvent, hhas, hget, hs] at h
      | some scheduler => exact ⟨scheduler, rfl⟩

end FdContext

end Awcotn
