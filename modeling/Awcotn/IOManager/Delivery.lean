import Awcotn.Foundation.Ledger
import Awcotn.IOManager.Registration

/-!
# Exactly-once delivery

The event table is a store of parked tasks: `addEvent` parks one under the descriptor and the event, `delEvent` drops it, and `cancelEvent`, `cancelAll` and a dispatch deliver it to the run queue of the scheduler it was registered on. To tell registrations apart, each call of `addEvent` is made with a fiber and a callback that carry a number. The code does not look at either, so this is the code at another type.
-/

namespace Awcotn.IOManager

open Transition Ledger

variable {F C : Type*}

/-- The action with its task numbered. -/
def Action.number (id : ℕ) : Action F C → Action (F × ℕ) (C × ℕ)
  | .addEvent fd event cb caller allow =>
    .addEvent fd event (cb.map fun c => (c, id)) ⟨caller.scheduler, (caller.fiber, id), caller.exec⟩ allow
  | .delEvent fd event allow => .delEvent fd event allow
  | .cancelEvent fd event allow => .cancelEvent fd event allow
  | .cancelAll fd allow => .cancelAll fd allow
  | .wait reports => .wait reports
  | .dispatch i allow => .dispatch i allow

/-- The number of a task, and the scheduler it is for with the task itself. -/
def unnumber (scheduler : Option SchedulerId) : Task (F × ℕ) (C × ℕ) → ℕ × (Option SchedulerId × Task F C)
  | .fiber (f, id) => (id, (scheduler, .fiber f))
  | .cb (c, id) => (id, (scheduler, .cb c))

/-- What `addEvent` is asked to register. -/
def requested (cb : Option C) (caller : Caller F) : Option SchedulerId × Task F C :=
  (caller.scheduler, match cb with
    | some c => .cb c
    | none => .fiber caller.fiber)

/-- What a cell has parked. -/
def parked (cell : Bool × EventContext (F × ℕ) (C × ℕ)) : Option (ℕ × (Option SchedulerId × Task F C)) :=
  if cell.1 then cell.2.task.map (unnumber cell.2.scheduler) else none

/-- The entries pushed so far, with their numbers. -/
def sent (m : IOManager (F × ℕ) (C × ℕ)) : List (ℕ × (Option SchedulerId × Task F C)) :=
  m.scheduled.map fun entry => unnumber (some entry.1) entry.2

/-- The manager and a record of every successful registration. -/
structure Tracked (F C : Type*) where
  state : State (F × ℕ) (C × ℕ)
  records : List (Record (ℕ × Event) (Option SchedulerId × Task F C))

def Tracked.start : Tracked F C := ⟨IOManager.start, []⟩

/-- The records after an action: `addEvent` adds one where it returns 0, and the registrations whose bit the action has cleared are dropped by `delEvent` and delivered by the others. -/
def Tracked.account (s : Tracked F C) (t : State (F × ℕ) (C × ℕ)) :
    Action F C → List (Record (ℕ × Event) (Option SchedulerId × Task F C))
  | .addEvent fd event cb caller allow =>
    match s.state.io.addEvent fd event (cb.map fun c => (c, s.records.length))
        ⟨caller.scheduler, (caller.fiber, s.records.length), caller.exec⟩ allow with
    | .ok (0, _) => s.records ++ [⟨(fd, event), requested cb caller, .pending⟩]
    | _ => s.records
  | .delEvent .. => settle (fun cell => !(t.io.cells cell).1) .dropped s.records
  | .cancelEvent .. | .cancelAll .. | .dispatch .. => settle (fun cell => !(t.io.cells cell).1) .delivered s.records
  | .wait _ => s.records

/-- A step of the manager on numbered tasks, and the records after it. -/
def Tracked.step (s : Tracked F C) (a : Action F C) : Outcome Fault (Tracked F C) :=
  match IOManager.step s.state (a.number s.records.length) with
  | .next t => .next ⟨t, s.account t a⟩
  | .abort e => .abort e
  | .disabled => .disabled

/-! ### The table as a store -/

variable {m m' : IOManager (F × ℕ) (C × ℕ)} {records : List (Record (ℕ × Event) (Option SchedulerId × Task F C))}

/-- The table is balanced with the records. -/
def Accounted (m : IOManager (F × ℕ) (C × ℕ)) (records : List (Record (ℕ × Event) (Option SchedulerId × Task F C))) :
    Prop := Balanced records (parked ∘ m.cells) (sent m)

theorem Accounted.of_same (h : Accounted m records) (hsame : Same m m') : Accounted m' records := by
  rw [Accounted, sent, hsame.cells, hsame.scheduled]
  exact h

theorem Accounted.isSome_parked (h : Accounted m records) {r : Record (ℕ × Event) (Option SchedulerId × Task F C)}
    (hr : r ∈ records) (hpending : r.fate = .pending) : (m.cells r.key).1 := by
  have hheld := h.isSome_held hr hpending
  by_contra hclear
  simp [parked, hclear] at hheld

theorem parked_filled (cb : Option C) (caller : Caller F) (id : ℕ) :
    parked (true, filled (cb.map fun c => (c, id)) ⟨caller.scheduler, (caller.fiber, id), caller.exec⟩) =
      some (id, requested cb caller) := by
  cases cb <;> rfl

theorem Accounted.takesIf (h : Accounted m records) {cond : Bool} {fd : ℕ} {event : Event}
    (htakes : TakesIf cond m m' fd event) :
    Accounted m' (settle (fun cell => cond && decide (cell = (fd, event))) .delivered records) := by
  rcases htakes with ⟨rfl, rfl⟩ | ⟨rfl, hhas, scheduler, hs, hmoves⟩
  · rw [settle_eq_self fun _ _ _ => rfl]
    exact h
  · have hcells : parked ∘ m'.cells = Function.update (parked ∘ m.cells) (fd, event) none := by
      rw [hmoves.cells, Function.comp_update]
      rfl
    have hsent : sent m' = sent m ++ ((parked ∘ m.cells) (fd, event)).toList := by
      rw [sent, hmoves.scheduled, List.map_append]
      simp only [Function.comp_apply, parked, cells, hhas, if_true, hs]
      cases ((m.ctxAt fd).slot event).task <;> rfl
    rw [Accounted, hcells, hsent]
    simp only [Bool.true_and]
    exact h.deliver (fd, event)

theorem TakesIf.bit {cond : Bool} {fd : ℕ} {event : Event} (h : TakesIf cond m m' fd event) (cell : ℕ × Event) :
    (m'.cells cell).1 = ((m.cells cell).1 && !(cond && decide (cell = (fd, event)))) := by
  by_cases heq : cell = (fd, event)
  · subst heq
    simp [h.has_self]
  · simp [h.cells_of_ne heq, heq]

/-- The registrations a mask takes are those whose bit has been cleared. -/
theorem Accounted.takesMask (h : Accounted m records) {mask : Events} {fd : ℕ} (htakes : TakesMask mask m m' fd) :
    Accounted m' (settle (fun cell => !(m'.cells cell).1) .delivered records) := by
  obtain ⟨m₁, hread, hwrite⟩ := htakes
  have hboth := (h.takesIf hread).takesIf hwrite
  rw [settle_settle (by simp)] at hboth
  rwa [settle_congr (g := fun cell => (mask.read && decide (cell = (fd, .READ))) ||
    (mask.write && decide (cell = (fd, .WRITE))))]
  intro r hr hpending
  rw [hwrite.bit, hread.bit, h.isSome_parked hr hpending]
  simp

theorem Accounted.takes (h : Accounted m records) {fd : ℕ} {event : Event} (htakes : Takes m m' fd event) :
    Accounted m' (settle (fun cell => !(m'.cells cell).1) .delivered records) := by
  have hif : TakesIf true m m' fd event := .inr ⟨rfl, htakes⟩
  have := h.takesIf hif
  rwa [settle_congr (g := fun cell => true && decide (cell = (fd, event)))]
  intro r hr hpending
  rw [hif.bit, h.isSome_parked hr hpending]
  simp

/-! ### Steps -/

/-- The invariant of a tracked run. -/
structure Tracked.Inv (s : Tracked F C) : Prop where
  wf : Wf s.state.io
  accounted : Accounted s.state.io s.records

theorem Tracked.step_eq_next {s t : Tracked F C} {a : Action F C} (h : s.step a = .next t) :
    ∃ u, IOManager.step s.state (a.number s.records.length) = .next u ∧ t = ⟨u, s.account u a⟩ := by
  simp only [Tracked.step] at h
  split at h
  · rename_i u hu
    exact ⟨u, hu, (Outcome.next.inj h).symm⟩
  · cases h
  · cases h

theorem underScheduler_number {a : Action F C} (h : a.UnderScheduler) (id : ℕ) : (a.number id).UnderScheduler := by
  cases a <;> exact h

/-- A bit that stays set settles nothing. -/
theorem Accounted.settle_self (h : Accounted m records) (fate : Fate) :
    settle (fun cell => !(m.cells cell).1) fate records = records :=
  settle_eq_self fun r hr hpending => by simp [h.isSome_parked hr hpending]

theorem Tracked.step_inv {s t : Tracked F C} {a : Action F C} (hs : s.Inv) (ha : a.UnderScheduler)
    (h : s.step a = .next t) : t.Inv := by
  obtain ⟨u, hu, rfl⟩ := step_eq_next h
  refine ⟨step_wf hs.wf (underScheduler_number ha _) hu, ?_⟩
  have haccounted := hs.accounted
  cases a with
  | addEvent fd event cb caller allow =>
      obtain ⟨⟨code, m'⟩, hr, rfl⟩ := map_eq_ok (Outcome.ofExcept_eq_next.1 hu)
      simp only [account, hr]
      rcases addEvent_eq_ok hr with ⟨hret, hsame, -⟩ | ⟨hret, -, hfree, -, -, hmoves⟩
      · obtain rfl : code = -1 := hret
        exact haccounted.of_same hsame
      · obtain rfl : code = 0 := hret
        have hcells : parked ∘ m'.cells = Function.update (parked ∘ s.state.io.cells) (fd, event)
            (some (s.records.length, requested cb caller)) := by
          rw [hmoves.cells, Function.comp_update, parked_filled]
        have hsent : sent m' = sent s.state.io := by rw [sent, hmoves.scheduled, List.append_nil, sent]
        rw [Accounted, hcells, hsent]
        refine haccounted.park ?_ _
        simp [hfree, parked]
  | delEvent fd event allow =>
      obtain ⟨r, hr, rfl⟩ := map_eq_ok (Outcome.ofExcept_eq_next.1 hu)
      rcases delEvent_eq_ok hr with ⟨rfl, -⟩ | ⟨-, -, -, hmoves⟩
      · dsimp only [account]
        rw [haccounted.settle_self]
        exact haccounted
      · have hcells : parked ∘ r.2.cells = Function.update (parked ∘ s.state.io.cells) (fd, event) none := by
          rw [hmoves.cells, Function.comp_update]
          rfl
        have hsent : sent r.2 = sent s.state.io := by rw [sent, hmoves.scheduled, List.append_nil, sent]
        dsimp only [account]
        rw [settle_congr (g := fun cell => decide (cell = (fd, event))), Accounted, hcells, hsent]
        · exact haccounted.drop (fd, event)
        · intro record hrecord hpending
          have hbit := haccounted.isSome_parked hrecord hpending
          by_cases heq : record.key = (fd, event)
          · simp [hmoves.cells, heq]
          · simp [hmoves.cells, heq, hbit]
  | cancelEvent fd event allow =>
      obtain ⟨r, hr, rfl⟩ := map_eq_ok (Outcome.ofExcept_eq_next.1 hu)
      rcases cancelEvent_eq_ok hr with ⟨rfl, -⟩ | ⟨-, -, htakes⟩
      · dsimp only [account]
        rw [haccounted.settle_self]
        exact haccounted
      · exact haccounted.takes htakes
  | cancelAll fd allow =>
      obtain ⟨r, hr, rfl⟩ := map_eq_ok (Outcome.ofExcept_eq_next.1 hu)
      rcases cancelAll_eq_ok hr with ⟨rfl, -⟩ | ⟨-, -, -, htakes⟩
      · dsimp only [account]
        rw [haccounted.settle_self]
        exact haccounted
      · exact Accounted.takesMask (m := { s.state.io with epoll := r.2.epoll }) haccounted htakes
  | wait reports =>
      simp only [Action.number, IOManager.step] at hu
      split at hu
      · cases hu
        exact haccounted
      · cases hu
  | dispatch i allow =>
      simp only [Action.number, IOManager.step] at hu
      split at hu
      · cases hu
      obtain ⟨io, hio, rfl⟩ := map_eq_ok (Outcome.ofExcept_eq_next.1 hu)
      rcases dispatch_eq_ok hio with ⟨rfl, -⟩ | ⟨-, -, htakes⟩
      · dsimp only [account]
        rw [haccounted.settle_self]
        exact haccounted
      · exact Accounted.takesMask (m := { s.state.io with epoll := io.epoll }) haccounted htakes

/-! ### Exactly once -/

/-- An action consumes the registration under a cell with a fate: `delEvent` drops it, the others deliver it, each for its own event, for its own descriptor or for the events its report names. -/
def Tracked.Consumes (s : Tracked F C) : Action F C → ℕ × Event → Fate → Prop
  | .delEvent fd event _, cell, fate => cell = (fd, event) ∧ fate = .dropped
  | .cancelEvent fd event _, cell, fate => cell = (fd, event) ∧ fate = .delivered
  | .cancelAll fd _, cell, fate => cell.1 = fd ∧ fate = .delivered
  | .dispatch i _, cell, fate =>
    (∃ report, s.state.ready[i]? = some (cell.1, report) ∧ report.realEvents.has cell.2) ∧ fate = .delivered
  | _, _, _ => False

/-- A registration that was delivered is in the run queues once, with its own task and on its own scheduler; one that is pending or was dropped is not; nothing else is there; and the registrations pending are those of the bits set, one for each. -/
structure Tracked.ExactlyOnce (s : Tracked F C) : Prop where
  entries : ∀ id r, s.records[id]? = some r →
    ((sent s.state.io).filter fun entry => entry.1 = id) = if r.fate = .delivered then [(id, r.item)] else []
  recorded : ∀ entry ∈ sent s.state.io, ∃ r, s.records[entry.1]? = some r ∧ r.item = entry.2
  pending : ∀ cell, (s.state.io.cells cell).1 ↔ ∃! id : ℕ, ∃ item, s.records[id]? = some (Record.mk cell item .pending)

/-- A record stays as it is unless it is pending and the action consumes it. -/
def Tracked.ConsumesOnce (s : Tracked F C) (a : Action F C) : Prop :=
  ∀ t, s.step a = .next t → ∀ (id : ℕ) (r : Record (ℕ × Event) (Option SchedulerId × Task F C)),
    s.records[id]? = some r → t.records[id]? = some r ∨
      ∃ fate, r.fate = .pending ∧ s.Consumes a r.key fate ∧ t.records[id]? = some { r with fate := fate }

theorem Tracked.Inv.exactlyOnce {s : Tracked F C} (hs : s.Inv) : s.ExactlyOnce := by
  have hout := hs.accounted.out_eq
  have hheld := hs.accounted.held_iff
  refine ⟨fun id r hr => ?_, fun entry hentry => ?_, fun cell => ?_⟩
  · rw [hout, hr]
    obtain ⟨key, item, _ | _ | _⟩ := r <;> rfl
  · have hmem : entry ∈ (sent s.state.io).filter fun other => other.1 = entry.1 :=
      List.mem_filter.2 ⟨hentry, by simp⟩
    rw [hout] at hmem
    cases hrecord : s.records[entry.1]? with
    | none => simp [hrecord, owed] at hmem
    | some r =>
        refine ⟨r, rfl, ?_⟩
        obtain ⟨key, item, _ | _ | _⟩ := r <;> simp [hrecord, owed] at hmem
        rw [hmem]
  · constructor
    · intro hset
      have hfilled : (s.state.io.cells cell).2.Filled := by
        rcases hs.wf.cell cell with ⟨-, h⟩ | ⟨h, -⟩
        · exact h
        · exact absurd (hset.symm.trans h) (by simp)
      obtain ⟨⟨id, item⟩, hparked⟩ : ∃ entry, parked (s.state.io.cells cell) = some entry := by
        obtain ⟨-, htask⟩ := hfilled
        simp only [parked, hset, if_true]
        generalize (s.state.io.cells cell).2 = slot at htask
        obtain ⟨_, _ | _, _ | _⟩ := slot <;> simp_all [EventContext.task]
      refine ⟨id, ⟨item, (hheld cell id item).1 hparked⟩, ?_⟩
      rintro id' ⟨item', hid'⟩
      have := ((hheld cell id' item').2 hid').symm.trans hparked
      simp only [Option.some.injEq, Prod.mk.injEq] at this
      exact this.1
    · rintro ⟨id, ⟨item, hid⟩, -⟩
      exact hs.accounted.isSome_parked (List.mem_of_getElem? hid) rfl

/-- Settling by cleared bits leaves a record alone or gives the fate to one whose bit was set and is clear. -/
theorem Accounted.settle_cases (h : Accounted m records) (m' : IOManager (F × ℕ) (C × ℕ)) (fate : Fate) {id : ℕ}
    {r : Record (ℕ × Event) (Option SchedulerId × Task F C)} (hr : records[id]? = some r) :
    (settle (fun cell => !(m'.cells cell).1) fate records)[id]? = some r ∨
      r.fate = .pending ∧ (m.cells r.key).1 = true ∧ (m'.cells r.key).1 = false ∧
        (settle (fun cell => !(m'.cells cell).1) fate records)[id]? = some { r with fate := fate } := by
  rw [getElem?_settle, hr]
  by_cases hgone : r.fate = .pending ∧ (!(m'.cells r.key).1) = true
  · refine .inr ⟨hgone.1, h.isSome_parked (List.mem_of_getElem? hr) hgone.1, by simpa using hgone.2, ?_⟩
    rw [Option.map_some, if_pos hgone]
  · exact .inl (by rw [Option.map_some, if_neg hgone])

theorem TakesMask.bit_cleared {mask : Events} {fd : ℕ} (h : TakesMask mask m m' fd) {cell : ℕ × Event}
    (hset : (m.cells cell).1 = true) (hclear : (m'.cells cell).1 = false) : cell.1 = fd ∧ mask.has cell.2 := by
  obtain ⟨m₁, hread, hwrite⟩ := h
  rw [hwrite.bit, hread.bit, hset] at hclear
  by_cases hfirst : mask.read = true ∧ cell = (fd, .READ)
  · obtain ⟨hmask, rfl⟩ := hfirst
    exact ⟨rfl, hmask⟩
  by_cases hsecond : mask.write = true ∧ cell = (fd, .WRITE)
  · obtain ⟨hmask, rfl⟩ := hsecond
    exact ⟨rfl, hmask⟩
  simp_all

theorem Tracked.Inv.consumesOnce {s : Tracked F C} (hs : s.Inv) (a : Action F C) : s.ConsumesOnce a := by
  intro t h id r hr
  obtain ⟨u, hu, rfl⟩ := step_eq_next h
  have haccounted := hs.accounted
  cases a with
  | addEvent fd event cb caller allow =>
      left
      simp only [account]
      split
      · rw [List.getElem?_append_left (List.getElem?_eq_some_iff.1 hr).1, hr]
      · exact hr
  | delEvent fd event allow =>
      obtain ⟨m', hm', rfl⟩ := map_eq_ok (Outcome.ofExcept_eq_next.1 hu)
      rcases haccounted.settle_cases m'.2 .dropped hr with hsame | ⟨hpending, hset, hclear, hmet⟩
      · exact .inl hsame
      · refine .inr ⟨.dropped, hpending, ⟨?_, rfl⟩, hmet⟩
        rcases delEvent_eq_ok hm' with ⟨rfl, -⟩ | ⟨-, -, -, hmoves⟩
        · exact absurd (hset.symm.trans hclear) (by simp)
        · by_contra hne
          rw [hmoves.cells, Function.update_of_ne hne, hset] at hclear
          cases hclear
  | cancelEvent fd event allow =>
      obtain ⟨m', hm', rfl⟩ := map_eq_ok (Outcome.ofExcept_eq_next.1 hu)
      rcases haccounted.settle_cases m'.2 .delivered hr with hsame | ⟨hpending, hset, hclear, hmet⟩
      · exact .inl hsame
      · refine .inr ⟨.delivered, hpending, ⟨?_, rfl⟩, hmet⟩
        rcases cancelEvent_eq_ok hm' with ⟨rfl, -⟩ | ⟨-, -, -, scheduler, -, hmoves⟩
        · exact absurd (hset.symm.trans hclear) (by simp)
        · by_contra hne
          rw [hmoves.cells, Function.update_of_ne hne, hset] at hclear
          cases hclear
  | cancelAll fd allow =>
      obtain ⟨m', hm', rfl⟩ := map_eq_ok (Outcome.ofExcept_eq_next.1 hu)
      rcases haccounted.settle_cases m'.2 .delivered hr with hsame | ⟨hpending, hset, hclear, hmet⟩
      · exact .inl hsame
      · refine .inr ⟨.delivered, hpending, ⟨?_, rfl⟩, hmet⟩
        rcases cancelAll_eq_ok hm' with ⟨rfl, -⟩ | ⟨-, -, -, htakes⟩
        · exact absurd (hset.symm.trans hclear) (by simp)
        · exact (htakes.bit_cleared hset hclear).1
  | wait reports => exact .inl hr
  | dispatch i allow =>
      simp only [Action.number, IOManager.step] at hu
      split at hu
      · cases hu
      rename_i fd report hready
      obtain ⟨io, hio, rfl⟩ := map_eq_ok (Outcome.ofExcept_eq_next.1 hu)
      rcases haccounted.settle_cases io .delivered hr with hsame | ⟨hpending, hset, hclear, hmet⟩
      · exact .inl hsame
      · refine .inr ⟨.delivered, hpending, ⟨?_, rfl⟩, hmet⟩
        rcases dispatch_eq_ok hio with ⟨rfl, -⟩ | ⟨-, -, htakes⟩
        · exact absurd (hset.symm.trans hclear) (by simp)
        · obtain ⟨hfd, hevent⟩ := htakes.bit_cleared hset hclear
          exact ⟨report, by rw [hfd, hready], hevent⟩

theorem Tracked.inv_start : (Tracked.start : Tracked F C).Inv := by
  refine ⟨wf_init, ?_⟩
  have hcells : parked ∘ (init : IOManager (F × ℕ) (C × ℕ)).cells = fun _ => none := by
    rw [cells_init]
    rfl
  change Balanced [] (parked ∘ init.cells) (sent init)
  rw [hcells]
  exact Balanced.empty

/-- Every run of callers under schedulers delivers every registration at most once, and whatever consumes a registration consumes it once and for all. -/
theorem delivery_exactly_once (acts : List (Action F C))
    (h : Along Tracked.step (fun _ a => a.UnderScheduler) Tracked.start acts) :
    Throughout Tracked.step Tracked.ExactlyOnce Tracked.start acts ∧
      Along Tracked.step Tracked.ConsumesOnce Tracked.start acts := by
  obtain ⟨hall, halong⟩ := throughout_of_along (I := Tracked.Inv) (fun s a t hs ha ht => Tracked.step_inv hs ha ht)
    Tracked.inv_start h
  exact ⟨hall.mono fun s hs => hs.exactlyOnce, halong.mono fun s a hs => hs.1.consumesOnce a⟩

theorem delivery_exactly_once_cancelled :
    Throughout Tracked.step Tracked.ExactlyOnce (Tracked.start : Tracked ℕ ℕ)
        [.addEvent 5 .READ (some 0) ⟨some 0, 0, true⟩ true, .cancelEvent 5 .READ true] ∧
      Along Tracked.step Tracked.ConsumesOnce (Tracked.start : Tracked ℕ ℕ)
        [.addEvent 5 .READ (some 0) ⟨some 0, 0, true⟩ true, .cancelEvent 5 .READ true] :=
  delivery_exactly_once _ ⟨rfl, trivial, trivial⟩

end Awcotn.IOManager
