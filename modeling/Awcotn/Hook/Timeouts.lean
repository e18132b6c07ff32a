import Awcotn.Foundation.Process
import Awcotn.Hook.Shared

/-!
# Timeouts of hooked calls

A call with a timeout arms its timer, registers its event and suspends, in three steps. The timer may expire between any two of them, and its callback sets `cancelled` and cancels the event, whether or not there is one yet. A callback that comes before `addEvent` finds nothing to cancel, and no later callback of the same call does anything, because `cancelled` is set: the call then waits for its event alone. So a call keeps its timeout exactly if it does not register after its callback has come and gone. It also needs the callback's `epoll_ctl` to succeed, since `cancelEvent` wakes nobody otherwise.
-/

namespace Awcotn.Hook

open Transition Process

/-- What a call waits with between `addEvent` and its wake-up. -/
def Pc.waiting : Pc → Option (Call × Option Addr)
  | .yielding c timer | .suspended c timer => some (c, timer)
  | _ => none

/-- The timer of a call still has its callback. -/
def Armed (s : State) (c : Call) (a : Addr) : Prop := (s.timers c.iom).cb a = some (.timeout c.timeout)

/-- A timeout callback of a call has been handed out and not finished. -/
def HandedOut (s : State) (c : Call) : Prop := ∃ pc, (c.timeout, pc) ∈ s.flying

/-- A timeout callback of a call will go on to its `cancelEvent`. -/
def PastTests (s : State) (c : Call) : Prop := ∃ pc, pc ≠ .handedOut ∧ (c.timeout, pc) ∈ s.flying

/-- The wake-up of a fiber is in the run queue. -/
def Queued (s : State) (f : FiberId) (c : Call) : Prop := (c.iom, Task.fiber f) ∈ (s.io c.iom).scheduled

/-- A suspended call with a timeout has its timer armed, its callback handed out or its wake-up queued; and where its callback has run, either the `cancelEvent` is still to come or the wake-up is queued. -/
def NoLostTimeout (s : State) : Prop :=
  ∀ f c a, s.pc f = .suspended c (some a) →
    (a ∈ (s.timers c.iom).timers ∧ Armed s c a ∨ HandedOut s c ∨ Queued s f c) ∧
    (s.cancelled c.id → PastTests s c ∨ Queued s f c)

/-- A call with a timeout does not register its event after its callback has come and gone; and a `cancelEvent` that leaves a call waiting is not the last to come. -/
def RegistersInTime (s : State) : Action → Prop
  | .add f allow => allow → ∀ c a, s.pc f = .adding c (some a) → s.cancelled c.id → PastTests s c
  | .callback j allow => allow = false → ∀ timeout, s.flying[j]? = some (timeout, .flagged) →
      ∀ f c timer, (s.pc f).waiting = some (c, timer) → c.timeout = timeout →
        Queued s f c ∨ ∃ pc, pc ≠ .handedOut ∧ (timeout, pc) ∈ s.flying.eraseIdx j
  | _ => True

variable {s t : State} {f : FiberId} {c : Call}

/-! ### Calls -/

/-- The identity of the call a fiber is in. -/
def Pc.callId (pc : Pc) : Option CallId := pc.call.map Call.id

theorem callId_eq_some {pc : Pc} {id : CallId} : pc.callId = some id ↔ ∃ c, pc.call = some c ∧ c.id = id := by
  simp [Pc.callId]

/-- Every call is in one fiber, has its own identity, and holds its `timer_info`. -/
structure CallsInv (s : State) : Prop where
  apart : Apart Pc.callId s.pc
  below : ∀ f c, (s.pc f).call = some c → c.id < s.nextCall
  owned : ∀ f c, (s.pc f).call = some c → s.owned c.id

theorem CallsInv.eq_of_id (hs : CallsInv s) {g : FiberId} {c' : Call} (hc : (s.pc f).call = some c)
    (hc' : (s.pc g).call = some c') (hid : c.id = c'.id) : f = g :=
  hs.apart f g c.id (callId_eq_some.2 ⟨c, hc, rfl⟩) (callId_eq_some.2 ⟨c', hc', hid.symm⟩)

theorem FiberStep.callsInv (hs : CallsInv s) {before after : Pc} (h : FiberStep s t f before after) : CallsInv t := by
  have hnext : s.nextCall ≤ t.nextCall := by rw [h.nextCall]; exact Nat.le_add_right ..
  refine ⟨?_, fun g c hc => ?_, fun g c hc => ?_⟩
  · rw [h.pc]
    refine hs.apart.update fun id hid => ?_
    obtain ⟨c, hc, rfl⟩ := callId_eq_some.1 hid
    rcases h.next.call hc with ⟨-, i, request, rfl⟩ | ⟨c', timeoutMs, hc', rfl⟩
    · right
      intro g _ hg
      obtain ⟨d, hd, hdid⟩ := callId_eq_some.1 hg
      have hlt := hs.below g d hd
      rw [hdid] at hlt
      exact lt_irrefl _ hlt
    · left
      rw [h.old]
      exact callId_eq_some.2 ⟨c', hc', rfl⟩
  · by_cases hg : g = f
    · subst hg
      rw [h.pc, Function.update_self] at hc
      rcases h.next.call hc with ⟨hbefore, i, request, rfl⟩ | ⟨c', timeoutMs, hc', rfl⟩
      · have hbegin := h.next
        rw [hbefore] at hbegin
        cases hbegin with
        | begin =>
            rw [h.nextCall, hbefore]
            exact Nat.lt_succ_self _
        | close => cases hc
      · exact (hs.below g c' (by rw [h.old, hc'])).trans_le hnext
    · rw [h.pc, Function.update_of_ne hg] at hc
      exact (hs.below g c hc).trans_le hnext
  · rw [h.owned]
    by_cases hg : g = f
    · subst hg
      rw [h.pc, Function.update_self] at hc
      rcases h.next.call hc with ⟨hbefore, i, request, rfl⟩ | ⟨c', timeoutMs, hc', rfl⟩
      · have hbegin := h.next
        rw [hbefore] at hbegin ⊢
        cases hbegin with
        | begin => exact Function.update_self ..
        | close => cases hc
      · rcases h.next.holders (hs.owned g c' (by rw [h.old, hc'])) with hheld | ⟨hnone, -⟩
        · exact hheld
        · rw [hnone] at hc
          cases hc
    · rw [h.pc, Function.update_of_ne hg] at hc
      rcases h.next.holders (hs.owned g c hc) with hheld | ⟨-, c', hc', hid⟩
      · exact hheld
      · exact absurd (hs.eq_of_id (by rw [h.old, hc']) hc hid).symm hg

theorem step_callsInv (hs : CallsInv s) {act : Action} (h : step s act = .next t) : CallsInv t := by
  cases hfiber : act.fiber with
  | some f =>
      obtain ⟨before, after, hmove⟩ := step_fiber h hfiber
      exact hmove.callsInv hs
  | none =>
      obtain ⟨hpc, -, hnext, howned, -, -⟩ := step_other h hfiber
      exact ⟨by rw [hpc]; exact hs.apart, by rw [hpc, hnext]; exact hs.below, by rw [hpc, howned]; exact hs.owned⟩

/-- A call keeps its identity and what its timeouts capture. -/
theorem step_call {act : Action} (h : step s act = .next t) (hc : (t.pc f).call = some c) :
    c.id = s.nextCall ∨ ∃ c', (s.pc f).call = some c' ∧ c'.timeout = c.timeout := by
  by_cases hfiber : act.fiber = some f
  · obtain ⟨before, after, hmove⟩ := step_fiber h hfiber
    rw [hmove.pc, Function.update_self] at hc
    rcases hmove.next.call hc with ⟨-, i, request, rfl⟩ | ⟨c', timeoutMs, hc', rfl⟩
    · exact .inl rfl
    · exact .inr ⟨c', by rw [hmove.old, hc'], rfl⟩
  · rw [step_pc_of_ne h hfiber] at hc
    exact .inr ⟨c, hc, rfl⟩

theorem step_nextCall_le {act : Action} (h : step s act = .next t) : s.nextCall ≤ t.nextCall := by
  cases hfiber : act.fiber with
  | some f =>
      obtain ⟨before, after, hmove⟩ := step_fiber h hfiber
      rw [hmove.nextCall]
      exact Nat.le_add_right ..
  | none => rw [(step_other h hfiber).nextCall]

/-! ### Tables -/

structure TablesInv (s : State) : Prop where
  io : ∀ i, IOManager.Wf (s.io i)
  timers : ∀ i, TimerManager.Wf (s.timers i)

theorem step_tablesInv (hs : TablesInv s) {act : Action} (h : step s act = .next t) : TablesInv t := by
  refine ⟨fun i => ?_, fun i => ?_⟩
  · rcases step_serves h i with hserves | ⟨f, c, timer, -, -, -, hio⟩
    · exact hserves.wf (hs.io i)
    · have hwf := hs.io i
      rw [hio]
      exact ⟨hwf.cell, hwf.kernel, hwf.indexed, hwf.length⟩
  · cases step_timers h i with
    | same heq => exact heq ▸ hs.timers i
    | armed _ _ _ hfree heq | other hfree heq => exact heq ▸ TimerManager.addTimer_wf (hs.timers i) hfree _ _ _ _
    | cancelled _ _ hr heq => exact heq ▸ TimerManager.cancel_wf (hs.timers i) hr
    | expired hr heq _ => exact heq ▸ TimerManager.listExpiredCb_wf (hs.timers i) hr

/-! ### Whose a timeout is -/

/-- A timeout whose callback is still with a timer, or handed out. -/
def Known (s : State) (timeout : Timeout) : Prop :=
  (∃ pc, (timeout, pc) ∈ s.flying) ∨ ∃ i a, (s.timers i).cb a = some (.timeout timeout)

theorem mem_timeouts {cbs : List (Option TimerCb)} {timeout : Timeout} :
    timeout ∈ timeouts cbs ↔ some (.timeout timeout) ∈ cbs := by
  simp only [timeouts, List.mem_filterMap]
  constructor
  · rintro ⟨cb, hmem, hcb⟩
    split at hcb
    · obtain rfl := Option.some.inj hcb
      exact hmem
    · cases hcb
  · exact fun hmem => ⟨_, hmem, rfl⟩

theorem FlyingStep.known {act : Action} (h : FlyingStep s t act) {timeout : Timeout} {pc : CbPc}
    (hmem : (timeout, pc) ∈ t.flying) : Known s timeout := by
  cases h with
  | same hflying _ => exact .inl ⟨pc, hflying ▸ hmem⟩
  | expired hr hflying _ =>
      rw [hflying] at hmem
      rcases List.mem_append.1 hmem with hold | hnew
      · exact .inl ⟨pc, hold⟩
      · obtain ⟨timeout', htimeout', heq⟩ := List.mem_map.1 hnew
        cases heq
        obtain ⟨a, ha⟩ := (TimerManager.listExpiredCb_handsOut hr).source _ (mem_timeouts.1 htimeout')
        exact .inr ⟨_, a, ha⟩
  | dropped _ _ hflying _ | finished _ hflying _ _ _ =>
      rw [hflying] at hmem
      exact .inl ⟨pc, List.mem_of_mem_eraseIdx hmem⟩
  | tested hget hflying _ | wrote hget hflying _ =>
      rw [hflying] at hmem
      rcases List.mem_or_eq_of_mem_set hmem with hold | heq
      · exact .inl ⟨pc, hold⟩
      · cases heq
        exact .inl ⟨_, List.mem_of_getElem? hget⟩

/-- Only a call that arms its timer makes a new timeout. -/
theorem step_known {act : Action} (h : step s act = .next t) {timeout : Timeout} (hknown : Known t timeout) :
    Known s timeout ∨ ∃ f c, s.pc f = .arming c ∧ timeout = c.timeout := by
  rcases hknown with ⟨pc, hmem⟩ | ⟨i, a, hcb⟩
  · exact .inl ((step_flying h).known hmem)
  · have hold : (s.timers i).cb a = some (.timeout timeout) → Known s timeout := fun hcb => .inr ⟨i, a, hcb⟩
    cases step_timers h i with
    | same heq => exact .inl (hold (heq ▸ hcb))
    | @armed f c a' now hpc _ _ _ heq =>
        rw [heq, TimerManager.cb_addTimer] at hcb
        by_cases ha : a = a'
        · subst ha
          rw [Function.update_self] at hcb
          cases hcb
          exact .inr ⟨f, c, hpc, rfl⟩
        · rw [Function.update_of_ne ha] at hcb
          exact .inl (hold hcb)
    | @other a' ms now recurring _ heq =>
        rw [heq, TimerManager.cb_addTimer] at hcb
        by_cases ha : a = a'
        · subst ha
          rw [Function.update_self] at hcb
          cases hcb
        · rw [Function.update_of_ne ha] at hcb
          exact .inl (hold hcb)
    | @cancelled f c a' r _ _ hr heq =>
        rw [heq, (TimerManager.cancel_cb hr).1] at hcb
        by_cases ha : a = a'
        · subst ha
          rw [Function.update_self] at hcb
          cases hcb
        · rw [Function.update_of_ne ha] at hcb
          exact .inl (hold hcb)
    | expired hr heq _ =>
        rw [heq] at hcb
        exact .inl (hold ((TimerManager.listExpiredCb_handsOut hr).old a _ hcb))

/-- A timeout that names a call in progress is that call's, and a callback that has written `cancelled` has written it. -/
structure TimeoutsInv (s : State) : Prop where
  below : ∀ timeout, Known s timeout → timeout.winfo < s.nextCall
  own : ∀ timeout, Known s timeout → ∀ f c, (s.pc f).call = some c → c.id = timeout.winfo → c.timeout = timeout
  flagged : ∀ timeout, (timeout, .flagged) ∈ s.flying → s.cancelled timeout.winfo

theorem step_cancelled {act : Action} (h : step s act = .next t) {id : CallId} (hid : s.cancelled id) :
    t.cancelled id := by
  cases hfiber : act.fiber with
  | some f =>
      obtain ⟨before, after, hmove⟩ := step_fiber h hfiber
      rwa [hmove.cancelled]
  | none => exact (step_other h hfiber).cancelled id hid

theorem FlyingStep.mem_flagged {act : Action} (h : FlyingStep s t act) {timeout : Timeout}
    (hmem : (timeout, .flagged) ∈ t.flying) : (timeout, .flagged) ∈ s.flying ∨ t.cancelled timeout.winfo := by
  cases h with
  | same hflying _ => exact .inl (hflying ▸ hmem)
  | expired hr hflying _ =>
      rw [hflying] at hmem
      rcases List.mem_append.1 hmem with hold | hnew
      · exact .inl hold
      · obtain ⟨timeout', -, heq⟩ := List.mem_map.1 hnew
        cases heq
  | dropped _ _ hflying _ | finished _ hflying _ _ _ =>
      rw [hflying] at hmem
      exact .inl (List.mem_of_mem_eraseIdx hmem)
  | tested hget hflying _ =>
      rw [hflying] at hmem
      rcases List.mem_or_eq_of_mem_set hmem with hold | heq
      · exact .inl hold
      · cases heq
  | wrote hget hflying hcancelled =>
      rw [hflying] at hmem
      rcases List.mem_or_eq_of_mem_set hmem with hold | heq
      · exact .inl hold
      · cases heq
        exact .inr (by rw [hcancelled, Function.update_self])

theorem step_timeoutsInv (hcalls : CallsInv s) (hs : TimeoutsInv s) {act : Action} (h : step s act = .next t) :
    TimeoutsInv t := by
  have hbelow : ∀ timeout, Known t timeout → timeout.winfo < s.nextCall := by
    intro timeout hknown
    rcases step_known h hknown with hold | ⟨f, c, hpc, rfl⟩
    · exact hs.below timeout hold
    · exact hcalls.below f c (by rw [hpc]; rfl)
  refine ⟨fun timeout hknown => (hbelow timeout hknown).trans_le (step_nextCall_le h), ?_, fun timeout hmem => ?_⟩
  · intro timeout hknown f c hc hid
    rcases step_call h hc with hnew | ⟨c', hc', htimeout⟩
    · exact absurd (hbelow timeout hknown) (by rw [← hid, hnew]; exact lt_irrefl _)
    · have hid' : c'.id = timeout.winfo := (congrArg Timeout.winfo htimeout).trans hid
      rw [← htimeout]
      rcases step_known h hknown with hold | ⟨g, d, hpc, rfl⟩
      · exact hs.own timeout hold f c' hc' hid'
      · have hd : (s.pc g).call = some d := by rw [hpc]; rfl
        obtain rfl := hcalls.eq_of_id hc' hd hid'
        obtain rfl : c' = d := Option.some.inj (hc'.symm.trans hd)
        rfl
  · rcases (step_flying h).mem_flagged hmem with hold | hset
    · exact step_cancelled h (hs.flagged timeout hold)
    · exact hset

/-! ### Held timers -/

/-- The timer a call holds exists, and has no callback but the call's own. -/
def HeldInv (s : State) : Prop :=
  ∀ f c a, (s.pc f).timer = some (c, a) → ((s.timers c.iom).heap a).isSome ∧
    ∀ cb, (s.timers c.iom).cb a = some cb → cb = .timeout c.timeout

theorem TimerStep.stored {act : Action} {i : IomId} (h : TimerStep s t i act) {a : Addr}
    (ha : ((s.timers i).heap a).isSome) :
    ((t.timers i).heap a).isSome ∧ ∀ cb, (t.timers i).cb a = some cb → (s.timers i).cb a = some cb := by
  have hadd : ∀ {a' : Addr} {ms now : UInt64} {cb : TimerCb} {recurring : Bool}, (s.timers i).heap a' = none →
      t.timers i = ((s.timers i).addTimer a' ms (some cb) recurring now).2 →
      ((t.timers i).heap a).isSome ∧ ∀ cb, (t.timers i).cb a = some cb → (s.timers i).cb a = some cb := by
    intro a' ms now cb recurring hfree heq
    have hne : a ≠ a' := by
      rintro rfl
      simp [hfree] at ha
    obtain ⟨u, hheap⟩ := TimerManager.heap_addTimer (s.timers i) a' ms (some cb) recurring now
    rw [heq, hheap, TimerManager.cb_addTimer, Function.update_of_ne hne, Function.update_of_ne hne]
    exact ⟨ha, fun _ h => h⟩
  cases h with
  | same heq =>
      rw [heq]
      exact ⟨ha, fun _ h => h⟩
  | armed _ _ _ hfree heq => exact hadd hfree heq
  | other hfree heq => exact hadd hfree heq
  | @cancelled f c a' r _ _ hr heq =>
      obtain ⟨hcb, hstored⟩ := TimerManager.cancel_cb hr
      rw [heq]
      refine ⟨hstored a ha, fun cb h => ?_⟩
      rw [hcb] at h
      by_cases hne : a = a'
      · subst hne
        rw [Function.update_self] at h
        cases h
      · rwa [Function.update_of_ne hne] at h
  | expired hr heq _ =>
      have hands := TimerManager.listExpiredCb_handsOut hr
      rw [heq]
      exact ⟨hands.stored a ha, fun cb => hands.old a cb⟩

theorem Next.timer {before after : Pc} (h : Next s before after) {a : Addr} (hc : after.timer = some (c, a)) :
    before.timer = some (c, a) ∨ before = .arming c ∧ after = .adding c (some a) := by
  cases h with
  | armed c' a' =>
      cases hc
      exact .inr ⟨rfl, rfl⟩
  | added c' timer | addFailed c' timer | yielded c' timer | resumed c' timer => exact .inl (by cases timer <;> exact hc)
  | _ => cases hc

/-- A call that has just armed its timer. -/
theorem step_arm {act : Action} (h : step s act = .next t) {a : Addr} (hpc : s.pc f = .arming c)
    (hafter : t.pc f = .adding c (some a)) :
    (∃ now, act = .arm f a now) ∧ ((t.timers c.iom).heap a).isSome ∧ Armed t c a := by
  have hfiber : act.fiber = some f := by
    by_contra hne
    rw [step_pc_of_ne h hne, hpc] at hafter
    cases hafter
  cases step_move h with
  | @armed g c' a' now hpc' _ hfree =>
      cases hfiber
      obtain rfl := Pc.arming.inj (hpc.symm.trans hpc')
      obtain rfl : a' = a := by simpa [State.goto] using hafter
      refine ⟨⟨now, rfl⟩, ?_, ?_⟩
      · simp [State.goto, State.setTimers, TimerManager.addTimer, TimerManager.insertTimer]
      · simp [Armed, State.goto, State.setTimers, TimerManager.cb_addTimer]
  | unarmed =>
      cases hfiber
      simp [State.goto] at hafter
  | _ => cases hfiber <;> simp_all

theorem step_heldInv (hs : HeldInv s) {act : Action} (h : step s act = .next t) : HeldInv t := by
  intro f c a hc
  have hkeep : (s.pc f).timer = some (c, a) → _ := fun hold => by
    obtain ⟨hheap, hcb⟩ := hs f c a hold
    obtain ⟨hstored, hback⟩ := (step_timers h c.iom).stored hheap
    exact And.intro hstored fun cb h => hcb cb (hback cb h)
  by_cases hfiber : act.fiber = some f
  · obtain ⟨before, after, hmove⟩ := step_fiber h hfiber
    have hafter : t.pc f = after := by rw [hmove.pc, Function.update_self]
    rw [hafter] at hc
    rcases hmove.next.timer hc with hold | ⟨hbefore, hadding⟩
    · exact hkeep (by rw [hmove.old, hold])
    · obtain ⟨-, hheap, harmed⟩ := step_arm h (hmove.old.trans hbefore) (hafter.trans hadding)
      exact ⟨hheap, fun cb hcb => Option.some.inj (hcb.symm.trans harmed)⟩
  · exact hkeep (by rwa [← step_pc_of_ne h hfiber])

/-! ### Registrations -/

/-- The cell a call registers in. -/
def Call.cell (c : Call) : ℕ × Event := (c.request.fd, c.request.event)

/-- A waiting call is registered, or its wake-up is queued. -/
def RegisteredInv (s : State) : Prop :=
  ∀ f c timer, (s.pc f).waiting = some (c, timer) →
    IOManager.Parked (s.io c.iom) c.cell c.iom (.fiber f) ∨ Queued s f c

theorem Next.waiting {before after : Pc} (h : Next s before after) {timer : Option Addr}
    (hc : after.waiting = some (c, timer)) :
    before = .yielding c timer ∧ after = .suspended c timer ∨ before = .adding c timer ∧ after = .yielding c timer := by
  cases h with
  | yielded c' timer' =>
      cases hc
      exact .inl ⟨rfl, rfl⟩
  | added c' timer' =>
      cases hc
      exact .inr ⟨rfl, rfl⟩
  | _ => cases hc

/-- A call that has just registered. -/
theorem step_add {act : Action} (h : step s act = .next t) {timer : Option Addr} (hpc : s.pc f = .adding c timer)
    (hafter : t.pc f = .yielding c timer) :
    act = .add f true ∧ IOManager.Parked (t.io c.iom) c.cell c.iom (.fiber f) := by
  have hfiber : act.fiber = some f := by
    by_contra hne
    rw [step_pc_of_ne h hne, hpc] at hafter
    cases hafter
  cases step_move h with
  | @added g c' timer' allow r hpc' hr hok =>
      cases hfiber
      obtain ⟨rfl, rfl⟩ := Pc.adding.inj (hpc.symm.trans hpc')
      refine ⟨?_, ?_⟩
      · cases allow with
        | true => rfl
        | false =>
            rcases IOManager.addEvent_eq_ok hr with ⟨hfail, -⟩ | ⟨-, -, -, -, hctl, -⟩
            · omega
            · simp [Epoll.ctl] at hctl
      · have hparked := IOManager.addEvent_parked hr hok
        simpa [State.goto, State.setIo, Call.cell] using hparked
  | addFailed =>
      cases hfiber
      simp [State.goto] at hafter
  | _ => cases hfiber <;> simp_all

/-- A step of another fiber, or of no fiber, leaves a queued wake-up in its queue. -/
theorem step_queued {act : Action} (h : step s act = .next t) (hfiber : act ≠ .resume f) (hq : Queued s f c) :
    Queued t f c := by
  rcases step_serves h c.iom with hserves | ⟨g, d, timer, rfl, -, -, hio⟩
  · exact hserves.handsOver.scheduled _ hq
  · rw [Queued, hio]
    refine (List.mem_erase_of_ne fun heq => hfiber ?_).2 hq
    cases heq
    rfl

theorem step_parked {act : Action} (h : step s act = .next t)
    (hs : IOManager.Parked (s.io c.iom) c.cell c.iom (.fiber f) ∨ Queued s f c) (hfiber : act ≠ .resume f) :
    IOManager.Parked (t.io c.iom) c.cell c.iom (.fiber f) ∨ Queued t f c := by
  rcases hs with hparked | hq
  · rcases step_serves h c.iom with hserves | ⟨g, d, timer, -, -, -, hio⟩
    · exact hserves.handsOver.parked _ _ _ hparked
    · rw [hio]
      exact .inl ⟨hparked.set, hparked.scheduler, hparked.task⟩
  · exact .inr (step_queued h hfiber hq)

theorem step_registeredInv (hs : RegisteredInv s) {act : Action} (h : step s act = .next t) : RegisteredInv t := by
  intro f c timer hc
  by_cases hfiber : act.fiber = some f
  · obtain ⟨before, after, hmove⟩ := step_fiber h hfiber
    have hafter : t.pc f = after := by rw [hmove.pc, Function.update_self]
    rw [hafter] at hc
    rcases hmove.next.waiting hc with ⟨hbefore, hsuspended⟩ | ⟨hbefore, hyielding⟩
    · have hold := hs f c timer (by rw [hmove.old, hbefore]; rfl)
      refine step_parked h hold ?_
      rintro rfl
      simp [step, hmove.old, hbefore] at h
    · exact .inl (step_add h (hmove.old.trans hbefore) (hafter.trans hyielding)).2
  · refine step_parked h (hs f c timer (by rwa [← step_pc_of_ne h hfiber])) ?_
    rintro rfl
    exact hfiber rfl

/-! ### Timeouts that are still to come -/

/-- What keeps a waiting call from being lost. -/
def Watched (s : State) (f : FiberId) (c : Call) (a : Addr) : Prop :=
  s.cancelled c.id = false ∧ (Armed s c a ∨ HandedOut s c) ∨ PastTests s c ∨ Queued s f c

structure WatchInv (s : State) : Prop where
  adding : ∀ f c a, s.pc f = .adding c (some a) → s.cancelled c.id = false → Armed s c a ∨ HandedOut s c
  waiting : ∀ f c a, (s.pc f).waiting = some (c, some a) → Watched s f c a

structure TimeoutInv (s : State) : Prop where
  calls : CallsInv s
  tables : TablesInv s
  timeouts : TimeoutsInv s
  held : HeldInv s
  registered : RegisteredInv s
  watch : WatchInv s

theorem mem_eraseIdx_of_ne {α : Type*} {l : List α} {j : ℕ} {x y : α} (hx : x ∈ l) (hget : l[j]? = some y)
    (hne : x ≠ y) : x ∈ l.eraseIdx j := by
  obtain ⟨k, hk⟩ := List.mem_iff_getElem?.1 hx
  refine List.mem_eraseIdx_iff_getElem?.2 ⟨k, ?_, hk⟩
  rintro rfl
  exact hne (Option.some.inj (hk.symm.trans hget))

theorem mem_set_of_ne {α : Type*} {l : List α} {j : ℕ} {x y z : α} (hx : x ∈ l) (hget : l[j]? = some y)
    (hne : x ≠ y) : x ∈ l.set j z := by
  obtain ⟨k, hk⟩ := List.mem_iff_getElem?.1 hx
  have hjk : j ≠ k := by
    rintro rfl
    exact hne (Option.some.inj (hk.symm.trans hget))
  exact List.mem_iff_getElem?.2 ⟨k, by rw [List.getElem?_set_ne hjk, hk]⟩

theorem mem_set_self {α : Type*} {l : List α} {j : ℕ} {y z : α} (hget : l[j]? = some y) : z ∈ l.set j z := by
  obtain ⟨hlt, -⟩ := List.getElem?_eq_some_iff.1 hget
  exact List.mem_iff_getElem?.2 ⟨j, List.getElem?_set_self hlt⟩

/-- Nobody takes the timer of a call from it but the call itself and an expiry. -/
theorem TimeoutInv.step_armed (hs : TimeoutInv s) {act : Action} (h : step s act = .next t)
    (hfiber : act ≠ .cancelTimer f) {a : Addr} (hc : (s.pc f).call = some c) (hheld : (s.pc f).timer = some (c, a))
    (ha : Armed s c a) : Armed t c a ∨ HandedOut t c := by
  have hheap := (hs.held f c a hheld).1
  have hadd : ∀ {a' : Addr} {ms now : UInt64} {cb : TimerCb} {recurring : Bool}, (s.timers c.iom).heap a' = none →
      t.timers c.iom = ((s.timers c.iom).addTimer a' ms (some cb) recurring now).2 → Armed t c a := by
    intro a' ms now cb recurring hfree heq
    have hne : a ≠ a' := by
      rintro rfl
      simp [hfree] at hheap
    rw [Armed, heq, TimerManager.cb_addTimer, Function.update_of_ne hne]
    exact ha
  cases step_timers h c.iom with
  | same heq => exact .inl (by rwa [Armed, heq])
  | armed _ _ _ hfree heq => exact .inl (hadd hfree heq)
  | other hfree heq => exact .inl (hadd hfree heq)
  | @cancelled g d a' r htimer hiom hr heq =>
      left
      have hne : a ≠ a' := by
        rintro rfl
        have hd : (s.pc g).call = some d := by
          revert htimer
          cases s.pc g <;> simp [Pc.timer, Pc.call] <;> rename_i timer <;> cases timer <;> simp_all
        have hown := (hs.held g d a htimer).2 (.timeout c.timeout) (by rw [hiom]; exact ha)
        have hid : c.id = d.id := congrArg Timeout.winfo (TimerCb.timeout.inj hown)
        exact hfiber (by rw [hs.calls.eq_of_id hc hd hid])
      rw [Armed, heq, (TimerManager.cancel_cb hr).1, Function.update_of_ne hne]
      exact ha
  | expired hr heq hflying =>
      rcases (TimerManager.listExpiredCb_handsOut hr).kept a _ ha with hkept | hout
      · exact .inl (by rw [Armed, heq, hkept])
      · refine .inr ⟨.handedOut, ?_⟩
        rw [hflying]
        exact List.mem_append_right _ (List.mem_map_of_mem (mem_timeouts.2 hout))

/-- While `cancelled` is not set, a callback of a call in progress stays in flight. -/
theorem TimeoutInv.step_handedOut (hs : TimeoutInv s) {act : Action} (h : step s act = .next t)
    (hc : (s.pc f).call = some c) (hset : t.cancelled c.id = false) (hout : HandedOut s c) : HandedOut t c := by
  obtain ⟨pc, hmem⟩ := hout
  cases step_flying h with
  | same hflying _ => exact ⟨pc, hflying ▸ hmem⟩
  | expired _ hflying _ =>
      rw [HandedOut, hflying]
      exact ⟨pc, List.mem_append_left _ hmem⟩
  | dropped hget hgone hflying hcancelled =>
      rw [HandedOut, hflying]
      refine ⟨pc, mem_eraseIdx_of_ne hmem hget fun heq => ?_⟩
      cases heq
      have := hgone (hs.calls.owned f c hc)
      rw [hcancelled] at hset
      exact absurd (this.symm.trans hset) (by simp)
  | @tested j allow timeout hget hflying _ =>
      rw [HandedOut, hflying]
      by_cases heq : (c.timeout, pc) = (timeout, .handedOut)
      · cases heq
        exact ⟨.checked, mem_set_self hget⟩
      · exact ⟨pc, mem_set_of_ne hmem hget heq⟩
  | @wrote j allow timeout hget hflying hcancelled =>
      rw [HandedOut, hflying]
      by_cases heq : (c.timeout, pc) = (timeout, .checked)
      · cases heq
        exact ⟨.flagged, mem_set_self hget⟩
      · exact ⟨pc, mem_set_of_ne hmem hget heq⟩
  | finished hget hflying hcancelled _ _ =>
      rw [HandedOut, hflying]
      refine ⟨pc, mem_eraseIdx_of_ne hmem hget fun heq => ?_⟩
      cases heq
      have := hs.timeouts.flagged _ hmem
      rw [hcancelled] at hset
      exact absurd (this.symm.trans hset) (by simp)

/-- The callback that sets `cancelled` of a call in progress is past its tests. -/
theorem TimeoutInv.pastTests_of_set (hs : TimeoutInv s) {act : Action} (h : step s act = .next t)
    (hc : (s.pc f).call = some c) (hclear : s.cancelled c.id = false) (hset : t.cancelled c.id = true) :
    PastTests t c := by
  have hunset : t.cancelled = s.cancelled → PastTests t c := fun heq =>
    absurd (hset.symm.trans ((congrFun heq c.id).trans hclear)) (by simp)
  cases step_flying h with
  | same _ hcancelled => exact hunset hcancelled
  | expired _ _ hcancelled => exact hunset hcancelled
  | dropped _ _ _ hcancelled => exact hunset hcancelled
  | tested _ _ hcancelled => exact hunset hcancelled
  | finished _ _ hcancelled _ _ => exact hunset hcancelled
  | @wrote j allow timeout hget hflying hcancelled =>
      have hid : c.id = timeout.winfo := by
        by_contra hne
        rw [hcancelled, Function.update_of_ne hne, hclear] at hset
        cases hset
      have hown := hs.timeouts.own timeout (.inl ⟨_, List.mem_of_getElem? hget⟩) f c hc hid
      rw [PastTests, hflying, hown]
      exact ⟨.flagged, by simp, mem_set_self hget⟩

/-- A callback past its tests ends with the wake-up of its call. -/
theorem TimeoutInv.step_pastTests (hs : TimeoutInv s) {act : Action} (ha : RegistersInTime s act)
    (h : step s act = .next t) (hresume : act ≠ .resume f) {timer : Option Addr}
    (hc : (s.pc f).waiting = some (c, timer)) (hpast : PastTests s c) : PastTests t c ∨ Queued t f c := by
  obtain ⟨pc, hpc, hmem⟩ := hpast
  cases step_flying h with
  | same hflying _ => exact .inl ⟨pc, hpc, hflying ▸ hmem⟩
  | expired _ hflying _ =>
      rw [PastTests, hflying]
      exact .inl ⟨pc, hpc, List.mem_append_left _ hmem⟩
  | dropped hget _ hflying _ =>
      rw [PastTests, hflying]
      exact .inl ⟨pc, hpc, mem_eraseIdx_of_ne hmem hget fun heq => hpc (congrArg Prod.snd heq)⟩
  | tested hget hflying _ =>
      rw [PastTests, hflying]
      exact .inl ⟨pc, hpc, mem_set_of_ne hmem hget fun heq => hpc (congrArg Prod.snd heq)⟩
  | @wrote j allow timeout hget hflying _ =>
      rw [PastTests, hflying]
      by_cases heq : (c.timeout, pc) = (timeout, .checked)
      · cases heq
        exact .inl ⟨.flagged, by simp, mem_set_self hget⟩
      · exact .inl ⟨pc, hpc, mem_set_of_ne hmem hget heq⟩
  | @finished j allow timeout r hget hflying _ hr hio =>
      by_cases heq : (c.timeout, pc) = (timeout, .flagged)
      · cases heq
        cases allow with
        | true =>
            rcases hs.registered f c timer hc with hparked | hq
            · right
              rw [Queued, show t.io c.iom = r.2 from hio]
              exact (hs.tables.io c.iom).cancelEvent_mem_scheduled hr hparked
            · exact .inr (step_queued h hresume hq)
        | false =>
            rcases ha rfl c.timeout hget f c timer hc rfl with hq | hother
            · exact .inr (step_queued h hresume hq)
            · rw [PastTests, hflying]
              exact .inl hother
      · rw [PastTests, hflying]
        exact .inl ⟨pc, hpc, mem_eraseIdx_of_ne hmem hget heq⟩

theorem call_of_waiting {pc : Pc} {timer : Option Addr} (h : pc.waiting = some (c, timer)) : pc.call = some c := by
  cases pc with
  | yielding | suspended =>
      cases h
      rfl
  | _ => cases h

theorem timer_of_waiting {pc : Pc} {a : Addr} (h : pc.waiting = some (c, some a)) : pc.timer = some (c, a) := by
  cases pc with
  | yielding | suspended =>
      cases h
      rfl
  | _ => cases h

/-- A waiting call that takes no step but that to suspension stays watched. -/
theorem TimeoutInv.step_watched (hs : TimeoutInv s) {act : Action} (ha : RegistersInTime s act)
    (h : step s act = .next t) (hresume : act ≠ .resume f) (hcancel : act ≠ .cancelTimer f) {a : Addr}
    (hc : (s.pc f).waiting = some (c, some a)) : Watched t f c a := by
  have hcall := call_of_waiting hc
  rcases hs.watch.waiting f c a hc with ⟨hclear, hcoming⟩ | hpast | hq
  · cases hset : t.cancelled c.id with
    | false =>
        refine .inl ⟨hset, ?_⟩
        rcases hcoming with harmed | hout
        · exact hs.step_armed h hcancel hcall (timer_of_waiting hc) harmed
        · exact .inr (hs.step_handedOut h hcall hset hout)
    | true => exact .inr (.inl (hs.pastTests_of_set h hcall hclear hset))
  · exact .inr (hs.step_pastTests ha h hresume hc hpast)
  · exact .inr (.inr (step_queued h hresume hq))

/-- A call that registers in time is watched from then on. -/
theorem TimeoutInv.watched_of_add (hs : TimeoutInv s) {act : Action} (ha : RegistersInTime s act)
    (h : step s act = .next t) {a : Addr} (hpc : s.pc f = .adding c (some a))
    (hafter : t.pc f = .yielding c (some a)) : Watched t f c a := by
  obtain ⟨rfl, -⟩ := step_add h hpc hafter
  obtain ⟨before, after, hmove⟩ := step_fiber h rfl
  cases hset : s.cancelled c.id with
  | false =>
      have hclear : t.cancelled c.id = false := by rw [hmove.cancelled, hset]
      refine .inl ⟨hclear, ?_⟩
      rcases hs.watch.adding f c a hpc hset with harmed | hout
      · exact hs.step_armed h (by simp) (by rw [hpc]; rfl) (by rw [hpc]; rfl) harmed
      · exact .inr (hs.step_handedOut h (by rw [hpc]; rfl) hclear hout)
  | true =>
      obtain ⟨pc, hne, hmem⟩ := ha rfl c a hpc hset
      exact .inr (.inl ⟨pc, hne, hmove.flying ▸ hmem⟩)

theorem TimeoutInv.step_watchInv (hs : TimeoutInv s) {act : Action} (ha : RegistersInTime s act)
    (h : step s act = .next t) : WatchInv t := by
  refine ⟨fun f c a hpc hclear => ?_, fun f c a hc => ?_⟩
  · by_cases hfiber : act.fiber = some f
    · obtain ⟨before, after, hmove⟩ := step_fiber h hfiber
      have hafter : t.pc f = after := by rw [hmove.pc, Function.update_self]
      have hnext := hmove.next
      rw [← hafter, hpc] at hnext
      cases hnext with
      | armed => exact .inl (step_arm h hmove.old hpc).2.2
    · rw [step_pc_of_ne h hfiber] at hpc
      have hold : s.cancelled c.id = false := by
        by_contra hset
        have hset := step_cancelled h (by simpa using hset)
        exact absurd (hset.symm.trans hclear) (by simp)
      rcases hs.watch.adding f c a hpc hold with harmed | hout
      · refine hs.step_armed h ?_ (by rw [hpc]; rfl) (by rw [hpc]; rfl) harmed
        rintro rfl
        exact hfiber rfl
      · exact .inr (hs.step_handedOut h (by rw [hpc]; rfl) hclear hout)
  · by_cases hfiber : act.fiber = some f
    · obtain ⟨before, after, hmove⟩ := step_fiber h hfiber
      have hafter : t.pc f = after := by rw [hmove.pc, Function.update_self]
      rw [hafter] at hc
      rcases hmove.next.waiting hc with ⟨hbefore, hsuspended⟩ | ⟨hbefore, hyielding⟩
      · have hpc := hmove.old.trans hbefore
        refine hs.step_watched ha h ?_ ?_ (by rw [hpc]; rfl)
        · rintro rfl
          simp [step, hpc] at h
        · rintro rfl
          simp [step, hpc] at h
      · exact hs.watched_of_add ha h (hmove.old.trans hbefore) (hafter.trans hyielding)
    · refine hs.step_watched ha h ?_ ?_ (by rwa [← step_pc_of_ne h hfiber])
      · rintro rfl
        exact hfiber rfl
      · rintro rfl
        exact hfiber rfl

/-! ### Runs -/

theorem step_timeoutInv (hs : TimeoutInv s) {act : Action} (ha : RegistersInTime s act) (h : step s act = .next t) :
    TimeoutInv t :=
  ⟨step_callsInv hs.calls h, step_tablesInv hs.tables h, step_timeoutsInv hs.calls hs.timeouts h, step_heldInv hs.held h,
    step_registeredInv hs.registered h, hs.step_watchInv ha h⟩

theorem timeoutInv_start (now : UInt64) : TimeoutInv (start now) where
  calls := ⟨fun f g id hf => by simp [start, Pc.callId, Pc.call] at hf, by simp [start, Pc.call],
    by simp [start, Pc.call]⟩
  tables := ⟨fun _ => IOManager.wf_init, fun _ => TimerManager.init_wf now⟩
  timeouts := by
    have hnone : ∀ timeout, ¬ Known (start now) timeout := by
      simp [Known, start, TimerManager.cb, TimerManager.init]
    exact ⟨fun timeout h => absurd h (hnone timeout), fun timeout h => absurd h (hnone timeout), by simp [start]⟩
  held := by simp [HeldInv, start, Pc.timer]
  registered := by simp [RegisteredInv, start, Pc.waiting]
  watch := ⟨by simp [start], by simp [start, Pc.waiting]⟩

theorem TimeoutInv.noLostTimeout (hs : TimeoutInv s) : NoLostTimeout s := by
  intro f c a hpc
  have hpast : PastTests s c → HandedOut s c := fun ⟨pc, _, hmem⟩ => ⟨pc, hmem⟩
  rcases hs.watch.waiting f c a (by rw [hpc]; rfl) with ⟨hclear, harmed | hout⟩ | htests | hq
  · exact ⟨.inl ⟨(hs.tables.timers c.iom).mem_of_cb harmed, harmed⟩,
      fun hset => absurd (hset.symm.trans hclear) (by simp)⟩
  · exact ⟨.inr (.inl hout), fun hset => absurd (hset.symm.trans hclear) (by simp)⟩
  · exact ⟨.inr (.inl (hpast htests)), fun _ => .inl htests⟩
  · exact ⟨.inr (.inr hq), fun _ => .inr hq⟩

/-- In a run in which no call registers after its timeout callback has come and gone, and none is left registered by its last callback, no call with a timeout is left without its timer, its callback or its wake-up. -/
theorem no_lost_timeout_of_registersInTime (now : UInt64) (acts : List Action)
    (h : Along step RegistersInTime (start now) acts) : Throughout step NoLostTimeout (start now) acts :=
  (throughout_of_along (fun _ _ _ hs ha ht => step_timeoutInv hs ha ht) (timeoutInv_start now) h).1.mono
    fun _ hs => hs.noLostTimeout

/-- A read arms its timer of ten milliseconds. -/
def armedRead : List Action :=
  [.track 5 (some true), .setTimeout 5 .SO_RCVTIMEO 10, .begin 0 0 (.read 5), .lookup 0, .raw 0 .wouldBlock, .arm 0 0 100]

/-- The read registers and suspends, and its timer expires. -/
theorem no_lost_timeout_armedRead :
    Throughout step NoLostTimeout (start 0)
      (armedRead ++ [.add 0 true, .yield 0, .expire 0 110 1, .callback 0 true, .callback 0 true, .callback 0 true]) := by
  refine no_lost_timeout_of_registersInTime 0 _ ?_
  obtain ⟨s, hs, hclear⟩ : ∃ s, run step (start 0) armedRead = .next s ∧ s.cancelled = fun _ => false := ⟨_, rfl, rfl⟩
  refine (along_append hs).2 ⟨along_of_forall (by simp [armedRead, RegistersInTime]) _,
    along_cons_of_forall (fun _ c a _ hset => ?_) fun t _ => along_of_forall (by simp [RegistersInTime]) t⟩
  simp [hclear] at hset

/-- The timer expires before the read has registered, and its callback finds nothing to cancel. -/
theorem read_registers_after_its_timeout : ¬ ∀ acts, Throughout step NoLostTimeout (start 0) acts := by
  intro h
  obtain ⟨s, hs, hpc, hflying, hcb, hscheduled⟩ : ∃ s, run step (start 0)
      (armedRead ++ [.expire 0 110 1, .callback 0 true, .callback 0 true, .callback 0 true, .add 0 true, .yield 0]) =
        .next s ∧ s.pc 0 = .suspended ⟨0, 0, .read 5, 10, 0⟩ (some 0) ∧ s.flying = [] ∧ (s.timers 0).timers = [] ∧
        (s.io 0).scheduled = [] := ⟨_, rfl, by decide +kernel⟩
  rcases ((h _).last hs 0 _ 0 hpc).1 with ⟨hmem, -⟩ | ⟨pc, hmem⟩ | hq
  · simp [hcb] at hmem
  · simp [hflying] at hmem
  · simp [Queued, hscheduled] at hq

end Awcotn.Hook
