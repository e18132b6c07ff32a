import Awcotn.Hook.Timeouts

/-!
# Deadlines of one call

A tracked call reads its timeout once, when it looks its descriptor up, and arms a timer each time its raw operation would block. Every one of these timers has the whole timeout before it, counted from the reading at which it is armed, so the timers of a call that is woken and blocked again reach further than the first did. `deadlines_bounded_iff` is the exact condition under which they do not.
-/

namespace Awcotn.Hook

open Transition

variable {s t : State} {f : FiberId} {c : Call} {a : Action}

/-! ### The timer of one wait -/

/-- The deadline of the timer that a call with this timeout arms; a timeout of `-1` is none. -/
def deadline (timeoutMs now : UInt64) : Option UInt64 := if timeoutMs = -1 then none else some (timeoutMs + now)

theorem step_arm_deadline {b : Addr} {now : UInt64} (h : step s (.arm f b now) = .next t) :
    ∃ c timer, s.pc f = .arming c ∧ t.pc f = .adding c timer ∧
      timer.map (t.timers c.iom).next = deadline c.timeoutMs now := by
  cases step_move h with
  | @unarmed _ c _ _ hpc hnone => exact ⟨c, none, hpc, State.goto_pc .., by simp [deadline, hnone]⟩
  | @armed _ c _ _ hpc hsome hfree =>
      refine ⟨c, some b, hpc, State.goto_pc .., ?_⟩
      simp [deadline, hsome, State.goto, State.setTimers]

/-- A tracked `do_io` call takes its timeout from the context of its descriptor. -/
theorem lookupStep_timeoutMs {fd : ℕ} {event : Event} {timeoutSo : TimeoutSo} {ctx : FdCtx} {d : Call}
    (hrequest : c.request = .doIo fd event timeoutSo) (hctx : s.fdMgr.get fd = some ctx)
    (hraw : (lookupStep s f c).pc f = .raw d) : d = { c with timeoutMs := ctx.getTimeout timeoutSo } := by
  obtain ⟨id, iom, request, timeoutMs, generation⟩ := c
  obtain rfl : request = .doIo fd event timeoutSo := hrequest
  simp only [lookupStep, hctx] at hraw
  split_ifs at hraw
  · rw [State.finish_pc] at hraw
    cases hraw
  · rw [State.goto_pc] at hraw
    cases hraw
  · rw [State.goto_pc] at hraw
    exact (Pc.raw.inj hraw).symm

/-! ### The first timer of a call -/

/-- The process, and of each call that has armed a timer the clock reading and the timeout it did so with first. -/
structure Dated where
  base : State
  first : CallId → Option (UInt64 × UInt64)

namespace Dated

def record (s : State) (first : CallId → Option (UInt64 × UInt64)) : Action → CallId → Option (UInt64 × UInt64)
  | .arm f _ now =>
    match s.pc f with
    | .arming c =>
      if c.timeoutMs = -1 then first
      else Function.update first c.id (some ((first c.id).getD (now, c.timeoutMs)))
    | _ => first
  | _ => first

def step (s : Dated) (a : Action) : Outcome Crash Dated :=
  (Hook.step s.base a).map fun t => { base := t, first := record s.base s.first a }

def start (now : UInt64) : Dated := { base := Hook.start now, first := fun _ => none }

/-- The call `id` arms a timer with a timeout, as a step that goes on. -/
def Arms (id : CallId) (s : Dated) (a : Action) (c : Call) (b : Addr) (now : UInt64) : Prop :=
  ∃ f, a = .arm f b now ∧ s.base.pc f = .arming c ∧ c.id = id ∧ c.timeoutMs ≠ -1 ∧ (s.base.timers c.iom).heap b = none

/-- A timer that the call arms has its deadline at most its first timeout after its first reading, as exact numbers. -/
def Bounded (id : CallId) (s : Dated) (a : Action) : Prop :=
  ∀ c b now t, Arms id s a c b now → step s a = .next t → ∃ start timeoutMs, t.first id = some (start, timeoutMs) ∧
    ((t.base.timers c.iom).next b).toNat ≤ start.toNat + timeoutMs.toNat

/-- Where the call has armed a timer before, the clock reads no later than it did then, or the new deadline wraps. -/
def Prompt (id : CallId) (s : Dated) (a : Action) : Prop :=
  ∀ c b now, Arms id s a c b now → ∀ start timeoutMs, s.first id = some (start, timeoutMs) →
    now ≤ start ∨ 2 ^ 64 ≤ timeoutMs.toNat + now.toNat

/-- A call keeps the timeout it first armed a timer with. -/
structure Inv (s : Dated) : Prop where
  calls : CallsInv s.base
  below : ∀ id r, s.first id = some r → id < s.base.nextCall
  same : ∀ f c r, (s.base.pc f).call = some c → s.first c.id = some r → c.timeoutMs = r.2 ∧ s.base.pc f ≠ .entered c

theorem start_inv (now : UInt64) : Inv (start now) :=
  ⟨(timeoutInv_start now).calls, by simp [start], by simp [start]⟩

theorem step_eq_next {s s' : Dated} (h : step s a = .next s') :
    Hook.step s.base a = .next s'.base ∧ s'.first = record s.base s.first a := by
  obtain ⟨t, ht, rfl⟩ := Outcome.map_eq_next.1 h
  exact ⟨ht, rfl⟩

/-- What a step records of a call. -/
theorem record_cases (s : State) (first : CallId → Option (UInt64 × UInt64)) (a : Action) (id : CallId) :
    record s first a id = first id ∨ ∃ f b now c, a = .arm f b now ∧ s.pc f = .arming c ∧ c.id = id ∧
      c.timeoutMs ≠ -1 ∧ record s first a id = some ((first id).getD (now, c.timeoutMs)) := by
  cases a with
  | arm f b now =>
      cases hpc : s.pc f with
      | arming c =>
          by_cases hnone : c.timeoutMs = -1
          · exact .inl (by simp [record, hpc, hnone])
          · by_cases hid : c.id = id
            · subst hid
              exact .inr ⟨f, b, now, c, rfl, hpc, rfl, hnone, by simp [record, hpc, hnone]⟩
            · exact .inl (by simp [record, hpc, hnone, Function.update_of_ne (Ne.symm hid)])
      | _ => exact .inl (by simp [record, hpc])
  | _ => exact .inl rfl

/-- After a move that leaves its fiber in a call, the call is new, has just looked its descriptor up, or is the same. -/
theorem same_of_next {s : State} {before after : Pc} (h : Next s before after) (hc : after.call = some c) :
    before = .idle ∧ c.id = s.nextCall ∨ (∃ d, before = .entered d ∧ d.id = c.id) ∨
      before.call = some c ∧ (∀ d, before ≠ .entered d) ∧ ∀ d, after ≠ .entered d := by
  cases h with
  | begin i request =>
      cases hc
      exact .inl ⟨rfl, rfl⟩
  | untracked d =>
      cases hc
      exact .inr (.inl ⟨c, rfl, rfl⟩)
  | tracked d timeoutMs =>
      cases hc
      exact .inr (.inl ⟨d, rfl, rfl⟩)
  | interrupted | blocked | unarmed | armed | added | addFailed | failedConnect | yielded | resumed | disarmed | again
  | asked =>
      cases hc
      exact .inr (.inr ⟨rfl, nofun, nofun⟩)
  | refused | directDone | rawDone | gaveUp | timedOut | answered | close | found | notFound | cancelledAll | deleted
  | closed => cases hc

theorem step_inv {s s' : Dated} (hs : s.Inv) (h : step s a = .next s') : s'.Inv := by
  obtain ⟨ht, hfirst⟩ := step_eq_next h
  refine ⟨step_callsInv hs.calls ht, fun id r hr => ?_, fun f c r hc hr => ?_⟩
  · rw [hfirst] at hr
    rcases record_cases s.base s.first a id with heq | ⟨f, b, now, c, -, hpc, rfl, -, -⟩
    · exact (hs.below id r (heq ▸ hr)).trans_le (step_nextCall_le ht)
    · exact (hs.calls.below f c (by rw [hpc]; rfl)).trans_le (step_nextCall_le ht)
  · rw [hfirst] at hr
    by_cases hfiber : a.fiber = some f
    · obtain ⟨before, after, hmove⟩ := step_fiber ht hfiber
      have hafter : s'.base.pc f = after := by rw [hmove.pc, Function.update_self]
      rw [hafter] at hc ⊢
      rcases record_cases s.base s.first a c.id with heq | ⟨g, b, now, d, rfl, hpc, hid, -, heq⟩
      · rw [heq] at hr
        rcases same_of_next hmove.next hc with ⟨-, hnew⟩ | ⟨d, hentered, hid⟩ | ⟨hcall, -, hentered⟩
        · exact absurd (hs.below c.id r hr) (by rw [hnew]; exact lt_irrefl _)
        · have hpc : s.base.pc f = .entered d := hmove.old.trans hentered
          exact absurd hpc (hs.same f d r (by rw [hpc]; rfl) (hid ▸ hr)).2
        · have hold : (s.base.pc f).call = some c := by rw [hmove.old, hcall]
          exact ⟨(hs.same f c r hold hr).1, hentered c⟩
      · -- the call arms a timer
        obtain rfl : g = f := Option.some.inj hfiber
        obtain rfl : before = .arming d := hmove.old.symm.trans hpc
        have hnext := hmove.next
        have hcd : c = d ∧ ∀ c, after ≠ .entered c := by
          cases hnext with
          | unarmed | armed => exact ⟨(Option.some.inj hc).symm, nofun⟩
        obtain ⟨rfl, hentered⟩ := hcd
        refine ⟨?_, hentered c⟩
        rw [heq] at hr
        cases hold : s.first c.id with
        | none =>
            obtain rfl : (now, c.timeoutMs) = r := by simpa [hold] using hr
            rfl
        | some r' =>
            simp only [hold, Option.getD_some, Option.some.injEq] at hr
            exact hr ▸ (hs.same g c r' (by rw [hpc]; rfl) hold).1
    · rw [step_pc_of_ne ht hfiber] at hc ⊢
      rcases record_cases s.base s.first a c.id with heq | ⟨g, b, now, d, rfl, hpc, hid, -, -⟩
      · exact hs.same f c r hc (heq ▸ hr)
      · have hfg : f = g := hs.calls.eq_of_id hc (by rw [hpc]; rfl) hid.symm
        exact absurd (congrArg some hfg.symm) hfiber

/-- The deadline of the timer that a call arms, and what is recorded of the call by then. -/
theorem arms_next {id : CallId} {s s' : Dated} {b : Addr} {now : UInt64} (harms : Arms id s a c b now)
    (h : step s a = .next s') : s'.first id = some ((s.first id).getD (now, c.timeoutMs)) ∧
      (s'.base.timers c.iom).next b = c.timeoutMs + now := by
  obtain ⟨f, rfl, hpc, rfl, hsome, hfree⟩ := harms
  obtain ⟨ht, hfirst⟩ := step_eq_next h
  obtain ⟨d, timer, hpc', hafter, hdeadline⟩ := step_arm_deadline ht
  obtain rfl : c = d := Pc.arming.inj (hpc.symm.trans hpc')
  refine ⟨by simp [hfirst, record, hpc, hsome], ?_⟩
  simp only [Hook.step, hpc, if_neg hsome, hfree, Option.isNone_none, if_true] at ht
  rw [← Outcome.next.inj ht]
  simp [State.goto, State.setTimers]

/-- A step that arms a timer goes on. -/
theorem arms_isNext {id : CallId} {s : Dated} {b : Addr} {now : UInt64} (harms : Arms id s a c b now) :
    ∃ s', step s a = .next s' := by
  obtain ⟨f, rfl, hpc, rfl, hsome, hfree⟩ := harms
  simp [step, Hook.step, hpc, hsome, hfree, Outcome.map]

theorem toNat_add_le_iff (timeoutMs now start : UInt64) :
    (timeoutMs + now).toNat ≤ start.toNat + timeoutMs.toNat ↔
      now ≤ start ∨ 2 ^ 64 ≤ timeoutMs.toNat + now.toNat := by
  have htimeout := timeoutMs.toNat_lt
  have hnow := now.toNat_lt
  rw [UInt64.toNat_add, UInt64.le_iff_toNat_le]
  omega

/-- A call arms every timer with the timeout of the first. -/
theorem Inv.timeoutMs_eq {s : Dated} (hs : s.Inv) {id : CallId} {b : Addr} {now : UInt64} (harms : Arms id s a c b now)
    {start timeoutMs : UInt64} (hfirst : s.first id = some (start, timeoutMs)) : c.timeoutMs = timeoutMs := by
  obtain ⟨f, -, hpc, rfl, -, -⟩ := harms
  exact (hs.same f c _ (by rw [hpc]; rfl) hfirst).1

theorem bounded_iff_prompt {s : Dated} (hs : s.Inv) (id : CallId) (a : Action) : Bounded id s a ↔ Prompt id s a := by
  constructor
  · intro hbounded c b now harms start timeoutMs hfirst
    obtain ⟨s', h⟩ := arms_isNext harms
    obtain ⟨start', timeoutMs', hfirst', hle⟩ := hbounded c b now s' harms h
    obtain ⟨hrecord, hnext⟩ := arms_next harms h
    obtain rfl := hs.timeoutMs_eq harms hfirst
    obtain ⟨rfl, rfl⟩ : start = start' ∧ c.timeoutMs = timeoutMs' := by simpa [hfirst, hfirst'] using hrecord.symm
    exact (toNat_add_le_iff _ _ _).1 (hnext ▸ hle)
  · intro hprompt c b now s' harms h
    obtain ⟨hrecord, hnext⟩ := arms_next harms h
    cases hfirst : s.first id with
    | none =>
        refine ⟨now, c.timeoutMs, by simpa [hfirst] using hrecord, ?_⟩
        rw [hnext]
        exact (toNat_add_le_iff _ _ _).2 (.inl (UInt64.le_refl now))
    | some r =>
        obtain ⟨start, timeoutMs⟩ := r
        obtain rfl := hs.timeoutMs_eq harms hfirst
        refine ⟨start, c.timeoutMs, by simpa [hfirst] using hrecord, ?_⟩
        rw [hnext]
        exact (toNat_add_le_iff _ _ _).2 (hprompt c b now harms start _ hfirst)

/-- Whatever wakes a call and whatever the clock reads: every timer it arms has its deadline within the first timeout exactly if it never arms one at a later reading than the first, except where the deadline wraps. -/
theorem deadlines_bounded_iff (now : UInt64) (id : CallId) (acts : List Action) :
    Along step (Bounded id) (start now) acts ↔ Along step (Prompt id) (start now) acts :=
  along_congr (fun _ _ _ hs h => step_inv hs h) (fun _ a hs => bounded_iff_prompt hs id a) (start_inv now) acts

/-- A read with a timeout of ten milliseconds, armed at 100, is woken by its event, and its raw operation would block again. -/
def wokenRead : List Action :=
  armedRead ++ [.add 0 true, .yield 0, .wait 0 [(5, ⟨true, false, false, false⟩)], .dispatch 0 true, .resume 0,
    .cancelTimer 0, .check 0, .raw 0 .wouldBlock]

/-- Five milliseconds after its first timer the read arms another, which ends five milliseconds after the first would have. -/
theorem readiness_extends_read : ¬ Along step (Bounded 0) (start 0) (wokenRead ++ [.arm 0 1 105]) := by
  intro h
  obtain ⟨s, hrun, harms, hfirst⟩ : ∃ s, run step (start 0) wokenRead = .next s ∧
      Arms 0 s (.arm 0 1 105) ⟨0, 0, .read 5, 10, 0⟩ 1 105 ∧ s.first 0 = some (100, 10) :=
    ⟨_, rfl, ⟨0, rfl, rfl, rfl, by decide, rfl⟩, rfl⟩
  obtain ⟨s', hstep⟩ := arms_isNext harms
  obtain ⟨start, timeoutMs, hfirst', hle⟩ := ((along_append hrun).1 h).2.1 _ _ _ s' harms hstep
  obtain ⟨hrecord, hnext⟩ := arms_next harms hstep
  obtain ⟨rfl, rfl⟩ : start = 100 ∧ timeoutMs = 10 := by simpa [hfirst, hfirst', eq_comm] using hrecord
  rw [hnext] at hle
  exact absurd hle (by decide)

end Dated

end Awcotn.Hook
