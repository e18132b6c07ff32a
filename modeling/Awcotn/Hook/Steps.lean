import Awcotn.Hook.Moves

/-!
# What a step of a hooked call can do

One inversion lemma for the steps of a fiber and one for everything else: where the fiber goes, and which parts of the process a step leaves alone.
-/

namespace Awcotn.Hook

open Transition

/-- The moves of a fiber. -/
inductive Next (s : State) : Pc → Pc → Prop
  | begin (i : IomId) (request : Request) : Next s .idle (.entered (s.newCall i request))
  | untracked (c : Call) : Next s (.entered c) (.direct c)
  | tracked (c : Call) (timeoutMs : UInt64) : Next s (.entered c) (.raw { c with timeoutMs := timeoutMs })
  | refused (c : Call) : Next s (.entered c) .idle
  | directDone (c : Call) : Next s (.direct c) .idle
  | interrupted (c : Call) : Next s (.raw c) (.raw c)
  | blocked (c : Call) : Next s (.raw c) (.arming c)
  | rawDone (c : Call) : Next s (.raw c) .idle
  | unarmed (c : Call) : Next s (.arming c) (.adding c none)
  | armed (c : Call) (a : Addr) : Next s (.arming c) (.adding c (some a))
  | added (c : Call) (timer : Option Addr) : Next s (.adding c timer) (.yielding c timer)
  | addFailed (c : Call) (timer : Option Addr) : Next s (.adding c timer) (.failed c timer)
  | gaveUp (c : Call) (timer : Option Addr) : Next s (.failed c timer) .idle
  | failedConnect (c : Call) (timer : Option Addr) : c.request.isDoIo = false → Next s (.failed c timer) (.soError c)
  | yielded (c : Call) (timer : Option Addr) : Next s (.yielding c timer) (.suspended c timer)
  | resumed (c : Call) (timer : Option Addr) : Next s (.suspended c timer) (.woken c timer)
  | disarmed (c : Call) (timer : Option Addr) : Next s (.woken c timer) (.checking c)
  | timedOut (c : Call) : Next s (.checking c) .idle
  | again (c : Call) : s.cancelled c.id = false → Next s (.checking c) (.raw c)
  | asked (c : Call) : c.request.isDoIo = false → Next s (.checking c) (.soError c)
  | answered (c : Call) : Next s (.soError c) .idle
  | close (fd : ℕ) (i : Option IomId) : Next s .idle (.closeGet fd i)
  | found (fd : ℕ) (i : Option IomId) : Next s (.closeGet fd i) (.closeCancel fd i)
  | notFound (fd : ℕ) (i : Option IomId) : Next s (.closeGet fd i) (.closeRaw fd)
  | cancelledAll (fd : ℕ) (i : Option IomId) : Next s (.closeCancel fd i) (.closeDel fd)
  | deleted (fd : ℕ) : Next s (.closeDel fd) (.closeRaw fd)
  | closed (fd : ℕ) : Next s (.closeRaw fd) .idle

/-- The fiber an action is a step of. -/
def Action.fiber : Action → Option FiberId
  | .begin f _ _ | .lookup f | .raw f _ | .arm f _ _ | .add f _ | .yield f | .resume f | .cancelTimer f | .check f
  | .soError f _ | .close f _ _ | .closeStep f _ => some f
  | _ => none

/-- The call a fiber is in. -/
def Pc.call : Pc → Option Call
  | .entered c | .direct c | .raw c | .arming c | .adding c _ | .failed c _ | .yielding c _ | .suspended c _ | .woken c _
  | .checking c | .soError c => some c
  | _ => none

/-- The generations after a fiber has left a program point. -/
def Pc.bump (generation : ℕ → ℕ) : Pc → ℕ → ℕ
  | .closeRaw fd => Function.update generation fd (generation fd + 1)
  | _ => generation

/-- How many calls are made by a move. -/
def Pc.opens : Pc → Pc → ℕ
  | .idle, .entered _ => 1
  | _, _ => 0

/-- Whose `timer_info` is held by its call after a move. -/
def Pc.holders (s : State) : Pc → Pc → CallId → Bool
  | .idle, .entered _ => Function.update s.owned s.nextCall true
  | before, .idle =>
    match before.call with
    | some c => Function.update s.owned c.id false
    | none => s.owned
  | _, _ => s.owned

/-- What a call may return from a program point. -/
inductive Returns : Pc → Call → Return → Prop
  | refused (c : Call) : Returns (.entered c) c .EBADF
  | direct (c : Call) (r : RawResult) : Returns (.direct c) c (.raw r)
  | raw (c : Call) (r : RawResult) : Returns (.raw c) c (.raw r)
  | gaveUp (c : Call) (timer : Option Addr) : Returns (.failed c timer) c .addEventFailed
  | timedOut (c : Call) : Returns (.checking c) c .ETIMEDOUT
  | answered (c : Call) (error : Option ℕ) : Returns (.soError c) c (.soError error)

/-- A fiber moves. -/
structure FiberStep (s t : State) (f : FiberId) (before after : Pc) : Prop where
  old : s.pc f = before
  pc : t.pc = Function.update s.pc f after
  next : Next s before after
  generation : t.generation = before.bump s.generation
  nextCall : t.nextCall = s.nextCall + before.opens after
  owned : t.owned = before.holders s after
  cancelled : t.cancelled = s.cancelled
  flying : t.flying = s.flying
  log : t.log = s.log ∨ ∃ c r, t.log = s.log ++ [(c, r)] ∧ Returns before c r

variable {s t : State} {f : FiberId}

/-- A fiber in a call has just made it, or was in it before. -/
theorem Next.call {before after : Pc} (h : Next s before after) {c : Call} (hc : after.call = some c) :
    (before = .idle ∧ ∃ i request, c = s.newCall i request) ∨
      ∃ c' timeoutMs, before.call = some c' ∧ c = { c' with timeoutMs := timeoutMs } := by
  cases h with
  | begin i request =>
      cases hc
      exact .inl ⟨rfl, i, request, rfl⟩
  | tracked c' timeoutMs =>
      cases hc
      exact .inr ⟨c', timeoutMs, rfl, rfl⟩
  | untracked | interrupted | blocked | unarmed | armed | added | addFailed | failedConnect | yielded | resumed | disarmed
  | again | asked =>
      cases hc
      exact .inr ⟨c, c.timeoutMs, rfl, rfl⟩
  | refused | directDone | rawDone | gaveUp | timedOut | answered | close | found | notFound | cancelledAll | deleted
  | closed => cases hc

/-- A call lets go of its `timer_info` only by returning. -/
theorem Next.holders {before after : Pc} (h : Next s before after) {id : CallId} (hid : s.owned id) :
    before.holders s after id ∨ after.call = none ∧ ∃ c, before.call = some c ∧ c.id = id := by
  have hreturn : ∀ c : Call, Function.update s.owned c.id false id = true ∨
      Pc.call .idle = none ∧ ∃ c', some c = some c' ∧ c'.id = id := by
    intro c
    by_cases heq : id = c.id
    · exact .inr ⟨rfl, c, rfl, heq.symm⟩
    · exact .inl (by rwa [Function.update_of_ne heq])
  cases h with
  | begin i request =>
      left
      by_cases heq : id = s.nextCall
      · subst heq
        exact Function.update_self ..
      · exact (Function.update_of_ne heq ..).trans hid
  | refused c | directDone c | rawDone c | gaveUp c | timedOut c | answered c => exact hreturn c
  | _ => exact .inl hid

/-- A call returns. -/
theorem FiberStep.finish {before : Pc} {c : Call} {r : Return} (hbefore : s.pc f = before)
    (hnext : Next s before .idle) (hgeneration : before.bump s.generation = s.generation)
    (hcall : before.call = some c) (hr : Returns before c r) : FiberStep s (s.finish f c r) f before .idle := by
  have hopens : before.opens .idle = 0 := by cases before <;> rfl
  have howned : before.holders s .idle = Function.update s.owned c.id false := by
    cases before <;> cases hcall <;> rfl
  exact ⟨hbefore, rfl, hnext, hgeneration.symm, by rw [hopens]; rfl, by rw [howned]; rfl, rfl, rfl,
    .inr ⟨c, r, rfl, hr⟩⟩

theorem FiberStep.goto {before after : Pc} (hbefore : s.pc f = before)
    (hnext : Next s before after) (hgeneration : before.bump s.generation = s.generation)
    (hopens : before.opens after = 0) (howned : before.holders s after = s.owned) :
    FiberStep s (s.goto f after) f before after :=
  ⟨hbefore, rfl, hnext, hgeneration.symm, by rw [hopens]; rfl, howned.symm, rfl, rfl, .inl rfl⟩

theorem lookupStep_spec {c : Call} (hpc : s.pc f = .entered c) :
    ∃ after, FiberStep s (lookupStep s f c) f (.entered c) after := by
  simp only [lookupStep]
  split
  · split
    · exact ⟨_, .goto hpc (.untracked c) rfl rfl rfl⟩
    · split
      · exact ⟨_, .finish hpc (.refused c) rfl rfl (.refused c)⟩
      split
      · exact ⟨_, .goto hpc (.untracked c) rfl rfl rfl⟩
      · exact ⟨_, .goto hpc (.tracked c _) rfl rfl rfl⟩
  · split
    · exact ⟨_, .finish hpc (.refused c) rfl rfl (.refused c)⟩
    · split
      · exact ⟨_, .finish hpc (.refused c) rfl rfl (.refused c)⟩
      split
      · exact ⟨_, .goto hpc (.untracked c) rfl rfl rfl⟩
      · exact ⟨_, .goto hpc (.tracked c _) rfl rfl rfl⟩

/-- Every step of a fiber is one of its moves, and it leaves the callbacks in flight and what they have written alone. -/
theorem step_fiber {a : Action} (h : step s a = .next t) (ha : a.fiber = some f) :
    ∃ before after, FiberStep s t f before after := by
  cases step_move h with
  | begin hpc =>
      cases ha
      exact ⟨_, _, hpc, rfl, .begin _ _, rfl, rfl, rfl, rfl, rfl, .inl rfl⟩
  | lookup hpc =>
      cases ha
      exact ⟨_, lookupStep_spec hpc⟩
  | direct hpc =>
      cases ha
      exact ⟨_, _, .finish hpc (.directDone _) rfl rfl (.direct _ _)⟩
  | blocked hpc =>
      cases ha
      exact ⟨_, _, .goto hpc (.blocked _) rfl rfl rfl⟩
  | interrupted hpc =>
      cases ha
      exact ⟨_, _, hpc, by rw [← hpc, Function.update_eq_self], .interrupted _, rfl, rfl, rfl, rfl, rfl, .inl rfl⟩
  | rawDone hpc =>
      cases ha
      exact ⟨_, _, .finish hpc (.rawDone _) rfl rfl (.raw _ _)⟩
  | unarmed hpc =>
      cases ha
      exact ⟨_, _, .goto hpc (.unarmed _) rfl rfl rfl⟩
  | armed hpc =>
      cases ha
      exact ⟨_, _, hpc, rfl, .armed _ _, rfl, rfl, rfl, rfl, rfl, .inl rfl⟩
  | added hpc =>
      cases ha
      exact ⟨_, _, hpc, rfl, .added _ _, rfl, rfl, rfl, rfl, rfl, .inl rfl⟩
  | addFailed hpc =>
      cases ha
      exact ⟨_, _, hpc, rfl, .addFailed _ _, rfl, rfl, rfl, rfl, rfl, .inl rfl⟩
  | yielded hpc =>
      cases ha
      exact ⟨_, _, .goto hpc (.yielded _ _) rfl rfl rfl⟩
  | resumed hpc =>
      cases ha
      exact ⟨_, _, hpc, rfl, .resumed _ _, rfl, rfl, rfl, rfl, rfl, .inl rfl⟩
  | gaveUp hpc _ hu =>
      cases ha
      cases hu <;> exact ⟨_, _, hpc, rfl, .gaveUp _ _, rfl, rfl, rfl, rfl, rfl, .inr ⟨_, _, rfl, .gaveUp _ _⟩⟩
  | failedConnect hpc hdoIo hu =>
      cases ha
      cases hu <;> exact ⟨_, _, hpc, rfl, .failedConnect _ _ hdoIo, rfl, rfl, rfl, rfl, rfl, .inl rfl⟩
  | disarmed hpc hu =>
      cases ha
      cases hu <;> exact ⟨_, _, hpc, rfl, .disarmed _ _, rfl, rfl, rfl, rfl, rfl, .inl rfl⟩
  | timedOut hpc =>
      cases ha
      exact ⟨_, _, .finish hpc (.timedOut _) rfl rfl (.timedOut _)⟩
  | again hpc hcancelled =>
      cases ha
      exact ⟨_, _, .goto hpc (.again _ hcancelled) rfl rfl rfl⟩
  | asked hpc _ hdoIo =>
      cases ha
      exact ⟨_, _, .goto hpc (.asked _ hdoIo) rfl rfl rfl⟩
  | answered hpc =>
      cases ha
      exact ⟨_, _, .finish hpc (.answered _) rfl rfl (.answered _ _)⟩
  | close hpc =>
      cases ha
      exact ⟨_, _, .goto hpc (.close _ _) rfl rfl rfl⟩
  | found hpc =>
      cases ha
      exact ⟨_, _, .goto hpc (.found _ _) rfl rfl rfl⟩
  | notFound hpc =>
      cases ha
      exact ⟨_, _, .goto hpc (.notFound _ _) rfl rfl rfl⟩
  | cancelledNone hpc =>
      cases ha
      exact ⟨_, _, .goto hpc (.cancelledAll _ none) rfl rfl rfl⟩
  | cancelledAll hpc =>
      cases ha
      exact ⟨_, _, hpc, rfl, .cancelledAll _ (some _), rfl, rfl, rfl, rfl, rfl, .inl rfl⟩
  | deleted hpc =>
      cases ha
      exact ⟨_, _, hpc, rfl, .deleted _, rfl, rfl, rfl, rfl, rfl, .inl rfl⟩
  | closed hpc =>
      cases ha
      exact ⟨_, _, hpc, rfl, .closed _, rfl, rfl, rfl, rfl, rfl, .inl rfl⟩
  | _ => cases ha

/-- Only `closeStep` moves a closing fiber. -/
theorem eq_closeStep_of_pc {a : Action} (h : step s a = .next t) (ha : a.fiber = some f) {fd : ℕ}
    (hpc : (∃ i, s.pc f = .closeGet fd i) ∨ (∃ i, s.pc f = .closeCancel fd i) ∨ s.pc f = .closeRaw fd) :
    ∃ allow, a = .closeStep f allow := by
  cases step_move h with
  | found | notFound | cancelledNone | cancelledAll | deleted | closed =>
      cases ha
      exact ⟨_, rfl⟩
  | _ => cases ha <;> simp_all

/-- A step that moves no fiber. What has been written to a `timer_info` is never taken back. -/
structure OtherStep (s t : State) : Prop where
  pc : t.pc = s.pc
  generation : t.generation = s.generation
  nextCall : t.nextCall = s.nextCall
  owned : t.owned = s.owned
  log : t.log = s.log
  cancelled : ∀ id, s.cancelled id → t.cancelled id

/-- The steps of no fiber: the workers, the timeout callbacks, and other code. -/
theorem step_other {a : Action} (h : step s a = .next t) (ha : a.fiber = none) : OtherStep s t := by
  cases step_move h with
  | track | setTimeout | setUserNonblock | expired | tested | dropped | finished | otherTimer | wait | dispatched
  | cancelledEvent => exact ⟨rfl, rfl, rfl, rfl, rfl, fun _ h => h⟩
  | @wrote _ timeout =>
      refine ⟨rfl, rfl, rfl, rfl, rfl, fun id hid => ?_⟩
      by_cases heq : id = timeout.winfo
      · subst heq
        simp
      · simpa [heq] using hid
  | _ => cases ha

/-- A fiber is moved by its own steps only. -/
theorem step_pc_of_ne {a : Action} {g : FiberId} (h : step s a = .next t) (hne : a.fiber ≠ some g) :
    t.pc g = s.pc g := by
  cases hfiber : a.fiber with
  | none => rw [(step_other h hfiber).pc]
  | some f =>
      obtain ⟨before, after, hmove⟩ := step_fiber h hfiber
      rw [hmove.pc, Function.update_of_ne]
      rintro rfl
      exact hne hfiber

theorem run_pc_of_ne {as : List Action} {g : FiberId} (h : run step s as = .next t)
    (hne : ∀ a ∈ as, a.fiber ≠ some g) : t.pc g = s.pc g := by
  induction as generalizing s with
  | nil =>
      obtain rfl : s = t := by simpa using h
      rfl
  | cons a as ih =>
      obtain ⟨u, hstep, hrest⟩ := run_cons_eq_next.1 h
      rw [ih hrest fun b hb => hne b (List.mem_cons_of_mem _ hb), step_pc_of_ne hstep (hne a List.mem_cons_self)]

end Awcotn.Hook
