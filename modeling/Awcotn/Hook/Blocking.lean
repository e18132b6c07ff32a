import Awcotn.Hook.Timeouts

/-!
# Blocking and non-blocking calls

What a caller of `do_io` sees on a descriptor that is tracked and open: how often the raw operation is tried, whether the fiber is suspended, and what the call returns. A call on a socket that the user has left in blocking mode is to wait until the operation succeeds, fails or times out; every other call is to hand out `EAGAIN` at once. The early-out of `do_io` asks for both a descriptor that is not a socket and the user's non-blocking mode, where either should do; `contracts_iff` says that this is all that goes wrong.
-/

namespace Awcotn.Hook

open Transition

/-- What can be seen of a call. -/
inductive CallEvent
  | raw (r : RawResult)
  | suspended
  | returned (r : Return)
  deriving DecidableEq

/-- A call is to block the fiber: its descriptor is a socket that the user has not put in non-blocking mode. -/
def Blocks (ctx : FdCtx) : Prop := ctx.isSocket = true ∧ ctx.userNonblock = false

instance (ctx : FdCtx) : Decidable (Blocks ctx) := inferInstanceAs (Decidable (_ ∧ _))

/-- A blocking call that has not ended: the raw operation is tried again when it was interrupted, and when it reported `EAGAIN` and the fiber was suspended. -/
inductive Waiting : List CallEvent → Prop
  | start : Waiting []
  | interrupted {h : List CallEvent} : Waiting h → Waiting (h ++ [.raw .EINTR])
  | resumed {h : List CallEvent} : Waiting h → Waiting (h ++ [.raw .wouldBlock, .suspended])

/-- The trace of a blocking call: the fiber is suspended after every `EAGAIN` and at no other time, and the call ends with the first other outcome of the raw operation, or with `ETIMEDOUT` once its timeout callback has run. -/
inductive BlockingTrace (fired : Bool) : List CallEvent → Prop
  | waiting {h : List CallEvent} : Waiting h → BlockingTrace fired h
  | blocked {h : List CallEvent} : Waiting h → BlockingTrace fired (h ++ [.raw .wouldBlock])
  | answered {h : List CallEvent} {r : RawResult} : Waiting h → r ≠ .EINTR → r ≠ .wouldBlock →
      BlockingTrace fired (h ++ [.raw r, .returned (.raw r)])
  | timedOut {h : List CallEvent} : Waiting h → fired = true → BlockingTrace fired (h ++ [.returned .ETIMEDOUT])

/-- The trace of a non-blocking call: the fiber is never suspended, and the call ends with `EAGAIN` when the raw operation reports it. -/
structure NonblockingTrace (h : List CallEvent) : Prop where
  never_suspended : .suspended ∉ h
  returns_EAGAIN : ∀ before after, h = before ++ .raw .wouldBlock :: after → after = [.returned (.raw .wouldBlock)]

/-- What a call on a descriptor with context `ctx` owes its caller. A call whose `addEvent` failed owes nothing. -/
def Obeys (ctx : FdCtx) (fired : Bool) (h : List CallEvent) : Prop :=
  .returned .addEventFailed ∉ h → if Blocks ctx then BlockingTrace fired h else NonblockingTrace h

/-! ### Traces -/

variable {h : List CallEvent} {ctx : FdCtx} {fired : Bool}

theorem Waiting.not_returned (hw : Waiting h) (r : Return) : .returned r ∉ h := by
  induction hw with
  | start => simp
  | interrupted _ ih => simpa using ih
  | resumed _ ih => simpa using ih

theorem Waiting.not_suspended (hw : Waiting h) (hraw : .raw .wouldBlock ∉ h) : .suspended ∉ h := by
  induction hw with
  | start => simp
  | interrupted _ ih =>
      simp only [List.mem_append, not_or] at hraw
      simpa using ih hraw.1
  | resumed _ _ => simp at hraw

/-- A non-blocking call that is still trying has not met `EAGAIN`. -/
theorem NonblockingTrace.not_wouldBlock (hn : NonblockingTrace h) (hw : Waiting h) : .raw .wouldBlock ∉ h := by
  intro hin
  obtain ⟨before, after, rfl⟩ := List.append_of_mem hin
  have hafter := hn.returns_EAGAIN before after rfl
  apply hw.not_returned (.raw .wouldBlock)
  rw [hafter]
  simp

theorem nonblockingTrace_of_not_mem (hsuspended : .suspended ∉ h) (hraw : .raw .wouldBlock ∉ h) :
    NonblockingTrace h := by
  refine ⟨hsuspended, ?_⟩
  rintro before after rfl
  simp at hraw

/-! ### What each event does to the obligation -/

theorem Obeys.not_wouldBlock (ho : Obeys ctx fired h) (hw : Waiting h) (hctx : ¬ Blocks ctx) :
    .raw .wouldBlock ∉ h := by
  have htrace := ho (hw.not_returned _)
  rw [if_neg hctx] at htrace
  exact htrace.not_wouldBlock hw

/-- A call that may still be trying. -/
theorem obeys_of_waiting (hw : Waiting h) (hcalm : ¬ Blocks ctx → .raw .wouldBlock ∉ h) : Obeys ctx fired h := by
  intro _
  by_cases hctx : Blocks ctx
  · rw [if_pos hctx]
    exact .waiting hw
  · rw [if_neg hctx]
    exact nonblockingTrace_of_not_mem (hw.not_suspended (hcalm hctx)) (hcalm hctx)

theorem Obeys.interrupted (ho : Obeys ctx fired h) (hw : Waiting h) : Obeys ctx fired (h ++ [.raw .EINTR]) := by
  refine obeys_of_waiting hw.interrupted fun hctx => ?_
  simpa using ho.not_wouldBlock hw hctx

/-- On `EAGAIN` a call that goes on has to be a blocking one. -/
theorem Waiting.obeys_wouldBlock_iff (hw : Waiting h) : Obeys ctx fired (h ++ [.raw .wouldBlock]) ↔ Blocks ctx := by
  constructor
  · intro ho
    by_contra hctx
    have hfailed : .returned .addEventFailed ∉ h ++ [.raw .wouldBlock] := by simpa using hw.not_returned _
    have htrace := ho hfailed
    rw [if_neg hctx] at htrace
    exact absurd (htrace.returns_EAGAIN h [] rfl) (by simp)
  · intro hctx _
    rw [if_pos hctx]
    exact .blocked hw

theorem Obeys.suspended (hw : Waiting h) (ho : Obeys ctx fired (h ++ [.raw .wouldBlock])) :
    Obeys ctx fired (h ++ [.raw .wouldBlock, .suspended]) :=
  obeys_of_waiting hw.resumed fun hctx => absurd (hw.obeys_wouldBlock_iff.1 ho) hctx

theorem Obeys.answered (ho : Obeys ctx fired h) (hw : Waiting h) {r : RawResult} (hEINTR : r ≠ .EINTR)
    (hEAGAIN : r ≠ .wouldBlock) : Obeys ctx fired (h ++ [.raw r, .returned (.raw r)]) := by
  intro _
  by_cases hctx : Blocks ctx
  · rw [if_pos hctx]
    exact .answered hw hEINTR hEAGAIN
  · have hraw := ho.not_wouldBlock hw hctx
    rw [if_neg hctx]
    refine nonblockingTrace_of_not_mem ?_ ?_
    · simpa using hw.not_suspended hraw
    · simpa using ⟨hraw, hEAGAIN.symm⟩

theorem Obeys.timedOut (ho : Obeys ctx fired h) (hw : Waiting h) (hfired : fired = true) :
    Obeys ctx fired (h ++ [.returned .ETIMEDOUT]) := by
  intro _
  by_cases hctx : Blocks ctx
  · rw [if_pos hctx]
    exact .timedOut hw hfired
  · have hraw := ho.not_wouldBlock hw hctx
    rw [if_neg hctx]
    refine nonblockingTrace_of_not_mem ?_ ?_
    · simpa using hw.not_suspended hraw
    · simpa using hraw

/-- A call that hands out whatever its raw operation reports. -/
theorem obeys_direct (hctx : ¬ Blocks ctx) (r : RawResult) : Obeys ctx fired [.raw r, .returned (.raw r)] := by
  intro _
  rw [if_neg hctx]
  refine ⟨by simp, fun before after heq => ?_⟩
  cases before with
  | nil =>
      obtain ⟨hraw, rfl⟩ := List.cons.inj heq
      cases hraw
      rfl
  | cons e before =>
      obtain ⟨-, hrest⟩ := List.cons.inj heq
      cases before with
      | nil => cases (List.cons.inj hrest).1
      | cons e' before => simp at hrest

theorem obeys_addEventFailed : Obeys ctx fired (h ++ [.returned .addEventFailed]) := by
  intro hfailed
  simp at hfailed

/-- That the timeout callback has run is not taken back. -/
theorem Obeys.mono (ho : Obeys ctx fired h) {fired' : Bool} (hfired : fired = true → fired' = true) :
    Obeys ctx fired' h := by
  intro hfailed
  have htrace := ho hfailed
  by_cases hctx : Blocks ctx
  · rw [if_pos hctx] at htrace ⊢
    cases htrace with
    | waiting hw => exact .waiting hw
    | blocked hw => exact .blocked hw
    | answered hw hEINTR hEAGAIN => exact .answered hw hEINTR hEAGAIN
    | timedOut hw hf => exact .timedOut hw (hfired hf)
  · rw [if_neg hctx] at htrace ⊢
    exact htrace

/-! ### The process with the traces of its calls -/

/-- The process, with the context that each `do_io` call has found of a tracked, open descriptor, whether the timeout callback of the call has run, and the trace of the call. -/
structure Traced where
  base : State
  found : CallId → Option FdCtx
  fired : CallId → Bool
  trace : CallId → List CallEvent

/-- The context of an open descriptor. -/
def Request.context (s : State) : Request → Option FdCtx
  | .doIo fd _ _ => (s.fdMgr.get fd).filter fun ctx => !ctx.isClosed
  | .connect _ _ => none

/-- What the calls have found after a step. -/
def look (s : State) (found : CallId → Option FdCtx) : Action → CallId → Option FdCtx
  | .lookup f =>
    match s.pc f with
    | .entered c => Function.update found c.id (c.request.context s)
    | _ => found
  | _ => found

/-- Whose timeout callbacks have run after a step. -/
def fire (s : State) (fired : CallId → Bool) : Action → CallId → Bool
  | .callback j _ =>
    match s.flying[j]? with
    | some (timeout, .checked) => Function.update fired timeout.winfo true
    | _ => fired
  | _ => fired

/-- The call an action belongs to. -/
def caller (s : State) (a : Action) : Option Call := a.fiber.bind fun f => (s.pc f).call

/-- What returns in a step. -/
def answer (s t : State) : List CallEvent := (t.log.drop s.log.length).map fun e => .returned e.2

/-- What is seen of its call in a step. -/
def visible (s t : State) : Action → List CallEvent
  | .raw _ r => .raw r :: answer s t
  | .yield _ => [.suspended]
  | _ => answer s t

/-- What is seen of a call while its fiber moves. -/
inductive Sight (s : State) (f : FiberId) (a : Action) : Pc → Pc → List CallEvent → Prop
  | begin (i : IomId) (request : Request) : Sight s f a .idle (.entered (s.newCall i request)) []
  | refused (c : Call) : a = .lookup f → c.request.context s = none →
      Sight s f a (.entered c) .idle [.returned .EBADF]
  | direct (c : Call) : a = .lookup f → (∀ ctx, c.request.context s = some ctx → ¬ Blocks ctx) →
      Sight s f a (.entered c) (.direct c) []
  | tracked (c : Call) (timeoutMs : UInt64) : a = .lookup f → (c.request.context s = none ∨ c.request.isDoIo = true) →
      Sight s f a (.entered c) (.raw { c with timeoutMs := timeoutMs }) []
  | directDone (c : Call) (r : RawResult) : Sight s f a (.direct c) .idle [.raw r, .returned (.raw r)]
  | blocked (c : Call) : a = .raw f .wouldBlock → Sight s f a (.raw c) (.arming c) [.raw .wouldBlock]
  | interrupted (c : Call) : Sight s f a (.raw c) (.raw c) [.raw .EINTR]
  | rawDone (c : Call) (r : RawResult) : r ≠ .wouldBlock → (c.request.isDoIo = true → r ≠ .EINTR) →
      Sight s f a (.raw c) .idle [.raw r, .returned (.raw r)]
  | armed (c : Call) (timer : Option Addr) : Sight s f a (.arming c) (.adding c timer) []
  | added (c : Call) (timer : Option Addr) : Sight s f a (.adding c timer) (.yielding c timer) []
  | addFailed (c : Call) (timer : Option Addr) : Sight s f a (.adding c timer) (.failed c timer) []
  | gaveUp (c : Call) (timer : Option Addr) : Sight s f a (.failed c timer) .idle [.returned .addEventFailed]
  | failedConnect (c : Call) (timer : Option Addr) : c.request.isDoIo = false →
      Sight s f a (.failed c timer) (.soError c) []
  | yielded (c : Call) (timer : Option Addr) : Sight s f a (.yielding c timer) (.suspended c timer) [.suspended]
  | resumed (c : Call) (timer : Option Addr) : Sight s f a (.suspended c timer) (.woken c timer) []
  | disarmed (c : Call) (timer : Option Addr) : Sight s f a (.woken c timer) (.checking c) []
  | timedOut (c : Call) : s.cancelled c.id = true → Sight s f a (.checking c) .idle [.returned .ETIMEDOUT]
  | again (c : Call) : Sight s f a (.checking c) (.raw c) []
  | asked (c : Call) : c.request.isDoIo = false → Sight s f a (.checking c) (.soError c) []
  | answered (c : Call) (error : Option ℕ) : Sight s f a (.soError c) .idle [.returned (.soError error)]
  | closing (before after : Pc) : before.call = none → after.call = none → Sight s f a before after []

section

variable {s t : State} {f : FiberId} {c : Call} {a : Action}

theorem answer_eq_nil (h : t.log = s.log) : answer s t = [] := by
  simp [answer, h]

theorem answer_eq {r : Return} (h : t.log = s.log ++ [(c, r)]) : answer s t = [.returned r] := by
  simp [answer, h]

/-- The fiber has moved and nothing has returned. -/
theorem Sight.goto {before after : Pc} (h : Sight s f a before after []) (hpc : t.pc f = after) (hlog : t.log = s.log) :
    Sight s f a before (t.pc f) (answer s t) := by
  rwa [hpc, answer_eq_nil hlog]

/-- The call has returned. -/
theorem Sight.finish {before : Pc} {r : Return} (h : Sight s f a before .idle [.returned r]) (hpc : t.pc f = .idle)
    (hlog : t.log = s.log ++ [(c, r)]) : Sight s f a before (t.pc f) (answer s t) := by
  rwa [hpc, answer_eq hlog]

/-- A call refuses a descriptor that is not tracked or not open, calls through, or goes on with the retry loop. -/
theorem lookup_sight (s : State) (f : FiberId) (c : Call) :
    Sight s f (.lookup f) (.entered c) ((lookupStep s f c).pc f) (answer s (lookupStep s f c)) := by
  rw [lookupStep]
  split
  · next fd event timeoutSo hrequest =>
      split
      · next hget =>
          have hcontext : c.request.context s = none := by simp [hrequest, Request.context, hget]
          exact (Sight.direct c rfl (by simp [hcontext])).goto (State.goto_pc ..) rfl
      · next ctx hget =>
          split_ifs with hclosed hearly
          · have hcontext : c.request.context s = none := by simp [hrequest, Request.context, hget, hclosed]
            exact (Sight.refused c rfl hcontext).finish (State.finish_pc ..) rfl
          · refine (Sight.direct c rfl fun ctx' hctx => ?_).goto (State.goto_pc ..) rfl
            simp only [hrequest, Request.context, hget, Option.filter_some] at hctx
            split at hctx
            · cases hctx
              rintro ⟨hsocket, -⟩
              simp [hsocket] at hearly
            · cases hctx
          · have hdoIo : c.request.isDoIo = true := by rw [hrequest]; rfl
            exact (Sight.tracked c _ rfl (.inr hdoIo)).goto (State.goto_pc ..) rfl
  · next fd timeoutMs hrequest =>
      have hcontext : c.request.context s = none := by rw [hrequest]; rfl
      split
      · exact (Sight.refused c rfl hcontext).finish (State.finish_pc ..) rfl
      split_ifs
      · exact (Sight.refused c rfl hcontext).finish (State.finish_pc ..) rfl
      · exact (Sight.direct c rfl (by simp [hcontext])).goto (State.goto_pc ..) rfl
      · exact (Sight.tracked c _ rfl (.inl hcontext)).goto (State.goto_pc ..) rfl

/-- What is seen in the steps of a fiber. -/
theorem step_sight (h : step s a = .next t) (ha : a.fiber = some f) :
    Sight s f a (s.pc f) (t.pc f) (visible s t a) := by
  cases step_move h with
  | begin hpc =>
      cases ha
      rw [hpc]
      exact (Sight.begin _ _).goto (State.goto_pc ..) rfl
  | lookup hpc =>
      cases ha
      rw [hpc]
      exact lookup_sight s f _
  | direct hpc =>
      cases ha
      rw [hpc, State.finish_pc, visible, answer_eq rfl]
      exact .directDone _ _
  | @blocked _ c hpc =>
      cases ha
      have hsilent : answer s (s.goto f (.arming c)) = [] := answer_eq_nil rfl
      rw [hpc, State.goto_pc, visible, hsilent]
      exact .blocked _ rfl
  | interrupted hpc =>
      cases ha
      rw [hpc, visible, answer_eq_nil rfl]
      exact .interrupted _
  | rawDone hpc hblock hintr =>
      cases ha
      rw [hpc, State.finish_pc, visible, answer_eq rfl]
      exact .rawDone _ _ hblock hintr
  | unarmed hpc =>
      cases ha
      rw [hpc]
      exact (Sight.armed _ none).goto (State.goto_pc ..) rfl
  | @armed _ _ b _ hpc =>
      cases ha
      rw [hpc]
      exact (Sight.armed _ (some b)).goto (State.goto_pc ..) rfl
  | added hpc =>
      cases ha
      rw [hpc]
      exact (Sight.added _ _).goto (State.goto_pc ..) rfl
  | addFailed hpc =>
      cases ha
      rw [hpc]
      exact (Sight.addFailed _ _).goto (State.goto_pc ..) rfl
  | yielded hpc =>
      cases ha
      rw [hpc, State.goto_pc]
      exact .yielded _ _
  | resumed hpc =>
      cases ha
      rw [hpc]
      exact (Sight.resumed _ _).goto (State.goto_pc ..) rfl
  | gaveUp hpc _ hu =>
      cases ha
      rw [hpc]
      cases hu <;> exact (Sight.gaveUp _ _).finish (State.finish_pc ..) rfl
  | failedConnect hpc hdoIo hu =>
      cases ha
      rw [hpc]
      cases hu <;> exact (Sight.failedConnect _ _ hdoIo).goto (State.goto_pc ..) rfl
  | disarmed hpc hu =>
      cases ha
      rw [hpc]
      cases hu <;> exact (Sight.disarmed _ _).goto (State.goto_pc ..) rfl
  | timedOut hpc hcancelled =>
      cases ha
      rw [hpc]
      exact (Sight.timedOut _ hcancelled).finish (State.finish_pc ..) rfl
  | again hpc =>
      cases ha
      rw [hpc]
      exact (Sight.again _).goto (State.goto_pc ..) rfl
  | asked hpc _ hdoIo =>
      cases ha
      rw [hpc]
      exact (Sight.asked _ hdoIo).goto (State.goto_pc ..) rfl
  | answered hpc =>
      cases ha
      rw [hpc]
      exact (Sight.answered _ _).finish (State.finish_pc ..) rfl
  | close hpc | found hpc | notFound hpc | cancelledNone hpc | cancelledAll hpc | deleted hpc | closed hpc =>
      cases ha
      rw [hpc]
      exact (Sight.closing _ _ rfl rfl).goto (State.goto_pc ..) rfl
  | _ => cases ha

end

/-- Where a call stands, in terms of what it has found and what has been seen of it. -/
def Located (found : Option FdCtx) (h : List CallEvent) : Pc → Prop
  | .entered _ => found = none ∧ h = []
  | .direct _ => (∀ ctx, found = some ctx → ¬ Blocks ctx) ∧ h = []
  | .raw c | .suspended c _ | .woken c _ | .checking c => found = none ∨ c.request.isDoIo = true ∧ Waiting h
  | .arming c | .adding c _ | .failed c _ | .yielding c _ =>
    found = none ∨ c.request.isDoIo = true ∧ ∃ h', Waiting h' ∧ h = h' ++ [.raw .wouldBlock]
  | .soError _ => found = none
  | _ => True

section

variable {s : State} {f : FiberId} {a : Action} {before after : Pc} {events : List CallEvent}
  {found found' : Option FdCtx}

/-- A call keeps its identity. -/
theorem Sight.id (hsight : Sight s f a before after events) {c c' : Call} (hcall : before.call = some c)
    (hcall' : after.call = some c') : c'.id = c.id := by
  cases hsight with
  | closing _ _ hnone _ => simp [hnone] at hcall
  | _ => cases hcall <;> cases hcall' <;> rfl

/-- A step takes a call to where its trace says; it has found something new only in the step from `entered`. -/
theorem Sight.located (hsight : Sight s f a before after events) {c : Call} (hcall : before.call = some c)
    (hold : Located found h before) (hentered : ∀ c, before = .entered c → found' = c.request.context s)
    (hother : (∀ c, before ≠ .entered c) → found' = found) : Located found' (h ++ events) after := by
  cases hsight with
  | closing _ _ hnone _ => simp [hnone] at hcall
  | begin => cases hcall
  | refused | directDone | rawDone | gaveUp | timedOut | answered => trivial
  | direct c _ hcontext =>
      obtain ⟨-, rfl⟩ := hold
      rw [hentered c rfl]
      exact ⟨hcontext, rfl⟩
  | tracked c timeoutMs _ hcontext =>
      obtain ⟨-, rfl⟩ := hold
      rw [hentered c rfl]
      exact hcontext.imp_right fun hdoIo => ⟨hdoIo, .start⟩
  | blocked =>
      rw [hother (by simp)]
      exact hold.imp_right fun ⟨hdoIo, hw⟩ => ⟨hdoIo, h, hw, rfl⟩
  | interrupted =>
      rw [hother (by simp)]
      exact hold.imp_right fun ⟨hdoIo, hw⟩ => ⟨hdoIo, hw.interrupted⟩
  | yielded =>
      rw [hother (by simp)]
      refine hold.imp_right fun ⟨hdoIo, h', hw, htrace⟩ => ⟨hdoIo, ?_⟩
      rw [htrace, List.append_assoc]
      exact hw.resumed
  | armed | added | addFailed | resumed | disarmed | again =>
      rw [hother (by simp), List.append_nil]
      exact hold
  | failedConnect _ _ hdoIo | asked _ hdoIo =>
      rw [hother (by simp)]
      rcases hold with hnone | ⟨hdoIo', -⟩
      · exact hnone
      · exact absurd hdoIo' (by simp [hdoIo])

/-- A step keeps what is owed, unless the call goes on after `EAGAIN` without being a blocking one. -/
theorem Sight.obeys (hsight : Sight s f a before after events) {c : Call} (hcall : before.call = some c)
    (hold : Located found h before) (hentered : ∀ c, before = .entered c → found' = c.request.context s)
    (hother : (∀ c, before ≠ .entered c) → found' = found) (ho : ∀ ctx, found = some ctx → Obeys ctx fired h)
    (hcancelled : s.cancelled c.id = true → fired = true)
    (hblock : a = .raw f .wouldBlock → ∀ c ctx, before = .raw c → found = some ctx → Blocks ctx) :
    ∀ ctx, found' = some ctx → Obeys ctx fired (h ++ events) := by
  intro ctx hctx
  cases hsight with
  | closing _ _ hnone _ => simp [hnone] at hcall
  | begin => cases hcall
  | refused c _ hcontext =>
      rw [hentered c rfl, hcontext] at hctx
      cases hctx
  | direct | tracked =>
      obtain ⟨-, rfl⟩ := hold
      exact obeys_of_waiting .start (by simp)
  | directDone c r =>
      rw [hother (by simp)] at hctx
      obtain ⟨hcontext, rfl⟩ := hold
      exact obeys_direct (hcontext ctx hctx) r
  | blocked c ha =>
      rw [hother (by simp)] at hctx
      obtain ⟨-, hw⟩ := hold.resolve_left (by simp [hctx])
      exact hw.obeys_wouldBlock_iff.2 (hblock ha c ctx rfl hctx)
  | interrupted =>
      rw [hother (by simp)] at hctx
      obtain ⟨-, hw⟩ := hold.resolve_left (by simp [hctx])
      exact (ho ctx hctx).interrupted hw
  | rawDone c r hwouldBlock hEINTR =>
      rw [hother (by simp)] at hctx
      obtain ⟨hdoIo, hw⟩ := hold.resolve_left (by simp [hctx])
      exact (ho ctx hctx).answered hw (hEINTR hdoIo) hwouldBlock
  | armed | added | addFailed | failedConnect | resumed | disarmed | again | asked =>
      rw [hother (by simp)] at hctx
      rw [List.append_nil]
      exact ho ctx hctx
  | gaveUp => exact obeys_addEventFailed
  | yielded =>
      rw [hother (by simp)] at hctx
      obtain ⟨-, h', hw, rfl⟩ := hold.resolve_left (by simp [hctx])
      rw [List.append_assoc]
      exact (ho ctx hctx).suspended hw
  | timedOut c' hset =>
      rw [hother (by simp)] at hctx
      obtain ⟨-, hw⟩ := hold.resolve_left (by simp [hctx])
      obtain rfl : c' = c := Option.some.inj hcall
      exact (ho ctx hctx).timedOut hw (hcancelled hset)
  | answered =>
      rw [hother (by simp), show found = none from hold] at hctx
      cases hctx

end

namespace Traced

def advance (s : Traced) (a : Action) (t : State) : Traced where
  base := t
  found := look s.base s.found a
  fired := fire s.base s.fired a
  trace :=
    match caller s.base a with
    | some c => Function.update s.trace c.id (s.trace c.id ++ visible s.base t a)
    | none => s.trace

def step (s : Traced) (a : Action) : Outcome Crash Traced :=
  match Hook.step s.base a with
  | .next t => .next (s.advance a t)
  | .abort e => .abort e
  | .disabled => .disabled

def start (now : UInt64) : Traced :=
  { base := Hook.start now, found := fun _ => none, fired := fun _ => false, trace := fun _ => [] }

/-- Every call gives its caller what it owes. -/
def Contracts (s : Traced) : Prop := ∀ id ctx, s.found id = some ctx → Obeys ctx (s.fired id) (s.trace id)

/-- `EAGAIN` is not reported to a call that goes on with it although it is not to block. -/
def Answered (s : Traced) : Action → Prop
  | .raw f .wouldBlock => ∀ c ctx, s.base.pc f = .raw c → s.found c.id = some ctx → Blocks ctx
  | _ => True

structure Inv (s : Traced) : Prop where
  calls : CallsInv s.base
  fired : ∀ id, s.base.cancelled id = true → s.fired id = true
  fresh : ∀ id, s.base.nextCall ≤ id → s.found id = none ∧ s.trace id = []
  located : ∀ f c, (s.base.pc f).call = some c → Located (s.found c.id) (s.trace c.id) (s.base.pc f)

theorem start_inv (now : UInt64) : Inv (start now) where
  calls := (timeoutInv_start now).calls
  fired id h := by simp [start, Hook.start] at h
  fresh _ _ := ⟨rfl, rfl⟩
  located f c hc := by simp [start, Hook.start, Pc.call] at hc

theorem step_eq_next {s s' : Traced} {a : Action} (h : step s a = .next s') :
    ∃ t, Hook.step s.base a = .next t ∧ s' = s.advance a t := by
  rw [step] at h
  split at h
  · next t ht => exact ⟨t, ht, (Outcome.next.inj h).symm⟩
  · cases h
  · cases h

/-! ### Which call a step concerns -/

section

variable {s : Traced} {a : Action} {t : State} {c : Call} {id : CallId}

theorem trace_caller (hc : caller s.base a = some c) :
    (s.advance a t).trace c.id = s.trace c.id ++ visible s.base t a := by
  simp [advance, hc]

theorem trace_of_ne (hid : ∀ c, caller s.base a = some c → c.id ≠ id) :
    (s.advance a t).trace id = s.trace id := by
  cases hc : caller s.base a with
  | none => simp [advance, hc]
  | some c => simp [advance, hc, Function.update_of_ne (hid c hc).symm]

theorem found_of_ne (hid : ∀ c, caller s.base a = some c → c.id ≠ id) :
    (s.advance a t).found id = s.found id := by
  cases a with
  | lookup f =>
      cases hpc : s.base.pc f with
      | entered c =>
          have hne : c.id ≠ id := hid c (by simp [caller, Action.fiber, hpc, Pc.call])
          simp [advance, look, hpc, Function.update_of_ne hne.symm]
      | _ => simp [advance, look, hpc]
  | _ => rfl

/-- A callback that has run stays so. -/
theorem fired_mono (h : s.fired id = true) : (s.advance a t).fired id = true := by
  cases a with
  | callback j allow =>
      cases hj : s.base.flying[j]? with
      | none => simpa [advance, fire, hj] using h
      | some entry =>
          obtain ⟨timeout, pc⟩ := entry
          cases pc with
          | checked =>
              by_cases heq : id = timeout.winfo
              · simp [advance, fire, hj, heq]
              · simpa [advance, fire, hj, heq] using h
          | _ => simpa [advance, fire, hj] using h
  | _ => exact h

theorem caller_eq_some {c : Call} (h : caller s.base a = some c) :
    ∃ f, a.fiber = some f ∧ (s.base.pc f).call = some c :=
  Option.bind_eq_some_iff.1 h

theorem found_of_entered {f : FiberId} (ha : a.fiber = some f) (hpc : s.base.pc f = .entered c)
    (h : Hook.step s.base a = .next t) : (s.advance a t).found c.id = c.request.context s.base := by
  have hsight := step_sight h ha
  rw [hpc] at hsight
  have hlookup : a = .lookup f := by
    generalize t.pc f = after at hsight
    generalize visible s.base t a = events at hsight
    cases hsight with
    | refused _ hlookup _ | direct _ hlookup _ | tracked _ _ hlookup _ => exact hlookup
    | closing _ _ hnone _ => cases hnone
  subst hlookup
  simp [advance, look, hpc]

theorem found_of_not_entered {f : FiberId} (ha : a.fiber = some f) (hpc : ∀ c, s.base.pc f ≠ .entered c) :
    (s.advance a t).found = s.found := by
  cases a with
  | lookup g =>
      obtain rfl : g = f := Option.some.inj ha
      cases hentered : s.base.pc g with
      | entered c => exact absurd hentered (hpc c)
      | _ => simp [advance, look, hentered]
  | _ => rfl

/-! ### Invariants -/

/-- The fiber that has moved is where its trace says. -/
theorem located_self (hs : Inv s) (h : Hook.step s.base a = .next t) {f : FiberId} (ha : a.fiber = some f)
    (hc : (t.pc f).call = some c) :
    Located ((s.advance a t).found c.id) ((s.advance a t).trace c.id) (t.pc f) := by
  have hsight := step_sight h ha
  cases hcall : (s.base.pc f).call with
  | none =>
      -- the fiber has just made its call
      have hcaller : caller s.base a = none := by rw [caller, ha, Option.bind_some, hcall]
      rw [found_of_ne (by simp [hcaller]), trace_of_ne (by simp [hcaller])]
      generalize hbefore : s.base.pc f = before at hsight hcall
      generalize hafter : t.pc f = after at hsight hc
      generalize visible s.base t a = events at hsight
      cases hsight with
      | begin i request =>
          obtain rfl := Option.some.inj hc
          exact hs.fresh s.base.nextCall (Nat.le_refl _)
      | closing _ _ _ hnone => simp [hnone] at hc
      | _ => cases hcall
  | some c' =>
      have hcaller : caller s.base a = some c' := by rw [caller, ha, Option.bind_some, hcall]
      rw [hsight.id hcall hc, trace_caller hcaller]
      exact hsight.located hcall (hs.located f c' hcall)
        (fun c'' hpc => by
          obtain rfl : c'' = c' := by simpa [hpc, Pc.call] using hcall
          exact found_of_entered ha hpc h)
        fun hpc => by rw [found_of_not_entered ha hpc]

/-- A step does not touch what belongs to the call of a fiber that does not move. -/
theorem located_other (hs : Inv s) (h : Hook.step s.base a = .next t) {f : FiberId} (ha : a.fiber ≠ some f)
    (hc : (t.pc f).call = some c) :
    Located ((s.advance a t).found c.id) ((s.advance a t).trace c.id) (t.pc f) := by
  have hpc := step_pc_of_ne h ha
  rw [hpc] at hc ⊢
  have hcaller : ∀ c', caller s.base a = some c' → c'.id ≠ c.id := by
    intro c' hc' hid
    obtain ⟨g, hg, hcall⟩ := caller_eq_some hc'
    exact ha (by rw [hg, hs.calls.eq_of_id hcall hc hid])
  rw [found_of_ne hcaller, trace_of_ne hcaller]
  exact hs.located f c hc

/-- A callback that writes `cancelled` has run. -/
theorem fired_of_cancelled (hs : Inv s) (h : Hook.step s.base a = .next t) (hset : t.cancelled id = true) :
    (s.advance a t).fired id = true := by
  have hold : t.cancelled = s.base.cancelled → (s.advance a t).fired id = true := by
    intro hsame
    rw [hsame] at hset
    exact fired_mono (hs.fired id hset)
  cases step_flying h with
  | same _ hcancelled => exact hold hcancelled
  | expired _ _ hcancelled => exact hold hcancelled
  | dropped _ _ _ hcancelled => exact hold hcancelled
  | tested _ _ hcancelled => exact hold hcancelled
  | finished _ _ hcancelled _ _ => exact hold hcancelled
  | @wrote j allow timeout hget _ hcancelled =>
      by_cases hid : id = timeout.winfo
      · simp [advance, fire, hget, hid]
      · rw [hcancelled, Function.update_of_ne hid] at hset
        exact fired_mono (hs.fired id hset)

theorem step_inv {s' : Traced} (hs : Inv s) (h : step s a = .next s') : Inv s' := by
  obtain ⟨t, ht, rfl⟩ := step_eq_next h
  refine ⟨step_callsInv hs.calls ht, fun id hset => fired_of_cancelled hs ht hset, fun id hid => ?_, fun f c hc => ?_⟩
  · have hold : s.base.nextCall ≤ id := (step_nextCall_le ht).trans hid
    have hcaller : ∀ c, caller s.base a = some c → c.id ≠ id := by
      intro c hc
      obtain ⟨f, -, hcall⟩ := caller_eq_some hc
      exact Nat.ne_of_lt ((hs.calls.below f c hcall).trans_le hold)
    rw [found_of_ne hcaller, trace_of_ne hcaller]
    exact hs.fresh id hold
  · by_cases ha : a.fiber = some f
    · exact located_self hs ht ha hc
    · exact located_other hs ht ha hc

/-- The action in which `EAGAIN` is reported to a call that goes on with it. -/
theorem answered_of_ne (ha : ∀ f, a ≠ .raw f .wouldBlock) : Answered s a := by
  unfold Answered
  split
  · next f => exact absurd rfl (ha f)
  · trivial

theorem contracts_of_answered (hs : Inv s) (hq : Contracts s) (h : Hook.step s.base a = .next t) (ha : Answered s a) :
    Contracts (s.advance a t) := by
  intro id ctx hctx
  by_cases hid : ∀ c, caller s.base a = some c → c.id ≠ id
  · rw [found_of_ne hid] at hctx
    rw [trace_of_ne hid]
    exact (hq id ctx hctx).mono fired_mono
  · push Not at hid
    obtain ⟨c, hcaller, rfl⟩ := hid
    obtain ⟨f, hfiber, hcall⟩ := caller_eq_some hcaller
    rw [trace_caller hcaller]
    refine (step_sight h hfiber).obeys hcall (hs.located f c hcall) (fun c' hpc => ?_) (fun hpc => ?_)
      (fun ctx hctx => (hq c.id ctx hctx).mono fired_mono) (fun hset => fired_mono (hs.fired _ hset)) ?_ ctx hctx
    · obtain rfl : c' = c := by simpa [hpc, Pc.call] using hcall
      exact found_of_entered hfiber hpc h
    · rw [found_of_not_entered hfiber hpc]
    · rintro rfl c' ctx' hpc hfound
      obtain rfl : c' = c := by simpa [hpc, Pc.call] using hcall
      exact ha c' ctx' hpc hfound

theorem answered_of_contracts (hs : Inv s) (h : Hook.step s.base a = .next t) (hq : Contracts (s.advance a t)) :
    Answered s a := by
  by_cases ha : ∀ f, a ≠ .raw f .wouldBlock
  · exact answered_of_ne ha
  · push Not at ha
    obtain ⟨f, rfl⟩ := ha
    intro c ctx hpc hfound
    have hcall : (s.base.pc f).call = some c := by rw [hpc]; rfl
    have hcaller : caller s.base (.raw f .wouldBlock) = some c := by rw [caller, Action.fiber, Option.bind_some, hcall]
    have hold := hs.located f c hcall
    rw [hpc] at hold
    obtain ⟨-, hw⟩ := hold.resolve_left (by simp [hfound])
    have hfound' : (s.advance (.raw f .wouldBlock) t).found c.id = some ctx := hfound
    have hobeys := hq c.id ctx hfound'
    rw [trace_caller hcaller] at hobeys
    simp only [Hook.step, hpc, rawStep, if_true] at h
    cases h
    have hsilent : answer s.base (s.base.goto f (.arming c)) = [] := answer_eq_nil rfl
    rw [visible, hsilent] at hobeys
    exact hw.obeys_wouldBlock_iff.1 hobeys

end

/-- In the runs of the process, whatever the raw operations report and however the fibers and callbacks interleave: every `do_io` call on a tracked, open descriptor gives its caller what it owes exactly if `EAGAIN` is never reported to a call that has passed the early-out although its descriptor is not a socket or is in the user's non-blocking mode. -/
theorem contracts_iff (now : UInt64) (acts : List Action) :
    Throughout step Contracts (start now) acts ↔ Along step Answered (start now) acts := by
  refine throughout_iff_along (fun s a s' hs h => step_inv hs h) (fun s a s' hs hq h => ?_) (fun s a _ hstuck => ?_)
    (start_inv now) (fun id ctx hctx => by cases hctx) acts
  · obtain ⟨t, ht, rfl⟩ := step_eq_next h
    exact ⟨answered_of_contracts hs ht, contracts_of_answered hs hq ht⟩
  · by_cases ha : ∀ f, a ≠ .raw f .wouldBlock
    · exact answered_of_ne ha
    · push Not at ha
      obtain ⟨f, rfl⟩ := ha
      intro c ctx hpc _
      have hnext : step s (.raw f .wouldBlock) =
          .next (s.advance (.raw f .wouldBlock) (rawStep s.base f c .wouldBlock)) := by
        simp only [step, Hook.step, hpc]
      exact absurd hnext (hstuck _)

/-- A non-blocking call that has been suspended. -/
theorem not_contracts_of_suspended {s : Traced} (id : CallId) (ctx : FdCtx) (hfound : s.found id = some ctx)
    (hctx : ¬ Blocks ctx) (hfailed : .returned .addEventFailed ∉ s.trace id) (hsuspended : .suspended ∈ s.trace id) :
    ¬ Contracts s := by
  intro hq
  have htrace := hq id ctx hfound hfailed
  rw [if_neg hctx] at htrace
  exact htrace.never_suspended hsuspended

/-- A `read` on a pipe that is tracked, and a `recv` on a socket that the user has put in non-blocking mode: both suspend the fiber on `EAGAIN`. -/
theorem nonblocking_call_suspended :
    ¬ Throughout step Contracts (start 0)
        [.track 5 (some false), .begin 0 0 (.read 5), .lookup 0, .raw 0 .wouldBlock, .arm 0 0 0, .add 0 true, .yield 0] ∧
      ¬ Throughout step Contracts (start 0)
        [.track 5 (some true), .setUserNonblock 5 true, .begin 0 0 (.recv 5), .lookup 0, .raw 0 .wouldBlock, .arm 0 0 0,
          .add 0 true, .yield 0] := by
  constructor
  · intro h
    exact not_contracts_of_suspended 0 (.new (some false)) rfl (by decide) (by decide) (by decide) (h.last rfl)
  · intro h
    exact not_contracts_of_suspended 0 { FdCtx.new (some true) with userNonblock := true } rfl (by decide) (by decide)
      (by decide) (h.last rfl)

end Traced

end Awcotn.Hook
