import Awcotn.Hook.Calls

/-!
# The moves of the process

The one place that takes `step` apart: a move for each of its branches that goes on, with the guard of the branch and the state it leaves.
-/

namespace Awcotn.Hook

open Transition

/-- `timer->cancel()`, if there is a timer, and the state it leaves. -/
inductive Disarms (s : State) (i : IomId) : Option Addr → State → Prop
  | noTimer : Disarms s i none s
  | cancelled {a : Addr} {r : Bool × TimerManager TimerCb} : (s.timers i).cancel a = some r →
      Disarms s i (some a) (s.setTimers i r.2)

/-- The steps that go on. -/
inductive Move (s : State) : Action → State → Prop
  | begin {f : FiberId} {i : IomId} {request : Request} : s.pc f = .idle → Move s (.begin f i request)
      ({ s with nextCall := s.nextCall + 1, owned := Function.update s.owned s.nextCall true }.goto f
        (.entered (s.newCall i request)))
  | lookup {f : FiberId} {c : Call} : s.pc f = .entered c → Move s (.lookup f) (lookupStep s f c)
  | direct {f : FiberId} {c : Call} {r : RawResult} : s.pc f = .direct c → Move s (.raw f r) (s.finish f c (.raw r))
  | blocked {f : FiberId} {c : Call} : s.pc f = .raw c → Move s (.raw f .wouldBlock) (s.goto f (.arming c))
  | interrupted {f : FiberId} {c : Call} : s.pc f = .raw c → c.request.isDoIo = true → Move s (.raw f .EINTR) s
  | rawDone {f : FiberId} {c : Call} {r : RawResult} : s.pc f = .raw c → r ≠ .wouldBlock →
      (c.request.isDoIo = true → r ≠ .EINTR) → Move s (.raw f r) (s.finish f c (.raw r))
  | unarmed {f : FiberId} {c : Call} {a : Addr} {now : UInt64} : s.pc f = .arming c → c.timeoutMs = -1 →
      Move s (.arm f a now) (s.goto f (.adding c none))
  | armed {f : FiberId} {c : Call} {a : Addr} {now : UInt64} : s.pc f = .arming c → c.timeoutMs ≠ -1 →
      (s.timers c.iom).heap a = none → Move s (.arm f a now) ((s.setTimers c.iom
        ((s.timers c.iom).addTimer a c.timeoutMs (some (.timeout c.timeout)) false now).2).goto f (.adding c (some a)))
  | added {f : FiberId} {c : Call} {timer : Option Addr} {allow : Bool} {r : ℤ × IOManager FiberId Empty} :
      s.pc f = .adding c timer →
      (s.io c.iom).addEvent c.request.fd c.request.event none ⟨some c.iom, f, true⟩ allow = .ok r → r.1 = 0 →
      Move s (.add f allow) ((s.setIo c.iom r.2).goto f (.yielding c timer))
  | addFailed {f : FiberId} {c : Call} {timer : Option Addr} {allow : Bool} {r : ℤ × IOManager FiberId Empty} :
      s.pc f = .adding c timer →
      (s.io c.iom).addEvent c.request.fd c.request.event none ⟨some c.iom, f, true⟩ allow = .ok r → r.1 ≠ 0 →
      Move s (.add f allow) ((s.setIo c.iom r.2).goto f (.failed c timer))
  | yielded {f : FiberId} {c : Call} {timer : Option Addr} : s.pc f = .yielding c timer →
      Move s (.yield f) (s.goto f (.suspended c timer))
  | resumed {f : FiberId} {c : Call} {timer : Option Addr} : s.pc f = .suspended c timer →
      (c.iom, .fiber f) ∈ (s.io c.iom).scheduled → Move s (.resume f)
        ((s.setIo c.iom { s.io c.iom with scheduled := (s.io c.iom).scheduled.erase (c.iom, .fiber f) }).goto f
          (.woken c timer))
  | gaveUp {f : FiberId} {c : Call} {timer : Option Addr} {u : State} : s.pc f = .failed c timer →
      c.request.isDoIo = true → Disarms s c.iom timer u → Move s (.cancelTimer f) (u.finish f c .addEventFailed)
  | failedConnect {f : FiberId} {c : Call} {timer : Option Addr} {u : State} : s.pc f = .failed c timer →
      c.request.isDoIo = false → Disarms s c.iom timer u → Move s (.cancelTimer f) (u.goto f (.soError c))
  | disarmed {f : FiberId} {c : Call} {timer : Option Addr} {u : State} : s.pc f = .woken c timer →
      Disarms s c.iom timer u → Move s (.cancelTimer f) (u.goto f (.checking c))
  | timedOut {f : FiberId} {c : Call} : s.pc f = .checking c → s.cancelled c.id = true →
      Move s (.check f) (s.finish f c .ETIMEDOUT)
  | again {f : FiberId} {c : Call} : s.pc f = .checking c → s.cancelled c.id = false → c.request.isDoIo = true →
      Move s (.check f) (s.goto f (.raw c))
  | asked {f : FiberId} {c : Call} : s.pc f = .checking c → s.cancelled c.id = false → c.request.isDoIo = false →
      Move s (.check f) (s.goto f (.soError c))
  | answered {f : FiberId} {c : Call} {error : Option ℕ} : s.pc f = .soError c →
      Move s (.soError f error) (s.finish f c (.soError error))
  | close {f : FiberId} {fd : ℕ} {i : Option IomId} : s.pc f = .idle →
      Move s (.close f fd i) (s.goto f (.closeGet fd i))
  | found {f : FiberId} {fd : ℕ} {i : Option IomId} {allow : Bool} : s.pc f = .closeGet fd i →
      (s.fdMgr.get fd).isSome → Move s (.closeStep f allow) (s.goto f (.closeCancel fd i))
  | notFound {f : FiberId} {fd : ℕ} {i : Option IomId} {allow : Bool} : s.pc f = .closeGet fd i →
      s.fdMgr.get fd = none → Move s (.closeStep f allow) (s.goto f (.closeRaw fd))
  | cancelledNone {f : FiberId} {fd : ℕ} {allow : Bool} : s.pc f = .closeCancel fd none →
      Move s (.closeStep f allow) (s.goto f (.closeDel fd))
  | cancelledAll {f : FiberId} {fd : ℕ} {i : IomId} {allow : Bool} {r : Bool × IOManager FiberId Empty} :
      s.pc f = .closeCancel fd (some i) → (s.io i).cancelAll fd allow = .ok r →
      Move s (.closeStep f allow) ((s.setIo i r.2).goto f (.closeDel fd))
  | deleted {f : FiberId} {fd : ℕ} {allow : Bool} : s.pc f = .closeDel fd →
      Move s (.closeStep f allow) ({ s with fdMgr := s.fdMgr.del fd }.goto f (.closeRaw fd))
  | closed {f : FiberId} {fd : ℕ} {allow : Bool} : s.pc f = .closeRaw fd → Move s (.closeStep f allow)
      ({ s with generation := Function.update s.generation fd (s.generation fd + 1) }.goto f .idle)
  | track {fd : ℕ} {stat : FdCtx.Stat} : Move s (.track fd stat) { s with fdMgr := s.fdMgr.getOrCreate fd stat }
  | setTimeout {fd : ℕ} {type : TimeoutSo} {v : UInt64} {ctx : FdCtx} : s.fdMgr.get fd = some ctx →
      Move s (.setTimeout fd type v) { s with fdMgr := s.fdMgr.set fd (ctx.setTimeout type v) }
  | setUserNonblock {fd : ℕ} {v : Bool} {ctx : FdCtx} : s.fdMgr.get fd = some ctx →
      Move s (.setUserNonblock fd v) { s with fdMgr := s.fdMgr.set fd { ctx with userNonblock := v } }
  | expired {i : IomId} {now : UInt64} {probe : Addr} {r : List (Option TimerCb) × TimerManager TimerCb} :
      (s.timers i).heap probe = none → (s.timers i).listExpiredCb now probe = some r → Move s (.expire i now probe)
        ({ s with flying := s.flying ++ (timeouts r.1).map fun timeout => (timeout, CbPc.handedOut) }.setTimers i r.2)
  | tested {j : ℕ} {timeout : Timeout} {allow : Bool} : s.flying[j]? = some (timeout, .handedOut) →
      Move s (.callback j allow) { s with flying := s.flying.set j (timeout, .checked) }
  | dropped {j : ℕ} {timeout : Timeout} {allow : Bool} : s.flying[j]? = some (timeout, .handedOut) →
      (s.owned timeout.winfo → s.cancelled timeout.winfo) →
      Move s (.callback j allow) { s with flying := s.flying.eraseIdx j }
  | wrote {j : ℕ} {timeout : Timeout} {allow : Bool} : s.flying[j]? = some (timeout, .checked) →
      Move s (.callback j allow) { s with
        cancelled := Function.update s.cancelled timeout.winfo true, flying := s.flying.set j (timeout, .flagged) }
  | finished {j : ℕ} {timeout : Timeout} {allow : Bool} {r : Bool × IOManager FiberId Empty} :
      s.flying[j]? = some (timeout, .flagged) →
      (s.io timeout.iom).cancelEvent timeout.fd timeout.event allow = .ok r →
      Move s (.callback j allow) ({ s with flying := s.flying.eraseIdx j }.setIo timeout.iom r.2)
  | otherTimer {i : IomId} {a : Addr} {ms : UInt64} {recurring : Bool} {now : UInt64} : (s.timers i).heap a = none →
      Move s (.otherTimer i a ms recurring now)
        (s.setTimers i ((s.timers i).addTimer a ms (some .other) recurring now).2)
  | wait {i : IomId} {reports : List (ℕ × Report)} :
      (reports.all fun r => IOManager.mayReport (s.io i).epoll r.1 r.2) → Move s (.wait i reports)
      { s with ready := s.ready ++ reports.map fun r => (i, r.1, r.2) }
  | dispatched {j : ℕ} {allow : Bool} {i : IomId} {fd : ℕ} {report : Report} {m : IOManager FiberId Empty} :
      s.ready[j]? = some (i, fd, report) → (s.io i).dispatch fd report allow = .ok m →
      Move s (.dispatch j allow) ({ s with ready := s.ready.eraseIdx j }.setIo i m)
  | cancelledEvent {i : IomId} {fd : ℕ} {event : Event} {allow : Bool} {r : Bool × IOManager FiberId Empty} :
      (s.io i).cancelEvent fd event allow = .ok r → Move s (.cancelEvent i fd event allow) (s.setIo i r.2)

variable {s t : State}

@[simp] theorem State.goto_pc (s : State) (f : FiberId) (pc : Pc) : (s.goto f pc).pc f = pc := Function.update_self ..

@[simp] theorem State.finish_pc (s : State) (f : FiberId) (c : Call) (r : Return) : (s.finish f c r).pc f = .idle :=
  Function.update_self ..

theorem ioStep_eq_next {β : Type*} {r : Except Fault β} {next : β → State} (h : ioStep r next = .next t) :
    ∃ b, r = .ok b ∧ t = next b := by
  cases r with
  | error e => cases h
  | ok b => exact ⟨b, rfl, (Outcome.next.inj h).symm⟩

theorem cancelTimer_eq_next {i : IomId} {timer : Option Addr} {next : State → State}
    (h : cancelTimer s i timer next = .next t) : ∃ u, Disarms s i timer u ∧ t = next u := by
  simp only [cancelTimer] at h
  split at h
  · exact ⟨s, .noTimer, (Outcome.next.inj h).symm⟩
  · split at h
    · cases h
    · next b m hr => exact ⟨_, .cancelled hr, (Outcome.next.inj h).symm⟩

theorem rawStep_move {f : FiberId} {c : Call} (hpc : s.pc f = .raw c) (r : RawResult) :
    Move s (.raw f r) (rawStep s f c r) := by
  rw [rawStep]
  split_ifs with hblock hintr
  · subst hblock
    exact .blocked hpc
  · obtain ⟨rfl, hdoIo⟩ := hintr
    exact .interrupted hpc hdoIo
  · exact .rawDone hpc hblock fun hdoIo hr => hintr ⟨hr, hdoIo⟩

theorem checkStep_move {f : FiberId} {c : Call} (hpc : s.pc f = .checking c) : Move s (.check f) (checkStep s f c) := by
  rw [checkStep]
  split_ifs with hcancelled hdoIo
  · exact .timedOut hpc hcancelled
  · exact .again hpc (by simpa using hcancelled) hdoIo
  · exact .asked hpc (by simpa using hcancelled) (by simpa using hdoIo)

theorem callbackStep_move {j : ℕ} {timeout : Timeout} {allow : Bool} {pc : CbPc}
    (hget : s.flying[j]? = some (timeout, pc)) (h : callbackStep s j timeout allow pc = .next t) :
    Move s (.callback j allow) t := by
  cases pc with
  | handedOut =>
      simp only [callbackStep] at h
      split_ifs at h with hlocks
      · cases h
        exact .tested hget
      · cases h
        refine .dropped hget fun howned => ?_
        simpa [State.locks, howned] using hlocks
  | checked =>
      cases h
      exact .wrote hget
  | flagged =>
      obtain ⟨r, hr, rfl⟩ := ioStep_eq_next h
      exact .finished hget hr

theorem closeStep_move {f : FiberId} {allow : Bool} (h : closeStep s f allow = .next t) :
    Move s (.closeStep f allow) t := by
  simp only [closeStep] at h
  split at h
  · next fd i hpc =>
      cases h
      split_ifs with hget
      · exact .found hpc hget
      · exact .notFound hpc (by simpa using hget)
  · next fd hpc =>
      cases h
      exact .cancelledNone hpc
  · next fd i hpc =>
      obtain ⟨r, hr, rfl⟩ := ioStep_eq_next h
      exact .cancelledAll hpc hr
  · next fd hpc =>
      cases h
      exact .deleted hpc
  · next fd hpc =>
      cases h
      exact .closed hpc
  · cases h

/-- Every step that goes on is a move. -/
theorem step_move {a : Action} (h : step s a = .next t) : Move s a t := by
  cases a with
  | begin f i request =>
      simp only [step] at h
      split at h
      · next hpc =>
          cases h
          exact .begin hpc
      · cases h
  | lookup f =>
      simp only [step] at h
      split at h
      · next c hpc =>
          cases h
          exact .lookup hpc
      · cases h
  | raw f r =>
      simp only [step] at h
      split at h
      · next c hpc =>
          cases h
          exact .direct hpc
      · next c hpc =>
          cases h
          exact rawStep_move hpc r
      · cases h
  | arm f a now =>
      simp only [step] at h
      split at h
      · next c hpc =>
          split_ifs at h with hnone hfree
          · cases h
            exact .unarmed hpc hnone
          · cases h
            exact .armed hpc hnone (by simpa using hfree)
      · cases h
  | add f allow =>
      simp only [step] at h
      split at h
      · next c timer hpc =>
          obtain ⟨r, hr, rfl⟩ := ioStep_eq_next h
          split_ifs with hok
          · exact .added hpc hr hok
          · exact .addFailed hpc hr hok
      · cases h
  | yield f =>
      simp only [step] at h
      split at h
      · next c timer hpc =>
          cases h
          exact .yielded hpc
      · cases h
  | resume f =>
      simp only [step] at h
      split at h
      · next c timer hpc =>
          split_ifs at h with hentry
          · cases h
            exact .resumed hpc hentry
      · cases h
  | cancelTimer f =>
      simp only [step] at h
      split at h
      · next c timer hpc =>
          obtain ⟨u, hu, rfl⟩ := cancelTimer_eq_next h
          split_ifs with hdoIo
          · exact .gaveUp hpc hdoIo hu
          · exact .failedConnect hpc (by simpa using hdoIo) hu
      · next c timer hpc =>
          obtain ⟨u, hu, rfl⟩ := cancelTimer_eq_next h
          exact .disarmed hpc hu
      · cases h
  | check f =>
      simp only [step] at h
      split at h
      · next c hpc =>
          cases h
          exact checkStep_move hpc
      · cases h
  | soError f error =>
      simp only [step] at h
      split at h
      · next c hpc =>
          cases h
          exact .answered hpc
      · cases h
  | close f fd i =>
      simp only [step] at h
      split at h
      · next hpc =>
          cases h
          exact .close hpc
      · cases h
  | closeStep f allow => exact closeStep_move h
  | track fd stat =>
      cases h
      exact .track
  | setTimeout fd type v =>
      simp only [step] at h
      split at h
      · next ctx hget =>
          cases h
          exact .setTimeout hget
      · cases h
  | setUserNonblock fd v =>
      simp only [step] at h
      split at h
      · next ctx hget =>
          cases h
          exact .setUserNonblock hget
      · cases h
  | expire i now probe =>
      simp only [step] at h
      split_ifs at h with hfree
      split at h
      · cases h
      · next cbs m hexpired =>
          cases h
          exact .expired (by simpa using hfree) hexpired
  | callback j allow =>
      simp only [step] at h
      split at h
      · next timeout pc hget => exact callbackStep_move hget h
      · cases h
  | otherTimer i a ms recurring now =>
      simp only [step] at h
      split_ifs at h with hfree
      cases h
      exact .otherTimer (by simpa using hfree)
  | wait i reports =>
      simp only [step] at h
      split_ifs at h with hall
      cases h
      exact .wait hall
  | dispatch j allow =>
      simp only [step] at h
      split at h
      · next i fd report hget =>
          obtain ⟨m, hm, rfl⟩ := ioStep_eq_next h
          exact .dispatched hget hm
      · cases h
  | cancelEvent i fd event allow =>
      obtain ⟨r, hr, rfl⟩ := ioStep_eq_next h
      exact .cancelledEvent hr

end Awcotn.Hook
