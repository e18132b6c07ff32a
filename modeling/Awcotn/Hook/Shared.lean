import Awcotn.Hook.Steps
import Awcotn.IOManager.Handover
import Awcotn.Timer.Callbacks

/-!
# What a step of a hooked call does to the shared tables

One inversion lemma for the event tables and run queues, and one for the timer sets.
-/

namespace Awcotn.Hook

variable {s t : State} {i : IomId}

theorem lookupStep_shared {f : FiberId} (c : Call) :
    (lookupStep s f c).io = s.io ∧ (lookupStep s f c).timers = s.timers := by
  simp only [lookupStep]
  split <;> split <;> (try split) <;> (try split) <;> exact ⟨rfl, rfl⟩

theorem Disarms.io {timer : Option Addr} {u : State} (h : Disarms s i timer u) : u.io = s.io := by
  cases h <;> rfl

/-! ### Event tables -/

/-- What a step does to an event table and its run queue: a call registers, a resumed fiber takes its entry, and everything else at most takes registrations. -/
inductive IoStep (s t : State) (i : IomId) : Action → Prop
  | sheds {act : Action} : (∀ f c timer, act = .resume f → s.pc f = .suspended c timer → c.iom ≠ i) →
      (IOManager.Wf (s.io i) → IOManager.Wf (t.io i)) → IOManager.Sheds (s.io i) (t.io i) → IoStep s t i act
  | added {f : FiberId} {c : Call} {timer : Option Addr} {allow : Bool} {r : ℤ × IOManager FiberId Empty} :
      s.pc f = .adding c timer → c.iom = i → t.pc f = (if r.1 = 0 then .yielding c timer else .failed c timer) →
      (s.io i).addEvent c.request.fd c.request.event none ⟨some i, f, true⟩ allow = .ok r → t.io i = r.2 →
      IoStep s t i (.add f allow)
  | resumed {f : FiberId} {c : Call} {timer : Option Addr} : s.pc f = .suspended c timer → c.iom = i →
      (i, .fiber f) ∈ (s.io i).scheduled →
      t.io i = { s.io i with scheduled := (s.io i).scheduled.erase (i, .fiber f) } → IoStep s t i (.resume f)

theorem IoStep.same {act : Action} (hact : ∀ f, act ≠ .resume f) (h : t.io i = s.io i) : IoStep s t i act :=
  .sheds (fun f _ _ hresume => absurd hresume (hact f)) (fun hm => h ▸ hm) (h ▸ .refl _)

/-- A step on another manager. -/
theorem IoStep.away {act : Action} {j : IomId} {m : IOManager FiberId Empty}
    (hact : ∀ f c timer, act = .resume f → s.pc f = .suspended c timer → c.iom ≠ i) (hi : i ≠ j)
    (hio : t.io = Function.update s.io j m) : IoStep s t i act := by
  have hsame : t.io i = s.io i := by rw [hio, Function.update_of_ne hi]
  exact .sheds hact (fun hm => hsame ▸ hm) (hsame ▸ .refl _)

/-- A step that takes registrations of one manager. -/
theorem IoStep.update {act : Action} {j : IomId} {m : IOManager FiberId Empty} (hact : ∀ f, act ≠ .resume f)
    (hio : t.io = Function.update s.io j m) (hwf : IOManager.Wf (s.io j) → IOManager.Wf m)
    (h : IOManager.Sheds (s.io j) m) (i : IomId) : IoStep s t i act := by
  by_cases hi : i = j
  · subst hi
    have hself : t.io i = m := by rw [hio, Function.update_self]
    exact .sheds (fun f _ _ hresume => absurd hresume (hact f)) (hself ▸ hwf) (hself ▸ h)
  · exact .away (fun f _ _ hresume => absurd hresume (hact f)) hi hio

theorem step_io {act : Action} (h : step s act = .next t) (i : IomId) : IoStep s t i act := by
  cases step_move h with
  | @added g c timer allow r hpc hr hok =>
      by_cases hi : i = c.iom
      · subst hi
        exact .added hpc rfl (by rw [if_pos hok]; exact Function.update_self ..) hr (Function.update_self ..)
      · exact .away (by simp) hi rfl
  | @addFailed g c timer allow r hpc hr hfail =>
      by_cases hi : i = c.iom
      · subst hi
        exact .added hpc rfl (by rw [if_neg hfail]; exact Function.update_self ..) hr (Function.update_self ..)
      · exact .away (by simp) hi rfl
  | @resumed g c timer hpc hentry =>
      by_cases hi : i = c.iom
      · subst hi
        exact .resumed hpc rfl hentry (Function.update_self ..)
      · refine .away (fun f c' timer' hresume hpc' => ?_) hi rfl
        cases hresume
        obtain ⟨rfl, -⟩ := Pc.suspended.inj (hpc.symm.trans hpc')
        exact Ne.symm hi
  | cancelledAll _ hr => exact .update (by simp) rfl (fun hm => hm.cancelAll hr) (IOManager.cancelAll_sheds hr) i
  | finished _ hr | cancelledEvent hr =>
      exact .update (by simp) rfl (fun hm => hm.cancelEvent hr) (IOManager.cancelEvent_sheds hr) i
  | dispatched _ hm => exact .update (by simp) rfl (fun hwf => hwf.dispatch hm) (IOManager.dispatch_sheds hm) i
  | lookup => exact .same (by simp) (congrFun (lookupStep_shared _).1 i)
  | gaveUp _ _ hu | failedConnect _ _ hu | disarmed _ hu => exact .same (by simp) (congrFun hu.io i)
  | _ => exact .same (by simp) rfl

/-- An event table keeps its invariant and loses nothing that is registered or queued. -/
structure Serves (m m' : IOManager FiberId Empty) : Prop where
  wf : IOManager.Wf m → IOManager.Wf m'
  handsOver : IOManager.HandsOver m m'

/-- A resumed fiber takes its entry from the run queue. Nothing else leaves it. -/
theorem step_serves {act : Action} (h : step s act = .next t) (i : IomId) :
    Serves (s.io i) (t.io i) ∨ ∃ f c timer, act = .resume f ∧ s.pc f = .suspended c timer ∧ c.iom = i ∧
      t.io i = { s.io i with scheduled := (s.io i).scheduled.erase (i, .fiber f) } := by
  cases step_io h i with
  | sheds _ hwf hsheds => exact .inl ⟨hwf, hsheds.handsOver⟩
  | added _ _ _ hr hio => exact .inl (hio ▸ ⟨fun hm => hm.addEvent rfl hr, IOManager.addEvent_handsOver hr⟩)
  | resumed hpc hiom _ hio => exact .inr ⟨_, _, _, rfl, hpc, hiom, hio⟩

/-! ### Timer sets -/

/-- The timer that a fiber holds for its call. -/
def Pc.timer : Pc → Option (Call × Addr)
  | .adding c (some a) | .failed c (some a) | .yielding c (some a) | .suspended c (some a) | .woken c (some a) =>
    some (c, a)
  | _ => none

/-- What a step does to a timer set. -/
inductive TimerStep (s t : State) (i : IomId) : Action → Prop
  | same {act : Action} : t.timers i = s.timers i → TimerStep s t i act
  | armed {f : FiberId} {c : Call} {a : Addr} {now : UInt64} : s.pc f = .arming c → t.pc f = .adding c (some a) →
      c.iom = i → (s.timers i).heap a = none →
      t.timers i = ((s.timers i).addTimer a c.timeoutMs (some (.timeout c.timeout)) false now).2 →
      TimerStep s t i (.arm f a now)
  | other {a : Addr} {ms now : UInt64} {recurring : Bool} : (s.timers i).heap a = none →
      t.timers i = ((s.timers i).addTimer a ms (some .other) recurring now).2 →
      TimerStep s t i (.otherTimer i a ms recurring now)
  | cancelled {f : FiberId} {c : Call} {a : Addr} {r : Bool × TimerManager TimerCb} : (s.pc f).timer = some (c, a) →
      c.iom = i → (s.timers i).cancel a = some r → t.timers i = r.2 → TimerStep s t i (.cancelTimer f)
  | expired {now : UInt64} {probe : Addr} {r : List (Option TimerCb) × TimerManager TimerCb} :
      (s.timers i).listExpiredCb now probe = some r → t.timers i = r.2 →
      t.flying = s.flying ++ (timeouts r.1).map (fun timeout => (timeout, CbPc.handedOut)) →
      TimerStep s t i (.expire i now probe)

/-- A step that arms or cancels a timer of one manager. -/
theorem TimerStep.update {act : Action} {j : IomId} {m : TimerManager TimerCb}
    (htimers : t.timers = Function.update s.timers j m) (h : t.timers j = m → TimerStep s t j act) (i : IomId) :
    TimerStep s t i act := by
  by_cases hi : i = j
  · subst hi
    exact h (by rw [htimers, Function.update_self])
  · exact .same (by rw [htimers, Function.update_of_ne hi])

/-- What a call does to the timer sets when it lets go of its timer. -/
theorem Disarms.timers {f : FiberId} {c : Call} {timer : Option Addr} {u : State} (h : Disarms s c.iom timer u)
    (hpc : ∀ a, timer = some a → (s.pc f).timer = some (c, a)) (ht : t.timers = u.timers) (i : IomId) :
    TimerStep s t i (.cancelTimer f) := by
  cases h with
  | noTimer => exact .same (congrFun ht i)
  | cancelled hr => exact .update ht (.cancelled (hpc _ rfl) rfl hr) i

theorem step_timers {act : Action} (h : step s act = .next t) (i : IomId) : TimerStep s t i act := by
  cases step_move h with
  | armed hpc _ hfree => exact .update rfl (.armed hpc (Function.update_self ..) rfl hfree) i
  | otherTimer hfree => exact .update rfl (.other hfree) i
  | expired _ hr => exact .update rfl (fun hself => .expired hr hself rfl) i
  | gaveUp hpc _ hu | failedConnect hpc _ hu | disarmed hpc hu =>
      refine hu.timers (fun a ha => ?_) (by rfl) i
      rw [hpc, ha]
      rfl
  | lookup => exact .same (congrFun (lookupStep_shared _).2 i)
  | _ => exact .same rfl

/-! ### Timeout callbacks -/

/-- What a step does to the callbacks in flight and to what they write. -/
inductive FlyingStep (s t : State) : Action → Prop
  | same {act : Action} : t.flying = s.flying → t.cancelled = s.cancelled → FlyingStep s t act
  | expired {i : IomId} {now : UInt64} {probe : Addr} {r : List (Option TimerCb) × TimerManager TimerCb} :
      (s.timers i).listExpiredCb now probe = some r →
      t.flying = s.flying ++ (timeouts r.1).map (fun timeout => (timeout, CbPc.handedOut)) →
      t.cancelled = s.cancelled → FlyingStep s t (.expire i now probe)
  | dropped {j : ℕ} {allow : Bool} {timeout : Timeout} : s.flying[j]? = some (timeout, .handedOut) →
      (s.owned timeout.winfo → s.cancelled timeout.winfo) → t.flying = s.flying.eraseIdx j →
      t.cancelled = s.cancelled → FlyingStep s t (.callback j allow)
  | tested {j : ℕ} {allow : Bool} {timeout : Timeout} : s.flying[j]? = some (timeout, .handedOut) →
      t.flying = s.flying.set j (timeout, .checked) → t.cancelled = s.cancelled → FlyingStep s t (.callback j allow)
  | wrote {j : ℕ} {allow : Bool} {timeout : Timeout} : s.flying[j]? = some (timeout, .checked) →
      t.flying = s.flying.set j (timeout, .flagged) →
      t.cancelled = Function.update s.cancelled timeout.winfo true → FlyingStep s t (.callback j allow)
  | finished {j : ℕ} {allow : Bool} {timeout : Timeout} {r : Bool × IOManager FiberId Empty} :
      s.flying[j]? = some (timeout, .flagged) → t.flying = s.flying.eraseIdx j → t.cancelled = s.cancelled →
      (s.io timeout.iom).cancelEvent timeout.fd timeout.event allow = .ok r → t.io timeout.iom = r.2 →
      FlyingStep s t (.callback j allow)

theorem step_flying {act : Action} (h : step s act = .next t) : FlyingStep s t act := by
  cases hfiber : act.fiber with
  | some f =>
      obtain ⟨before, after, hmove⟩ := step_fiber h hfiber
      exact .same hmove.flying hmove.cancelled
  | none =>
      cases step_move h with
      | expired _ hr => exact .expired hr rfl rfl
      | tested hget => exact .tested hget rfl rfl
      | dropped hget hgone => exact .dropped hget hgone rfl rfl
      | wrote hget => exact .wrote hget rfl rfl
      | finished hget hr => exact .finished hget rfl rfl hr (Function.update_self ..)
      | track | setTimeout | setUserNonblock | otherTimer | wait | dispatched | cancelledEvent => exact .same rfl rfl
      | _ => cases hfiber

end Awcotn.Hook
