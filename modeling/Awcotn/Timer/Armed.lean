import Awcotn.Timer.Writes

/-!
# The timer set over whole runs

Every live timer is in the set exactly once and its deadline is its interval after the reading at which it was last armed. The reading is not stored anywhere: `reset` without `from_now` recovers it as `m_next - m_ms`, so it is kept here beside the manager and compared.
-/

namespace Awcotn.TimerManager

open Transition

variable {Cb : Type*} {m : TimerManager Cb}

/-- The readings at which timers were last armed, after an operation: `addTimer`, a `refresh` or `reset(_, true)` that goes through, and an expiry that re-arms a recurring timer read the clock for it. -/
def armedAfter (m : TimerManager Cb) (armed : Addr → UInt64) : Action Cb → Addr → UInt64
  | .addTimer a _ _ _ now => Function.update armed a now
  | .refresh a now => if (m.refresh a now).any (·.1) then Function.update armed a now else armed
  | .reset a ms fromNow now =>
    if fromNow ∧ (m.reset a ms fromNow now).any (·.1) then Function.update armed a now else armed
  | .listExpiredCb now probe =>
    match m.listExpiredCb now probe with
    | some (cbs, _) => fun a => if a ∈ m.expired cbs ∧ m.recurs a then now else armed a
    | none => armed
  | _ => armed

/-- A manager with the readings at which its timers were last armed. -/
structure Armed (Cb : Type*) where
  manager : TimerManager Cb
  armed : Addr → UInt64

namespace Armed

def step (s : Armed Cb) (act : Action Cb) : Outcome Unit (Armed Cb) :=
  match TimerManager.step s.manager act with
  | .next m => .next { manager := m, armed := s.manager.armedAfter s.armed act }
  | .abort e => .abort e
  | .disabled => .disabled

/-- A new manager, whose set is empty. -/
def init (now : UInt64) : Armed Cb := { manager := TimerManager.init now, armed := fun _ => now }

end Armed

/-- `addTimer` is called with a callback. -/
def Action.HasCb : Action Cb → Prop
  | .addTimer _ _ cb _ _ => cb.isSome
  | _ => True

instance (act : Action Cb) : Decidable act.HasCb := by
  cases act <;> unfold Action.HasCb <;> infer_instance

/-- What holds of the timer set between operations. -/
structure Armed.Coherent (s : Armed Cb) : Prop where
  sorted : OrderedSet.Sorted Before s.manager.key s.manager.timers
  once : ∀ a t, s.manager.heap a = some t → t.cb.isSome → s.manager.timers.count a = 1
  found : ∀ a t, s.manager.heap a = some t → t.cb.isSome →
    OrderedSet.find Before s.manager.key (s.manager.key a) s.manager.timers < s.manager.timers.length
  cleared : ∀ a t, s.manager.heap a = some t → t.cb = none → a ∉ s.manager.timers
  armed : ∀ a t, s.manager.heap a = some t → t.cb.isSome → t.next - t.ms = s.armed a

/-- What the proof keeps: nothing without a callback is in the set, and live timers are where they were armed to be. -/
structure Armed.Inv (s : Armed Cb) : Prop where
  wf : Wf s.manager
  cbs : ∀ a ∈ s.manager.timers, ∀ t, s.manager.heap a = some t → t.cb.isSome
  armed : ∀ a t, s.manager.heap a = some t → t.cb.isSome → t.next - t.ms = s.armed a

theorem Armed.Inv.coherent {s : Armed Cb} (h : s.Inv) : s.Coherent where
  sorted := h.wf.sorted
  once a t ha hcb := List.count_eq_one_of_mem h.wf.sorted.nodup ((h.wf.live a t ha hcb).resolve_right (by simp))
  found a t ha hcb := OrderedSet.find_lt_length h.wf.sorted ((h.wf.live a t ha hcb).resolve_right (by simp))
  cleared a t ha hcb hmem := by simpa [hcb] using h.cbs a hmem t ha
  armed := h.armed

/-- The record goes along with the manager. -/
theorem Armed.step_eq_next {s s' : Armed Cb} {act : Action Cb} (h : Armed.step s act = .next s') :
    TimerManager.step s.manager act = .next s'.manager ∧ s'.armed = s.manager.armedAfter s.armed act := by
  simp only [Armed.step] at h
  split at h <;> cases h
  rename_i m' hnext
  exact ⟨hnext, rfl⟩

/-- Every timer in the set is where it was armed to be, with or without a callback. -/
structure Armed.Timed (s : Armed Cb) : Prop where
  wf : Wf s.manager
  armed : ∀ a ∈ s.manager.timers, ∀ t, s.manager.heap a = some t → t.next - t.ms = s.armed a

/-- Live timers are in the set. -/
theorem Armed.inv_iff {s : Armed Cb} :
    s.Inv ↔ s.Timed ∧ ∀ a ∈ s.manager.timers, ∀ t, s.manager.heap a = some t → t.cb.isSome := by
  constructor
  · exact fun h => ⟨⟨h.wf, fun a ha t ht => h.armed a t ht (h.cbs a ha t ht)⟩, h.cbs⟩
  · rintro ⟨htimed, hcbs⟩
    exact ⟨htimed.wf, hcbs, fun a t ht hlive =>
      htimed.armed a ((htimed.wf.live a t ht hlive).resolve_right (by simp)) t ht⟩

/-! ### The operations keep the deadlines -/

/-- A timer has been written and inserted, and it is where it was armed to be. -/
theorem Armed.Timed.inserted {s : Armed Cb} (h : s.Timed) {a : Addr} {t : Timer Cb} {r : Bool × TimerManager Cb}
    (hwf : Wf r.2) (hin : Inserted s.manager a t r) {armed : Addr → UInt64} (hself : t.next - t.ms = armed a)
    (hrest : ∀ b, b ≠ a → armed b = s.armed b) : Timed { manager := r.2, armed := armed } := by
  refine ⟨hwf, fun b hb u hu => ?_⟩
  rw [hin.heap] at hu
  by_cases hba : b = a
  · subst hba
    rw [Function.update_self] at hu
    exact Option.some.inj hu ▸ hself
  · rw [Function.update_of_ne hba] at hu
    exact (h.armed b (((hin.timers b).1 hb).resolve_left hba) u hu).trans (hrest b hba).symm

theorem Armed.Timed.cancelled {s : Armed Cb} (h : s.Timed) {a : Addr} {r : Bool × TimerManager Cb}
    (hr : s.manager.cancel a = some r) : Timed { manager := r.2, armed := s.armed } := by
  rcases cancel_effect h.wf hr with rfl | ⟨-, t, ha, -, hheap, htimers, -⟩
  · exact h
  · refine ⟨cancel_wf h.wf hr, fun b hb u hu => ?_⟩
    obtain ⟨hmem, hba⟩ := (htimers b).1 hb
    rw [hheap, Function.update_of_ne hba] at hu
    exact h.armed b hmem u hu

theorem Armed.Timed.expired {s : Armed Cb} (h : s.Timed) {now : UInt64} {probe : Addr}
    {r : List (Option Cb) × TimerManager Cb} (hr : s.manager.listExpiredCb now probe = some r) :
    Timed { manager := r.2, armed := s.manager.armedAfter s.armed (.listExpiredCb now probe) } := by
  have heffect := listExpiredCb_effect h.wf hr
  have hafter : s.manager.armedAfter s.armed (.listExpiredCb now probe) =
      fun a => if a ∈ s.manager.expired r.1 ∧ s.manager.recurs a then now else s.armed a := by
    simp only [armedAfter, hr]
  rw [hafter]
  refine ⟨listExpiredCb_wf h.wf hr, fun b hb u hu => ?_⟩
  obtain ⟨hmem, hrecurs⟩ := (heffect.timers b).1 hb
  by_cases hexp : b ∈ s.manager.expired r.1
  · obtain ⟨t, ht, rfl⟩ := Option.map_eq_some_iff.1 ((heffect.taken b hexp).symm.trans hu)
    have hrec : t.recurring = true := by simpa [recurs, ht] using hrecurs hexp
    simp [afterExpiry, hrec, hexp, recurs, ht]
  · simpa [hexp] using h.armed b hmem u (heffect.left b hexp ▸ hu)

theorem Armed.step_timed (s : Armed Cb) (act : Action Cb) (s' : Armed Cb) (h : s.Timed)
    (hstep : Armed.step s act = .next s') : s'.Timed := by
  obtain ⟨m', armed⟩ := s'
  obtain ⟨hnext, rfl⟩ := Armed.step_eq_next hstep
  cases step_performed hnext with
  | @addTimer a ms cb recurring now hnew =>
      refine h.inserted (addTimer_wf h.wf hnew ms cb recurring now) (addTimer_inserted h.wf hnew ..) ?_ ?_
      · rw [armedAfter, Function.update_self, UInt64.add_comm]
        exact UInt64.add_sub_cancel now ms
      · exact fun b hba => Function.update_of_ne hba _ _
  | @cancel a r _ hr =>
      exact h.cancelled hr
  | @refresh a now r hstored hr =>
      rcases refresh_effect h.wf hr with rfl | ⟨hdone, t, ha, hcb, hin⟩
      · simpa [armedAfter, hr] using h
      · have hafter : s.manager.armedAfter s.armed (.refresh a now) = Function.update s.armed a now := by
          simp [armedAfter, hr, hdone]
        rw [hafter]
        refine h.inserted (refresh_wf h.wf hr) hin ?_ fun b hba => Function.update_of_ne hba _ _
        rw [Function.update_self]
        exact UInt64.add_sub_cancel now t.ms
  | @reset a ms fromNow now r hstored hr =>
      rcases reset_effect h.wf hr with rfl | ⟨hdone, t, ha, hcb, hin⟩
      · simpa [armedAfter, hr] using h
      · refine h.inserted (reset_wf h.wf hr) hin ?_ ?_
        · show (if fromNow then now else t.next - t.ms) + ms - ms = _
          rw [UInt64.add_sub_cancel]
          cases fromNow with
          | false =>
              have hmem : a ∈ s.manager.timers := (h.wf.live a t ha hcb).resolve_right (by simp)
              simpa [armedAfter] using h.armed a hmem t ha
          | true => simp [armedAfter, hr, hdone]
        · intro b hba
          simp only [armedAfter]
          split_ifs
          · exact Function.update_of_ne hba _ _
          · rfl
  | @getNextTimer now =>
      exact ⟨getNextTimer_wf h.wf now, by simpa [armedAfter] using h.armed⟩
  | @listExpiredCb now probe r _ hr =>
      exact h.expired hr
  | @release a hin =>
      exact ⟨free_wf h.wf hin, fun b hb u hu => h.armed b hb u (heap_of_free hu)⟩

/-! ### The operations keep the callbacks -/

theorem Inserted.cbs {a : Addr} {t : Timer Cb} {r : Bool × TimerManager Cb} (hin : Inserted m a t r)
    (h : ∀ b ∈ m.timers, ∀ u, m.heap b = some u → u.cb.isSome) (hcb : t.cb.isSome) :
    ∀ b ∈ r.2.timers, ∀ u, r.2.heap b = some u → u.cb.isSome := by
  intro b hb u hu
  rw [hin.heap] at hu
  by_cases hba : b = a
  · subst hba
    rw [Function.update_self] at hu
    exact Option.some.inj hu ▸ hcb
  · rw [Function.update_of_ne hba] at hu
    exact h b (((hin.timers b).1 hb).resolve_left hba) u hu

/-- Nothing without a callback comes into the set. -/
theorem step_cbs {act : Action Cb} {m' : TimerManager Cb} (hwf : Wf m)
    (h : ∀ a ∈ m.timers, ∀ t, m.heap a = some t → t.cb.isSome) (hact : act.HasCb)
    (hnext : TimerManager.step m act = .next m') : ∀ a ∈ m'.timers, ∀ t, m'.heap a = some t → t.cb.isSome := by
  cases step_performed hnext with
  | @addTimer a ms cb recurring now hnew =>
      exact (addTimer_inserted hwf hnew ms cb recurring now).cbs h hact
  | @cancel a r _ hr =>
      rcases cancel_effect hwf hr with rfl | ⟨-, t, ha, -, hheap, htimers, -⟩
      · exact h
      · intro b hb u hu
        obtain ⟨hmem, hba⟩ := (htimers b).1 hb
        rw [hheap, Function.update_of_ne hba] at hu
        exact h b hmem u hu
  | @refresh a now r _ hr =>
      rcases refresh_effect hwf hr with rfl | ⟨-, t, -, hcb, hin⟩
      · exact h
      · exact hin.cbs h hcb
  | @reset a ms fromNow now r _ hr =>
      rcases reset_effect hwf hr with rfl | ⟨-, t, -, hcb, hin⟩
      · exact h
      · exact hin.cbs h hcb
  | @getNextTimer now =>
      simpa using h
  | @listExpiredCb now probe r _ hr =>
      have heffect := listExpiredCb_effect hwf hr
      intro b hb u hu
      obtain ⟨hmem, hrecurs⟩ := (heffect.timers b).1 hb
      by_cases hexp : b ∈ m.expired r.1
      · obtain ⟨t, ht, rfl⟩ := Option.map_eq_some_iff.1 ((heffect.taken b hexp).symm.trans hu)
        have hrec : t.recurring = true := by simpa [recurs, ht] using hrecurs hexp
        simpa [afterExpiry, hrec] using h b hmem t ht
      · exact h b hmem u (heffect.left b hexp ▸ hu)
  | @release a _ =>
      exact fun b hb u hu => h b hb u (heap_of_free hu)

theorem Armed.step_inv (s : Armed Cb) (act : Action Cb) (s' : Armed Cb) (h : s.Inv) (hact : act.HasCb)
    (hstep : Armed.step s act = .next s') : s'.Inv := by
  obtain ⟨htimed, hcbs⟩ := Armed.inv_iff.1 h
  refine Armed.inv_iff.2 ⟨Armed.step_timed s act s' htimed hstep, ?_⟩
  exact step_cbs h.wf hcbs hact (Armed.step_eq_next hstep).1

/-! ### Whole runs -/

/-- The operation is the sequence of its writes, and each of these leaves every deadline in the set alone and the set sorted. -/
def Armed.WritesOutside (s : Armed Cb) (act : Action Cb) : Prop :=
  ∀ s', Armed.step s act = .next s' →
    run Write.step s.manager (s.manager.writes act) = .next s'.manager ∧
      Along Write.step Write.KeepsOrder s.manager (s.manager.writes act)

theorem Armed.init_inv (now : UInt64) : (Armed.init now : Armed Cb).Inv :=
  ⟨init_wf now, by simp [Armed.init, TimerManager.init], by simp [Armed.init, TimerManager.init]⟩

/-- In every run in which timers are added with callbacks, whatever the intervals and the clock readings, the set is coherent between operations and sorted at each of their writes. -/
theorem timers_coherent (now : UInt64) {acts : List (Action Cb)} (hacts : ∀ act ∈ acts, act.HasCb) :
    Throughout Armed.step Armed.Coherent (Armed.init now) acts ∧
      Along Armed.step Armed.WritesOutside (Armed.init now) acts := by
  have hall := throughout_of_along Armed.step_inv (Armed.init_inv now)
    (along_of_forall (fun act hact _ => hacts act hact) (Armed.init now))
  refine ⟨hall.1.mono fun s hs => hs.coherent, hall.2.mono fun s act hs s' hstep => ?_⟩
  have hnext := (Armed.step_eq_next hstep).1
  exact ⟨run_writes hnext, along_keepsOrder hs.1.wf.sorted (outside_writes hs.1.wf hnext)⟩

/-- A recurring timer armed at 10 for 15, moved to 18 by `reset(8, false)`, and re-armed by the expiry at 18. -/
theorem timers_coherent_rearmed :
    Throughout Armed.step Armed.Coherent (Armed.init 10 : Armed ℕ)
        [.addTimer 0 5 (some 7) true 10, .reset 0 8 false 12, .listExpiredCb 18 1, .cancel 0] ∧
      Along Armed.step Armed.WritesOutside (Armed.init 10)
        [.addTimer 0 5 (some 7) true 10, .reset 0 8 false 12, .listExpiredCb 18 1, .cancel 0] :=
  timers_coherent 10 (by decide)

end Awcotn.TimerManager
