import Awcotn.Timer.Effects

/-!
# Notifying a waiter of an earlier deadline

A thread that waits for timers sleeps on what `getNextTimer` gave it, so an insertion at the front of the set must reach it through `onTimerInsertedAtFront`. The call comes after the lock is released, at most one of them for each reading: `m_tickled` suppresses the others, and an expiry call that puts a recurring timer back does not call at all.
-/

namespace Awcotn.TimerManager

open Transition

variable {Cb : Type*} {m m' : TimerManager Cb}

/-- Whether the caller of an operation goes on to `onTimerInsertedAtFront`. -/
def notifies (m : TimerManager Cb) : Action Cb → Bool
  | .addTimer a ms cb recurring now => (m.addTimer a ms cb recurring now).1
  | .refresh a now => (m.refresh a now).any (·.2.1)
  | .reset a ms fromNow now => (m.reset a ms fromNow now).any (·.2.1)
  | _ => false

/-- A manager with its callers. `deadline` is the earliest deadline at the last `getNextTimer`, none if the set was empty or there was no such call; `pending` has, for each caller that has set `m_tickled` and has not yet called `onTimerInsertedAtFront`, how many readings there had been when it set it. -/
structure Front (Cb : Type*) where
  manager : TimerManager Cb
  deadline : Option UInt64
  reads : ℕ
  pending : List ℕ
  called : Bool

namespace Front

/-- An operation up to the release of the lock, or the call of `onTimerInsertedAtFront` that one of the callers still owes. -/
inductive Action (Cb : Type*)
  | operate (act : TimerManager.Action Cb)
  | onTimerInsertedAtFront (caller : ℕ)

/-- The state after an operation that left the manager as `m`. -/
def operated (s : Front Cb) (act : TimerManager.Action Cb) (m : TimerManager Cb) : Front Cb :=
  match act with
  | .getNextTimer _ =>
    { manager := m, deadline := s.manager.timers.head?.map s.manager.next, reads := s.reads + 1,
      pending := s.pending, called := false }
  | act => { s with manager := m, pending := if s.manager.notifies act then s.reads :: s.pending else s.pending }

def step (s : Front Cb) : Action Cb → Outcome Unit (Front Cb)
  | .operate act =>
    match TimerManager.step s.manager act with
    | .next m => .next (s.operated act m)
    | .abort e => .abort e
    | .disabled => .disabled
  | .onTimerInsertedAtFront caller =>
    if caller < s.pending.length then .next { s with pending := s.pending.eraseIdx caller, called := true }
    else .disabled

def init (now : UInt64) : Front Cb :=
  { manager := TimerManager.init now, deadline := none, reads := 0, pending := [], called := false }

/-- An expiry call sees no rollover, and no deadline it sets wraps. -/
def Forward (s : Front Cb) : Action Cb → Prop
  | .operate (.listExpiredCb now _) => (s.manager.delectClockRollover now).1 = false ∧
    ∀ a ∈ s.manager.timers, (s.manager.heap a).all fun t => t.recurring && t.next ≤ now → now ≤ now + t.ms
  | _ => True

instance (s : Front Cb) (act : Action Cb) : Decidable (s.Forward act) := by
  unfold Forward
  split <;> infer_instance

end Front

/-- No timer in the set is due before a deadline; none is no deadline at all. -/
def NoneBefore (m : TimerManager Cb) : Option UInt64 → Prop
  | some deadline => ∀ a ∈ m.timers, deadline ≤ m.next a
  | none => m.timers = []

/-- Either no deadline is earlier than the one the last reading saw, or since that reading the waiter has been notified or a caller is about to notify it. -/
def Front.Notified (s : Front Cb) : Prop :=
  NoneBefore s.manager s.deadline ∨ s.called = true ∨ s.reads ∈ s.pending

/-! ### The earliest deadline -/

/-- A timer that does not go to the front leaves the earliest deadline where it was. -/
theorem Inserted.noneBefore {a : Addr} {t : Timer Cb} {r : Bool × TimerManager Cb} (hin : Inserted m a t r) (hwf : Wf r.2)
    (hquiet : m.tickled = false) (hflag : r.1 = false) {deadline : Option UInt64} (h : NoneBefore m deadline) :
    NoneBefore r.2 deadline := by
  have hhead : r.2.timers.head? ≠ some a := by
    have := hin.flag
    rw [hflag] at this
    simpa [hquiet] using this.symm
  obtain ⟨front, hfront⟩ : ∃ front, r.2.timers.head? = some front := by
    cases hr : r.2.timers with
    | nil => simpa [hr] using (hin.timers a).2 (.inl rfl)
    | cons front rest => exact ⟨front, rfl⟩
  have hne : front ≠ a := fun heq => hhead (heq ▸ hfront)
  have hmem : front ∈ m.timers := ((hin.timers front).1 (List.mem_of_head? hfront)).resolve_left hne
  have hnext : r.2.next front = m.next front := next_congr (by rw [hin.heap, Function.update_of_ne hne])
  cases deadline with
  | none =>
      rw [show m.timers = [] from h] at hmem
      cases hmem
  | some d =>
      intro b hb
      have hd : d ≤ r.2.next front := hnext.symm ▸ h front hmem
      exact UInt64.le_trans hd (next_front_le hwf hfront hb)

/-- Fewer timers with the same deadlines, or later ones. -/
theorem NoneBefore.mono (htimers : ∀ b ∈ m'.timers, b ∈ m.timers) (hnext : ∀ b ∈ m'.timers, m.next b ≤ m'.next b)
    {deadline : Option UInt64} (h : NoneBefore m deadline) : NoneBefore m' deadline := by
  cases deadline with
  | none =>
      refine List.eq_nil_iff_forall_not_mem.2 fun b hb => ?_
      have := htimers b hb
      rw [show m.timers = [] from h] at this
      cases this
  | some d => exact fun b hb => UInt64.le_trans (h b (htimers b hb)) (hnext b hb)

/-! ### The invariant -/

/-- While `m_tickled` is clear nothing is earlier than what the waiter saw; it is set only by a caller that notifies the waiter. -/
structure Front.Inv (s : Front Cb) : Prop where
  wf : Wf s.manager
  quiet : s.manager.tickled = false → NoneBefore s.manager s.deadline
  tickled : s.manager.tickled = true → s.called = true ∨ s.reads ∈ s.pending

theorem Front.Inv.notified {s : Front Cb} (h : s.Inv) : s.Notified := by
  cases htickled : s.manager.tickled with
  | false => exact .inl (h.quiet htickled)
  | true => exact .inr (h.tickled htickled)

/-- An operation that neither inserts through `addTimer` nor reads the front. -/
theorem Front.Inv.unnotified {s : Front Cb} (h : s.Inv) (hwf : Wf m') (htickled : m'.tickled = s.manager.tickled)
    (htimers : ∀ b ∈ m'.timers, b ∈ s.manager.timers) (hnext : ∀ b ∈ m'.timers, s.manager.next b ≤ m'.next b) :
    Inv { s with manager := m' } :=
  ⟨hwf, fun hquiet => (h.quiet (htickled.symm.trans hquiet)).mono htimers hnext,
    fun hset => h.tickled (htickled.symm.trans hset)⟩

/-- An insertion through `addTimer`: the caller owes a call exactly when it has set `m_tickled`. -/
theorem Front.Inv.inserted {s : Front Cb} (h : s.Inv) {a : Addr} {t : Timer Cb} {r : Bool × TimerManager Cb}
    (hwf : Wf r.2) (hin : Inserted s.manager a t r) :
    Inv { s with manager := r.2, pending := if r.1 then s.reads :: s.pending else s.pending } := by
  cases hflag : r.1 with
  | true => exact ⟨hwf, fun hquiet => by simp [hin.tickled, hflag] at hquiet, fun _ => .inr List.mem_cons_self⟩
  | false =>
      have htickled : r.2.tickled = s.manager.tickled := by simp [hin.tickled, hflag]
      refine ⟨hwf, fun hquiet => ?_, fun hset => h.tickled (htickled.symm.trans hset)⟩
      have hbefore := htickled.symm.trans hquiet
      exact hin.noneBefore hwf hbefore hflag (h.quiet hbefore)

theorem Front.init_inv (now : UInt64) : (Front.init now : Front Cb).Inv :=
  ⟨init_wf now, fun _ => rfl, by simp [Front.init, TimerManager.init]⟩

/-- What an operation of the manager leaves. -/
theorem Front.Inv.operated {s : Front Cb} (h : s.Inv) {act : TimerManager.Action Cb} (hforward : s.Forward (.operate act))
    (hnext : TimerManager.step s.manager act = .next m') : (s.operated act m').Inv := by
  cases step_performed hnext with
  | @addTimer a ms cb recurring now hnew =>
      exact h.inserted (addTimer_wf h.wf hnew ms cb recurring now) (addTimer_inserted h.wf hnew ms cb recurring now)
  | @cancel a r _ hr =>
      rcases cancel_effect h.wf hr with rfl | ⟨-, t, ha, -, hheap, htimers, htickled⟩
      · exact h
      · refine h.unnotified (cancel_wf h.wf hr) htickled (fun b hb => ((htimers b).1 hb).1) fun b hb => ?_
        have hba := ((htimers b).1 hb).2
        have hsame : r.2.heap b = s.manager.heap b := by rw [hheap, Function.update_of_ne hba]
        rw [next_congr hsame]
        exact UInt64.le_refl _
  | @refresh a now r hstored hr =>
      have hnotifies : s.manager.notifies (.refresh a now) = r.2.1 := by simp [notifies, hr]
      simp only [Front.operated, hnotifies]
      rcases refresh_effect h.wf hr with rfl | ⟨-, t, -, -, hin⟩
      · exact h
      · exact h.inserted (refresh_wf h.wf hr) hin
  | @reset a ms fromNow now r hstored hr =>
      have hnotifies : s.manager.notifies (.reset a ms fromNow now) = r.2.1 := by simp [notifies, hr]
      simp only [Front.operated, hnotifies]
      rcases reset_effect h.wf hr with rfl | ⟨-, t, -, -, hin⟩
      · exact h
      · exact h.inserted (reset_wf h.wf hr) hin
  | @getNextTimer now =>
      refine ⟨getNextTimer_wf h.wf now, fun _ => ?_, fun hset => by simp [Front.operated] at hset⟩
      have hkept : ∀ a, (s.manager.getNextTimer now).2.next a = s.manager.next a := fun a =>
        next_congr (by rw [getNextTimer_heap])
      show NoneBefore (s.manager.getNextTimer now).2 (s.manager.timers.head?.map s.manager.next)
      cases hfront : s.manager.timers.head? with
      | none => simpa [NoneBefore] using hfront
      | some front =>
          intro a ha
          rw [getNextTimer_timers] at ha
          rw [hkept]
          exact next_front_le h.wf hfront ha
  | @listExpiredCb now probe r _ hr =>
      obtain ⟨hclock, hwrap⟩ := hforward
      have heffect := listExpiredCb_effect h.wf hr
      refine h.unnotified (listExpiredCb_wf h.wf hr) heffect.tickled (fun b hb => ((heffect.timers b).1 hb).1)
        fun b hb => ?_
      obtain ⟨hmem, hrecurs⟩ := (heffect.timers b).1 hb
      by_cases hexp : b ∈ s.manager.expired r.1
      · -- a recurring timer goes back without a notification, but no earlier than it was due
        obtain ⟨t, ht⟩ := Option.isSome_iff_exists.1 (h.wf.stored b hmem)
        have hrec : t.recurring = true := by simpa [recurs, ht] using hrecurs hexp
        have hdue : t.next ≤ now := next_eq ht ▸ next_le_of_mem_expired h.wf hr hclock hexp
        have hlater : now ≤ now + t.ms := by simpa [ht, hrec, hdue] using hwrap b hmem
        have hset : r.2.next b = now + t.ms := by
          have htaken := heffect.taken b hexp
          rw [ht] at htaken
          simp [next_eq htaken, afterExpiry, hrec]
        rw [hset, next_eq ht]
        exact UInt64.le_trans hdue hlater
      · rw [next_congr (heffect.left b hexp)]
        exact UInt64.le_refl _
  | @release a hin =>
      refine h.unnotified (free_wf h.wf hin) rfl (fun b hb => hb) fun b hb => ?_
      have hba : b ≠ a := fun heq => hin (heq ▸ hb)
      rw [next_congr (free_heap_of_ne s.manager hba)]
      exact UInt64.le_refl _

theorem Front.step_inv (s : Front Cb) (act : Front.Action Cb) (s' : Front Cb) (h : s.Inv) (hforward : s.Forward act)
    (hstep : Front.step s act = .next s') : s'.Inv := by
  cases act with
  | operate act =>
      simp only [Front.step] at hstep
      split at hstep <;> cases hstep
      rename_i m' hnext
      exact h.operated hforward hnext
  | onTimerInsertedAtFront caller =>
      simp only [Front.step] at hstep
      split_ifs at hstep
      cases hstep
      exact ⟨h.wf, h.quiet, fun _ => .inl rfl⟩

/-- While the clock does not roll over and no deadline wraps, the waiter is always notified of a deadline earlier than the one it sleeps on, or about to be. -/
theorem front_notified (now : UInt64) {acts : List (Front.Action Cb)} (h : Along Front.step Front.Forward (Front.init now) acts) :
    Throughout Front.step Front.Notified (Front.init now) acts :=
  (throughout_of_along Front.step_inv (Front.init_inv now) h).1.mono fun _ hs => hs.notified

/-- The waiter read that nothing was due; a timer is added, and one that is due earlier while `m_tickled` is still set. -/
theorem front_notified_suppressed :
    Throughout Front.step Front.Notified (Front.init 10 : Front ℕ)
      [.operate (.getNextTimer 10), .operate (.addTimer 0 50 (some 7) true 10), .operate (.addTimer 1 5 (some 8) false 11),
        .onTimerInsertedAtFront 0, .operate (.getNextTimer 12), .operate (.listExpiredCb 16 2)] :=
  front_notified 10 (by decide)

end Awcotn.TimerManager
