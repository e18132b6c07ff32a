import Awcotn.Timer.Armed
import Awcotn.Timer.Conserved

/-!
# Timers that expire early

A deadline is a 64-bit sum, and the test for a rollover takes an hour from the recorded reading without a look at whether it is that large. `never_early_iff` is what that leaves of the promise that no timer expires before its interval has passed since it was armed, unless the clock has gone back by more than an hour.
-/

namespace Awcotn.TimerManager

open Transition

variable {Cb : Type*} {m : TimerManager Cb}

/-- The reading is more than an hour before the recorded one. -/
def WentBack (m : TimerManager Cb) (now : UInt64) : Prop := now.toNat + 3600000 < m.previouseTime.toNat

instance (m : TimerManager Cb) (now : UInt64) : Decidable (m.WentBack now) := inferInstanceAs (Decidable (_ < _))

/-- The recorded reading is less than an hour, so an hour before it wraps, and the reading is before it. -/
def MistakesRollover (m : TimerManager Cb) (now : UInt64) : Prop :=
  now < m.previouseTime ∧ m.previouseTime.toNat < 3600000

instance (m : TimerManager Cb) (now : UInt64) : Decidable (m.MistakesRollover now) := inferInstanceAs (Decidable (_ ∧ _))

/-- The deadline of the timer at `a` is the sum: one that has wrapped is less than the interval. -/
def Unwrapped (m : TimerManager Cb) (a : Addr) : Prop := ∀ t, m.heap a = some t → t.ms ≤ t.next

/-- No callback that a call returns is of a timer whose interval has not passed since it was armed, unless the clock has gone back. -/
def Armed.NotEarly (s : Armed Cb) : Action Cb → Prop
  | .listExpiredCb now probe => ∀ r, s.manager.listExpiredCb now probe = some r → ∀ a ∈ s.manager.expired r.1,
    ∀ t, s.manager.heap a = some t → (s.armed a).toNat + t.ms.toNat ≤ now.toNat ∨ s.manager.WentBack now
  | _ => True

/-- If a call mistakes its reading for a rollover, all timers are due and no deadline has wrapped; if it does not, and no timer is overdue, the deadlines that are the reading have not wrapped. -/
def Armed.InOrder (s : Armed Cb) : Action Cb → Prop
  | .listExpiredCb now _ => s.manager.WentBack now ∨
    if s.manager.MistakesRollover now then ∀ a ∈ s.manager.timers, s.manager.Unwrapped a ∧ s.manager.next a ≤ now
    else (∀ a ∈ s.manager.timers, now ≤ s.manager.next a) →
      ∀ a ∈ s.manager.timers, s.manager.next a = now → s.manager.Unwrapped a
  | _ => True

/-! ### One call -/

theorem rollover_iff (m : TimerManager Cb) (now : UInt64) :
    (m.delectClockRollover now).1 = true ↔ m.WentBack now ∨ m.MistakesRollover now := by
  have hhour : (60 * 60 * 1000 : UInt64).toNat = 3600000 := rfl
  have hprevious := m.previouseTime.toNat_lt
  have hnow := now.toNat_lt
  simp only [delectClockRollover, WentBack, MistakesRollover, decide_eq_true_eq, UInt64.lt_iff_toNat_lt, UInt64.toNat_sub,
    hhour]
  omega

/-- The exact deadline of a timer that was armed at `armed`. -/
theorem armed_add_le_iff {armed ms next : UInt64} (harmed : next - ms = armed) (now : UInt64) :
    armed.toNat + ms.toNat ≤ now.toNat ↔ ms ≤ next ∧ next ≤ now := by
  subst harmed
  have hms := ms.toNat_lt
  have hnext := next.toNat_lt
  have hnow := now.toNat_lt
  rw [UInt64.le_iff_toNat_le, UInt64.le_iff_toNat_le, UInt64.toNat_sub]
  omega

theorem mem_expiring_of_rollover {now : UInt64} (hroll : (m.delectClockRollover now).1 = true) (a : Addr) :
    a ∈ m.expiring now ↔ a ∈ m.timers := by
  rw [expiring, if_pos hroll]

/-- Without a rollover, an overdue timer makes the call return early. -/
theorem mem_expiring_of_not_rollover (h : Wf m) {now : UInt64} (hroll : ¬ (m.delectClockRollover now).1 = true) (a : Addr) :
    a ∈ m.expiring now ↔ a ∈ m.timers ∧ (∀ b ∈ m.timers, now ≤ m.next b) ∧ m.next a = now := by
  have hoverdue : m.timers.head?.any (fun front => m.next front < now) = true ↔ ¬ ∀ b ∈ m.timers, now ≤ m.next b := by
    cases hfront : m.timers.head? with
    | none => simp [List.head?_eq_none_iff.1 hfront]
    | some front =>
        simp only [Option.any_some, decide_eq_true_eq]
        refine ⟨fun hlt hall => ?_, fun hsome => ?_⟩
        · exact absurd hlt (UInt64.not_lt.2 (hall front (List.mem_of_head? hfront)))
        · by_contra hge
          exact hsome fun b hb => UInt64.le_trans (UInt64.not_lt.1 hge) (next_front_le h hfront hb)
  rw [expiring, if_neg hroll]
  by_cases hall : ∀ b ∈ m.timers, now ≤ m.next b
  · rw [if_neg (fun hany => hoverdue.1 hany hall), List.mem_filter, decide_eq_true_eq]
    refine and_congr_right fun ha => ⟨fun hle => ⟨hall, UInt64.le_antisymm hle (hall a ha)⟩, fun hdue => ?_⟩
    exact UInt64.le_of_eq hdue.2
  · rw [if_pos (hoverdue.2 hall)]
    exact ⟨fun ha => absurd ha List.not_mem_nil, fun ha => absurd ha.2.1 hall⟩

/-- The expiring timers are those whose callbacks the call returns, and each is where it was armed to be. -/
theorem Armed.Timed.notEarly_iff {s : Armed Cb} (h : s.Timed) (now : UInt64) (probe : Addr) :
    s.NotEarly (.listExpiredCb now probe) ↔ s.manager.WentBack now ∨
      ∀ a ∈ s.manager.expiring now, s.manager.Unwrapped a ∧ s.manager.next a ≤ now := by
  obtain ⟨r, hr⟩ := s.manager.listExpiredCb_total now probe
  have htimer : ∀ a ∈ s.manager.expiring now, ∀ t, s.manager.heap a = some t →
      ((s.armed a).toNat + t.ms.toNat ≤ now.toNat ↔ s.manager.Unwrapped a ∧ s.manager.next a ≤ now) := by
    intro a ha t ht
    have hmem : a ∈ s.manager.timers := (expiring_isFront h.wf now).subset ha
    rw [armed_add_le_iff (h.armed a hmem t ht), Unwrapped, ht, next_eq ht]
    simp
  simp only [NotEarly, hr, Option.some.injEq, forall_eq', expired_eq_expiring h.wf hr]
  by_cases hback : s.manager.WentBack now
  · simp [hback]
  · simp only [hback, or_false, false_or]
    refine forall₂_congr fun a ha => ⟨fun hall => ?_, fun hdue t ht => (htimer a ha t ht).2 hdue⟩
    have hmem : a ∈ s.manager.timers := (expiring_isFront h.wf now).subset ha
    obtain ⟨t, ht⟩ := Option.isSome_iff_exists.1 (h.wf.stored a hmem)
    exact (htimer a ha t ht).1 (hall t ht)

theorem Armed.Timed.notEarly_iff_inOrder {s : Armed Cb} (h : s.Timed) (act : Action Cb) :
    s.NotEarly act ↔ s.InOrder act := by
  cases act with
  | listExpiredCb now probe =>
      rw [h.notEarly_iff, InOrder]
      by_cases hback : s.manager.WentBack now
      · simp only [hback, true_or]
      simp only [hback, false_or]
      by_cases hmistaken : s.manager.MistakesRollover now
      · have hroll := (s.manager.rollover_iff now).2 (.inr hmistaken)
        simp only [if_pos hmistaken, mem_expiring_of_rollover hroll]
      · have hroll := (s.manager.rollover_iff now).not.2 (not_or.2 ⟨hback, hmistaken⟩)
        simp only [if_neg hmistaken, mem_expiring_of_not_rollover h.wf hroll]
        constructor
        · exact fun hexp hall a ha hnext => (hexp a ⟨ha, hall, hnext⟩).1
        · rintro hordered a ⟨ha, hall, hnext⟩
          exact ⟨hordered hall a ha hnext, UInt64.le_of_eq hnext⟩
  | addTimer | cancel | refresh | reset | getNextTimer | release => exact Iff.rfl

/-! ### Whole runs -/

theorem Armed.init_timed (now : UInt64) : (Armed.init now : Armed Cb).Timed :=
  ⟨init_wf now, by simp [Armed.init, TimerManager.init]⟩

/-- In every run, whatever the intervals and the clock readings, no timer expires early exactly if every expiry call is in order. -/
theorem never_early_iff (start : UInt64) (acts : List (Action Cb)) :
    Along Armed.step Armed.NotEarly (Armed.init start) acts ↔ Along Armed.step Armed.InOrder (Armed.init start) acts :=
  along_congr Armed.step_timed (fun _ act h => h.notEarly_iff_inOrder act) (Armed.init_timed start) acts

/-- A reading of 99 after one of 100 is taken for a rollover, and a timer armed at 100 for a second expires. A timer armed for 50 milliseconds less than 2^64 expires when the clock has gone back by 50. -/
theorem small_reading_expires_all :
    ¬ Along Armed.step Armed.NotEarly (Armed.init 100 : Armed ℕ)
        [.addTimer 0 1000 (some 7) false 100, .listExpiredCb 99 1] ∧
      ¬ Along Armed.step Armed.NotEarly (Armed.init 10000000 : Armed ℕ)
        [.addTimer 0 18446744073709551566 (some 7) false 10000000, .listExpiredCb 9999950 1] := by
  refine ⟨fun h => ?_, fun h => ?_⟩
  · have hearly := h.2.1 _ rfl 0 (by decide) _ rfl
    exact absurd hearly (by decide)
  · have hearly := h.2.1 _ rfl 0 (by decide) _ rfl
    exact absurd hearly (by decide)

end Awcotn.TimerManager
