import Awcotn.EntryPoint.Limits
import Awcotn.Timer.Effects
import Mathlib.Algebra.Order.Floor.Div
import Mathlib.GroupTheory.GroupAction.Ring

/-!
# Sleeping fibers

A hooked sleep adds a timer that schedules the fiber again and yields. The interval is converted to milliseconds in the types of the argument, so that of `sleep` is a 32-bit product, and `usleep` and `nanosleep` divide and cut off the rest. The deadline is the 64-bit sum with the clock that the timer makes. `sleeps_in_full_iff` is when it is not before the time asked for.
-/

namespace Awcotn.EntryPoint

open Hook (FiberId)

/-! ### The calls -/

section

variable (m : TimerManager FiberId) (a : Addr) (fiber : FiberId) (now : UInt64)

/-- The three functions up to `YieldToHold`: a timer of `ms` milliseconds at `a` that schedules the fiber. -/
def hold (ms : UInt64) : TimerManager FiberId := (m.addTimer a ms (some fiber) false now).2

namespace Holding

def sleep (seconds : UInt32) := hold m a fiber now (seconds * 1000).toUInt64
def usleep (usec : UInt32) := hold m a fiber now (usec / 1000).toUInt64
def nanosleep (tv_sec tv_nsec : Int64) := hold m a fiber now (tv_sec * 1000 + tv_nsec / 1000000).toUInt64

end Holding

end

/-- A call of a sleeping function. -/
inductive SleepRequest
  | sleep (seconds : UInt32)
  | usleep (usec : UInt32)
  | nanosleep (tv_sec tv_nsec : Int64)

namespace SleepRequest

def call (m : TimerManager FiberId) (a : Addr) (fiber : FiberId) (now : UInt64) : SleepRequest → TimerManager FiberId
  | .sleep seconds => Holding.sleep m a fiber now seconds
  | .usleep usec => Holding.usleep m a fiber now usec
  | .nanosleep tv_sec tv_nsec => Holding.nanosleep m a fiber now tv_sec tv_nsec

/-- The time asked for, in nanoseconds. -/
def ns : SleepRequest → ℕ
  | .sleep seconds => seconds.toNat * 1000000000
  | .usleep usec => usec.toNat * 1000
  | .nanosleep tv_sec tv_nsec => tv_sec.toInt.toNat * 1000000000 + tv_nsec.toInt.toNat

/-- The raw function takes the argument, and its milliseconds fit in 63 bits. -/
def Accepted : SleepRequest → Prop
  | .nanosleep tv_sec tv_nsec => 0 ≤ tv_sec.toInt ∧ 0 ≤ tv_nsec.toInt ∧ tv_nsec.toInt < 1000000000 ∧
    tv_sec.toInt * 1000 + tv_nsec.toInt / 1000000 < 2 ^ 63
  | _ => True

instance (r : SleepRequest) : Decidable r.Accepted := by
  cases r <;> unfold Accepted <;> infer_instance

/-- The milliseconds of a `sleep` fit in 32 bits; the others are asked for whole milliseconds. -/
def Whole : SleepRequest → Prop
  | .sleep seconds => seconds.toNat * 1000 < 2 ^ 32
  | .usleep usec => 1000 ∣ usec.toNat
  | .nanosleep _ tv_nsec => 1000000 ∣ tv_nsec.toInt

instance (r : SleepRequest) : Decidable r.Whole := by
  cases r <;> unfold Whole <;> infer_instance

end SleepRequest

/-! ### The deadline -/

/-- The timer at `a` schedules the fiber, and not before `ns` nanoseconds from `now` on, rounded up to a millisecond. -/
def InFull (m : TimerManager FiberId) (a : Addr) (fiber : FiberId) (now : UInt64) (ns : ℕ) : Prop :=
  match m.heap a with
  | some t => t.cb = some fiber ∧ now.toNat + ns ⌈/⌉ 1000000 ≤ t.next.toNat
  | none => False

instance (m : TimerManager FiberId) (a : Addr) (fiber : FiberId) (now : UInt64) (ns : ℕ) :
    Decidable (InFull m a fiber now ns) := by
  unfold InFull
  split <;> infer_instance

variable {m : TimerManager FiberId} {a : Addr} {fiber : FiberId} {now : UInt64}

/-- While neither the clock nor the interval has its highest bit the deadline is the sum, and the interval decides. -/
theorem inFull_hold_iff (hnow : now.toNat < 2 ^ 63) {ms : UInt64} (hms : ms.toNat < 2 ^ 63) (ns : ℕ) :
    InFull (hold m a fiber now ms) a fiber now ns ↔ ns ≤ 1000000 * ms.toNat := by
  have hheap : (hold m a fiber now ms).heap a = some { recurring := false, ms := ms, next := ms + now, cb := some fiber } :=
    TimerManager.store_heap_self m a _
  have hsum : (ms + now).toNat = now.toNat + ms.toNat := by
    rw [UInt64.toNat_add]
    omega
  have hceil : ns ⌈/⌉ 1000000 ≤ ms.toNat ↔ ns ≤ 1000000 * ms.toNat := ceilDiv_le_iff_le_smul (by decide)
  simp only [InFull, hheap, true_and, hsum, Nat.add_le_add_iff_left, hceil]

theorem sleep_inFull_iff (hnow : now.toNat < 2 ^ 63) (seconds : UInt32) :
    InFull (Holding.sleep m a fiber now seconds) a fiber now (SleepRequest.sleep seconds).ns ↔
      seconds.toNat * 1000 < 2 ^ 32 := by
  have hms : (seconds * 1000).toUInt64.toNat = seconds.toNat * 1000 % 2 ^ 32 := by
    rw [UInt32.toNat_toUInt64, UInt32.toNat_mul]
    rfl
  rw [Holding.sleep, inFull_hold_iff hnow (by omega), hms, SleepRequest.ns]
  omega

theorem usleep_inFull_iff (hnow : now.toNat < 2 ^ 63) (usec : UInt32) :
    InFull (Holding.usleep m a fiber now usec) a fiber now (SleepRequest.usleep usec).ns ↔ 1000 ∣ usec.toNat := by
  have hms : (usec / 1000).toUInt64.toNat = usec.toNat / 1000 := by
    rw [UInt32.toNat_toUInt64, UInt32.toNat_div]
    rfl
  have hlt := usec.toNat_lt
  rw [Holding.usleep, inFull_hold_iff hnow (by omega), hms, SleepRequest.ns]
  omega

theorem nanosleep_inFull_iff (hnow : now.toNat < 2 ^ 63) {tv_sec tv_nsec : Int64}
    (haccepted : (SleepRequest.nanosleep tv_sec tv_nsec).Accepted) :
    InFull (Holding.nanosleep m a fiber now tv_sec tv_nsec) a fiber now (SleepRequest.nanosleep tv_sec tv_nsec).ns ↔
      1000000 ∣ tv_nsec.toInt := by
  obtain ⟨hsec, hnsec, -, hfits⟩ := haccepted
  have hms := toNat_millis tv_sec tv_nsec (d := 1000000) (by decide)
  have hquot : tv_nsec.toInt.tdiv (1000000 : Int64).toInt = tv_nsec.toInt / 1000000 := Int.tdiv_eq_ediv_of_nonneg hnsec
  rw [hquot] at hms
  rw [Holding.nanosleep, inFull_hold_iff hnow (by omega), SleepRequest.ns]
  omega

/-- A call that the raw function takes sleeps in full exactly if the product of a `sleep` does not wrap and there is no part of a millisecond in the others. -/
theorem sleeps_in_full_iff (m : TimerManager FiberId) (a : Addr) (fiber : FiberId) (now : UInt64) (hnow : now.toNat < 2 ^ 63)
    (r : SleepRequest) (hr : r.Accepted) : InFull (r.call m a fiber now) a fiber now r.ns ↔ r.Whole := by
  cases r with
  | sleep seconds => exact sleep_inFull_iff hnow seconds
  | usleep usec => exact usleep_inFull_iff hnow usec
  | nanosleep tv_sec tv_nsec => exact nanosleep_inFull_iff hnow hr

/-- One second and a half. -/
theorem sleeps_in_full_nanosleep :
    InFull ((SleepRequest.nanosleep 1 500000000).call (TimerManager.init 0) 3 7 100) 3 7 100 1500000000 :=
  (sleeps_in_full_iff (TimerManager.init 0) 3 7 100 (by decide) (.nanosleep 1 500000000) (by decide)).2 (by decide)

/-- 4294968 seconds come to 704 milliseconds; half a millisecond, and a nanosecond, to none. -/
theorem sleep_wraps :
    ¬ InFull ((SleepRequest.sleep 4294968).call (TimerManager.init 0) 3 7 100) 3 7 100 (SleepRequest.sleep 4294968).ns ∧
      ¬ InFull ((SleepRequest.usleep 500).call (TimerManager.init 0) 3 7 100) 3 7 100 (SleepRequest.usleep 500).ns ∧
      ¬ InFull ((SleepRequest.nanosleep 0 1).call (TimerManager.init 0) 3 7 100) 3 7 100
        (SleepRequest.nanosleep 0 1).ns := by
  decide

end Awcotn.EntryPoint
