import Awcotn.Timer.Front

/-!
# How long an idle worker waits

In each iteration `IOManager::idle` asks `stopping` whether to leave and then waits in `epoll_wait`, which it calls again with the same timeout when a signal interrupts it. The overload of `stopping` with an argument reads the distance to the next deadline into its own copy of the argument, so `idle` waits on the zero that it began with. `timeouts_punctual_iff` says when that is the right timeout.
-/

namespace Awcotn.Idle

open Transition TimerManager

variable {Cb : Type*} {m : TimerManager Cb}

/-! ### The functions -/

/-- `IOManager::stopping(uint64_t timeout)`. The reading overwrites the copy that the caller's argument was passed in. -/
def stopping (m : TimerManager Cb) (pendingEventCount : ℕ) (schedulerStopping : Bool) (_timeout now : UInt64) :
    Bool × TimerManager Cb :=
  let (timeout, m) := m.getNextTimer now
  (timeout = ~~~0 && pendingEventCount == 0 && schedulerStopping, m)

def MAX_TIMEOUT : Int32 := 1000

/-- The cast `(int)`. -/
def toInt (n : UInt64) : Int32 := n.toUInt32.toInt32

/-- The head of the wait loop: `~0ull` stands for no timer, and the comparison is of what is left in an `int`. -/
def clamp (next_timeout : UInt64) : UInt64 :=
  if next_timeout ≠ ~~~0 then
    if MAX_TIMEOUT < toInt next_timeout then MAX_TIMEOUT.toInt64.toUInt64 else next_timeout
  else MAX_TIMEOUT.toInt64.toUInt64

/-- The timeouts that the wait loop passes to `epoll_wait` when `interrupted` of its calls end in `EINTR`. -/
def waits (next_timeout : UInt64) : ℕ → List Int32
  | 0 => [toInt (clamp next_timeout)]
  | interrupted + 1 => toInt (clamp next_timeout) :: waits (clamp next_timeout) interrupted

/-- The timeouts of one iteration of `idle` that begins at `now`; none if it leaves the loop. -/
def timeouts (m : TimerManager Cb) (pendingEventCount : ℕ) (schedulerStopping : Bool) (now : UInt64) (interrupted : ℕ) :
    List Int32 :=
  let next_timeout := 0
  if (stopping m pendingEventCount schedulerStopping next_timeout now).1 then [] else waits next_timeout interrupted

/-! ### Runs -/

/-- An operation on the timer set by any thread, or an iteration of an idle worker up to the end of its wait. -/
inductive Action (Cb : Type*)
  | operate (act : TimerManager.Action Cb)
  | iterate (pendingEventCount : ℕ) (schedulerStopping : Bool) (now : UInt64) (interrupted : ℕ)

def step (m : TimerManager Cb) : Action Cb → Outcome Unit (TimerManager Cb)
  | .operate act => TimerManager.step m act
  | .iterate pendingEventCount schedulerStopping now _ => .next (stopping m pendingEventCount schedulerStopping 0 now).2

/-- A timer in the set is due. -/
def Due (m : TimerManager Cb) (now : UInt64) : Prop := ∃ a ∈ m.timers, m.next a ≤ now

instance (m : TimerManager Cb) (now : UInt64) : Decidable (Due m now) := inferInstanceAs (Decidable (∃ a ∈ m.timers, _))

/-- Each timeout is the distance to the next deadline at the start of the iteration, or a second if that is less; it is zero only if a timer is due. -/
def Punctual (m : TimerManager Cb) : Action Cb → Prop
  | .operate _ => True
  | .iterate pendingEventCount schedulerStopping now interrupted =>
    ∀ timeout ∈ timeouts m pendingEventCount schedulerStopping now interrupted,
      timeout.toInt = min 1000 ((m.getNextTimer now).1.toNat : ℤ) ∧ 0 ≤ timeout.toInt ∧ timeout.toInt ≤ 1000 ∧
        (timeout.toInt = 0 → Due m now)

/-- An iteration that does not leave the loop finds a timer due. -/
def FindsDue (m : TimerManager Cb) : Action Cb → Prop
  | .operate _ => True
  | .iterate pendingEventCount schedulerStopping now _ =>
    (stopping m pendingEventCount schedulerStopping 0 now).1 = false → Due m now

/-! ### The wait loop -/

theorem toInt_eq_bmod (n : UInt64) : (toInt n).toInt = (n.toNat : ℤ).bmod (2 ^ 32) := by
  have hcast : (toInt n).toInt = (n.toUInt32.toNat : ℤ).bmod (2 ^ 32) := BitVec.toInt_eq_toNat_bmod _
  rw [hcast, UInt64.toNat_toUInt32]
  exact_mod_cast Int.emod_bmod (x := n.toNat) (n := 2 ^ 32)

theorem toInt_of_lt {n : UInt64} (h : n.toNat < 2 ^ 31) : (toInt n).toInt = n.toNat := by
  rw [toInt_eq_bmod, Int.bmod_eq_of_le] <;> omega

/-- A distance below 2^31 is limited to a second. -/
theorem toNat_clamp {n : UInt64} (h : n.toNat < 2 ^ 31) : (clamp n).toNat = min 1000 n.toNat := by
  have hsome : n ≠ ~~~0 := by
    rintro rfl
    exact absurd h (by decide)
  have hmax : MAX_TIMEOUT.toInt64.toUInt64.toNat = 1000 := rfl
  have hlt : MAX_TIMEOUT < toInt n ↔ 1000 < n.toNat := by
    rw [Int32.lt_iff_toInt_lt, toInt_of_lt h]
    exact Int.ofNat_lt (n := 1000)
  rw [clamp, if_pos hsome]
  split_ifs with hlong
  · rw [hmax, min_eq_left (hlt.1 hlong).le]
  · rw [min_eq_right (not_lt.1 (hlt.not.1 hlong))]

theorem toInt_clamp {n : UInt64} (h : n.toNat < 2 ^ 31) : (toInt (clamp n)).toInt = min 1000 (n.toNat : ℤ) := by
  have hclamp := toNat_clamp h
  rw [toInt_of_lt (by omega), hclamp]
  omega

/-- However often it is interrupted, the loop passes the same limited distance. -/
theorem mem_waits {n : UInt64} (h : n.toNat < 2 ^ 31) (interrupted : ℕ) {timeout : Int32}
    (htimeout : timeout ∈ waits n interrupted) : timeout.toInt = min 1000 (n.toNat : ℤ) := by
  induction interrupted generalizing n with
  | zero => rw [List.mem_singleton.1 htimeout, toInt_clamp h]
  | succ interrupted ih =>
      rcases List.mem_cons.1 htimeout with rfl | hlater
      · exact toInt_clamp h
      · have hclamp := toNat_clamp h
        rw [ih (by omega) hlater, hclamp]
        omega

theorem waits_ne_nil (n : UInt64) (interrupted : ℕ) : waits n interrupted ≠ [] := by
  cases interrupted <;> exact List.cons_ne_nil _ _

/-! ### The next deadline -/

theorem getNextTimer_eq_zero_iff (h : Wf m) (now : UInt64) : (m.getNextTimer now).1 = 0 ↔ Due m now := by
  cases htimers : m.timers with
  | nil => simp [getNextTimer, Due, htimers]
  | cons front rest =>
      have hfront : m.timers.head? = some front := by rw [htimers]; rfl
      have hdue : Due m now ↔ m.next front ≤ now := by
        refine ⟨fun hdue => ?_, fun hle => ⟨front, List.mem_of_head? hfront, hle⟩⟩
        obtain ⟨a, ha, hle⟩ := hdue
        exact UInt64.le_trans (next_front_le h hfront ha) hle
      simp only [getNextTimer, htimers, hdue]
      split_ifs with hpast
      · exact iff_of_true rfl hpast
      · refine iff_of_false (fun heq => hpast ?_) hpast
        exact UInt64.le_of_eq (UInt64.sub_eq_iff_eq_add.1 heq |>.trans (UInt64.zero_add now))

/-! ### Whole runs -/

theorem step_wf (m : TimerManager Cb) (act : Action Cb) (m' : TimerManager Cb) (h : Wf m) (hstep : step m act = .next m') :
    Wf m' := by
  cases act with
  | operate act => exact TimerManager.step_wf m act m' h hstep
  | iterate pendingEventCount schedulerStopping now interrupted =>
      cases hstep
      exact getNextTimer_wf h now

theorem punctual_iff_findsDue (h : Wf m) (act : Action Cb) : Punctual m act ↔ FindsDue m act := by
  cases act with
  | operate act => exact Iff.rfl
  | iterate pendingEventCount schedulerStopping now interrupted =>
      simp only [Punctual, FindsDue, timeouts]
      cases hstops : (stopping m pendingEventCount schedulerStopping 0 now).1 with
      | true => simp
      | false =>
          simp only [Bool.false_eq_true, if_false, forall_const]
          have hzero : ∀ timeout ∈ waits 0 interrupted, timeout.toInt = 0 := fun timeout htimeout =>
            mem_waits (by decide) interrupted htimeout
          constructor
          · intro hall
            obtain ⟨timeout, htimeout⟩ := List.exists_mem_of_ne_nil _ (waits_ne_nil 0 interrupted)
            exact (hall timeout htimeout).2.2.2 (hzero timeout htimeout)
          · intro hdue timeout htimeout
            have hnext : (m.getNextTimer now).1 = 0 := (getNextTimer_eq_zero_iff h now).2 hdue
            rw [hzero timeout htimeout, hnext]
            exact ⟨rfl, le_rfl, by decide, fun _ => hdue⟩

/-- In every run of any threads on the timer set, the timeouts of the idle workers are the right ones exactly if each iteration that waits finds a timer due. -/
theorem timeouts_punctual_iff (start : UInt64) (acts : List (Action Cb)) :
    Along step Punctual (init start) acts ↔ Along step FindsDue (init start) acts :=
  along_congr step_wf (fun _ act h => punctual_iff_findsDue h act) (init_wf start) acts

/-- Without a timer a worker does not wait for a second, and with one due in 50 milliseconds it does not wait for them. -/
theorem empty_set_spins :
    ¬ Along step Punctual (init 10 : TimerManager ℕ) [.iterate 1 false 10 0] ∧
      ¬ Along step Punctual (init 10 : TimerManager ℕ)
        [.operate (.addTimer 0 50 (some 7) false 10), .iterate 0 false 10 2] := by
  refine ⟨fun h => ?_, fun h => ?_⟩
  · exact absurd (h.1 0 List.mem_cons_self).1 (by decide)
  · exact absurd (h.2.1 0 List.mem_cons_self).1 (by decide)

end Awcotn.Idle
