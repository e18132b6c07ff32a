import Awcotn.Foundation.Run
import Awcotn.Foundation.OrderedSet
import Mathlib.Logic.Function.Basic

/-!
# The timer manager

`Timer` and `TimerManager` of `timer.cc`. The set `m_timers` holds pointers and its comparator reads `m_next` through them, so the model keeps the timer objects on a heap by address and the set as the list of addresses in comparator order. Deadlines and intervals are `uint64_t` and wrap as in the source. `GetCurrentMS()` is read wherever the source reads it, and the reading is an argument.

The functions return `none` where the source would have undefined behaviour: erasing the end iterator, or reading the front of an empty set.
-/

namespace Awcotn

/-- Where an object lives. `Comparator` breaks ties by it. -/
abbrev Addr := ℕ

/-- A `Timer` object. A cleared `m_cb` is `none`. -/
structure Timer (Cb : Type*) where
  recurring : Bool
  ms : UInt64
  next : UInt64
  cb : Option Cb
  deriving DecidableEq

structure TimerManager (Cb : Type*) where
  heap : Addr → Option (Timer Cb)
  timers : List Addr
  tickled : Bool
  previouseTime : UInt64

namespace TimerManager

/-- `Timer::Comparator` on what it reads of two non-null pointers: the deadlines and the addresses. -/
def Comparator (lhs rhs : UInt64 × Addr) : Bool :=
  if lhs.1 < rhs.1 then true
  else if lhs.1 = rhs.1 then lhs.2 < rhs.2
  else false

/-- The order of `m_timers`. -/
def Before (lhs rhs : UInt64 × Addr) : Prop := Comparator lhs rhs = true

instance : DecidableRel Before := fun _ _ => inferInstanceAs (Decidable (_ = true))

theorem before_iff {lhs rhs : UInt64 × Addr} :
    Before lhs rhs ↔ lhs.1 < rhs.1 ∨ lhs.1 = rhs.1 ∧ lhs.2 < rhs.2 := by
  unfold Before Comparator
  by_cases hlt : lhs.1 < rhs.1
  · simp [hlt]
  · by_cases heq : lhs.1 = rhs.1 <;> simp [hlt, heq]

instance : IsStrictTotalOrder (UInt64 × Addr) Before where
  irrefl a := by rw [before_iff]; grind
  trans a b c := by simp only [before_iff]; grind
  trichotomous a b := by
    obtain ⟨n, i⟩ := a
    obtain ⟨n', i'⟩ := b
    simp only [before_iff, Prod.mk.injEq]
    grind

variable {Cb : Type*} (m : TimerManager Cb)

/-- `m_next` of the timer at an address. -/
def next (a : Addr) : UInt64 :=
  match m.heap a with
  | some t => t.next
  | none => 0

/-- `m_cb` of the timer at an address. -/
def cb (a : Addr) : Option Cb := (m.heap a).bind Timer.cb

/-- What the comparator reads of the pointer `a`. -/
def key (a : Addr) : UInt64 × Addr := (m.next a, a)

/-- Write a timer object. -/
def store (a : Addr) (t : Timer Cb) : TimerManager Cb :=
  { m with heap := Function.update m.heap a (some t) }

/-- Destroy the timer object at an address. -/
def free (a : Addr) : TimerManager Cb :=
  { m with heap := Function.update m.heap a none }

/-- `TimerManager::TimerManager`. -/
def init (now : UInt64) : TimerManager Cb :=
  { heap := fun _ => none, timers := [], tickled := false, previouseTime := now }

/-- `TimerManager::addTimer(Timer::ptr, WriteLock&)`: insert, and report whether the caller goes on to call `onTimerInsertedAtFront` after it has released the lock. -/
def insertTimer (a : Addr) : Bool × TimerManager Cb :=
  let timers := OrderedSet.insert Before m.key a m.timers
  let atFront := timers.head? = some a ∧ m.tickled = false
  (decide atFront, { m with timers := timers, tickled := m.tickled || decide atFront })

/-- `TimerManager::addTimer(ms, cb, recurring)` with the new `Timer` at `a`. -/
def addTimer (a : Addr) (ms : UInt64) (cb : Option Cb) (recurring : Bool) (now : UInt64) :
    Bool × TimerManager Cb :=
  (m.store a { recurring := recurring, ms := ms, next := ms + now, cb := cb }).insertTimer a

/-- `Timer::cancel`. -/
def cancel (a : Addr) : Option (Bool × TimerManager Cb) :=
  match m.heap a with
  | none => none
  | some t =>
    if t.cb.isSome then
      let m := m.store a { t with cb := none }
      let it := OrderedSet.find Before m.key (m.key a) m.timers
      if it < m.timers.length then some (true, { m with timers := m.timers.eraseIdx it }) else none
    else some (false, m)

/-- `Timer::refresh`. The second flag of the result is that of `insertTimer`. -/
def refresh (a : Addr) (now : UInt64) : Option (Bool × Bool × TimerManager Cb) :=
  match m.heap a with
  | none => none
  | some t =>
    if t.cb.isNone then some (false, false, m)
    else
      let it := OrderedSet.find Before m.key (m.key a) m.timers
      if it = m.timers.length then some (false, false, m)
      else
        let m := { m with timers := m.timers.eraseIdx it }
        let m := m.store a { t with next := now + t.ms }
        some (true, m.insertTimer a)

/-- `Timer::reset`. -/
def reset (a : Addr) (ms : UInt64) (fromNow : Bool) (now : UInt64) :
    Option (Bool × Bool × TimerManager Cb) :=
  match m.heap a with
  | none => none
  | some t =>
    if ms = t.ms ∧ fromNow = false then some (false, false, m)
    else if t.cb.isNone then some (false, false, m)
    else
      let it := OrderedSet.find Before m.key (m.key a) m.timers
      if it = m.timers.length then some (false, false, m)
      else
        let m := { m with timers := m.timers.eraseIdx it }
        let start := if fromNow then now else t.next - t.ms
        let m := m.store a { t with ms := ms, next := start + ms }
        some (true, m.insertTimer a)

/-- `TimerManager::getNextTimer`. -/
def getNextTimer (now : UInt64) : UInt64 × TimerManager Cb :=
  let m := { m with tickled := false }
  match m.timers with
  | [] => (~~~0, m)
  | front :: _ => (if now ≥ m.next front then 0 else m.next front - now, m)

/-- `TimerManager::delectClockRollover`. -/
def delectClockRollover (now : UInt64) : Bool × TimerManager Cb :=
  let rollover := decide (now < m.previouseTime ∧ now < m.previouseTime - 60 * 60 * 1000)
  (rollover, { m with previouseTime := now })

/-- The loop over the expired timers at the end of `listExpiredCb`. -/
def collectExpired (now : UInt64) :
    List Addr → List (Option Cb) → TimerManager Cb → List (Option Cb) × TimerManager Cb
  | [], cbs, m => (cbs, m)
  | a :: expired, cbs, m =>
    match m.heap a with
    | none => collectExpired now expired cbs m
    | some t =>
      if t.recurring then
        let m := m.store a { t with next := now + t.ms }
        collectExpired now expired (cbs ++ [t.cb])
          { m with timers := OrderedSet.insert Before m.key a m.timers }
      else
        collectExpired now expired (cbs ++ [t.cb]) (m.store a { t with cb := none })

/-- Where `listExpiredCb` stops: after the timers before `now_timer`, which is allocated at `probe`, and after those due exactly now; after all of them on a rollover. -/
def expiredEnd (now : UInt64) (probe : Addr) (rollover : Bool) : ℕ :=
  let it := if rollover then m.timers.length
    else OrderedSet.lowerBound Before m.key (now, probe) m.timers
  it + (m.timers.drop it).findIdx fun a => !decide (m.next a = now)

/-- The end of `listExpiredCb`: take the expired timers out of the set and collect their callbacks. -/
def expireFront (now : UInt64) (probe : Addr) (rollover : Bool) : List (Option Cb) × TimerManager Cb :=
  let it := m.expiredEnd now probe rollover
  collectExpired now (m.timers.take it) [] { m with timers := m.timers.drop it }

/-- The write-locked section of `listExpiredCb`. -/
def expireLocked (now : UInt64) (probe : Addr) : Option (List (Option Cb) × TimerManager Cb) :=
  let (rollover, m) := m.delectClockRollover now
  if rollover then some (m.expireFront now probe true)
  else
    match m.timers with
    | [] => none
    | front :: _ => if m.next front < now then some ([], m) else some (m.expireFront now probe false)

/-- `TimerManager::listExpiredCb`: the read-locked emptiness check and the write-locked section. -/
def listExpiredCb (now : UInt64) (probe : Addr) : Option (List (Option Cb) × TimerManager Cb) :=
  if m.timers.isEmpty then some ([], m) else m.expireLocked now probe

/-! ### Runs

A new object gets any address at which no object lives. The last owner of a timer that is in no set may let go of it, and its address becomes free again.
-/

/-- What the threads that share the manager do, each atomic under its lock. -/
inductive Action (Cb : Type*)
  | addTimer (a : Addr) (ms : UInt64) (cb : Option Cb) (recurring : Bool) (now : UInt64)
  | cancel (a : Addr)
  | refresh (a : Addr) (now : UInt64)
  | reset (a : Addr) (ms : UInt64) (fromNow : Bool) (now : UInt64)
  | getNextTimer (now : UInt64)
  | listExpiredCb (now : UInt64) (probe : Addr)
  | release (a : Addr)

open Transition

/-- The next state, or an abort where a call has undefined behaviour. -/
def settle {β : Type*} (manager : β → TimerManager Cb) : Option β → Outcome Unit (TimerManager Cb)
  | some r => .next (manager r)
  | none => .abort ()

def step (m : TimerManager Cb) : Action Cb → Outcome Unit (TimerManager Cb)
  | .addTimer a ms cb recurring now =>
    if (m.heap a).isNone then .next (m.addTimer a ms cb recurring now).2 else .disabled
  | .cancel a => if (m.heap a).isSome then settle Prod.snd (m.cancel a) else .disabled
  | .refresh a now =>
    if (m.heap a).isSome then settle (fun r => r.2.2) (m.refresh a now) else .disabled
  | .reset a ms fromNow now =>
    if (m.heap a).isSome then settle (fun r => r.2.2) (m.reset a ms fromNow now) else .disabled
  | .getNextTimer now => .next (m.getNextTimer now).2
  | .listExpiredCb now probe =>
    if (m.heap probe).isNone then settle Prod.snd (m.listExpiredCb now probe) else .disabled
  | .release a => if a ∈ m.timers then .disabled else .next (m.free a)

/-- The states a manager constructed at some clock reading comes to. -/
def Reachable (m : TimerManager Cb) : Prop :=
  ∃ start as, run step (init start) as = .next m

end TimerManager

end Awcotn
