import Awcotn.Foundation.Run
import Mathlib.Data.Int.Notation

/-!
# The start of a thread

The constructor of `Thread` creates a thread that runs `Thread::run` with the object, and waits at a semaphore until `run` has taken what it needs. From then on the object belongs to whoever has constructed it: it may be joined, and destroyed also while the thread is running.

`Semaphore::wait` returns as well where `sem_wait` fails, as it does when a signal handler interrupts it, and `Thread::SetName` goes through a pointer to the object that `run` has left in a thread-local variable. `handed_over_iff` says that these are the only two ways in which the thread comes to use an object that is not there any more, and that otherwise the constructor returns with the id of the thread in place and its function taken.
-/

namespace Awcotn.Thread

open Transition

/-- What has become of the object: not constructed, its constructor at the semaphore, in use, destroyed, or its constructor left by an exception. -/
inductive Owner
  | absent
  | waiting
  | owning
  | destroyed
  | failed
  deriving DecidableEq

/-- Where the thread is in `run`: before each statement that uses the object, before the call of the function, in it, and at the end. -/
inductive Runner
  | absent
  | begin
  | identify
  | name
  | label
  | take
  | notify
  | call
  | inside
  | ended
  deriving DecidableEq

/-- The members of a `Thread` with the semaphore's count; of `m_thread`, whether it is zero. -/
structure Object (C : Type*) where
  m_id : ℤ
  m_thread : Bool
  m_cb : Option C
  m_name : String
  m_semaphore : ℕ

/-- An object with its thread and what that has thread-local, the calls of the function, how often the thread was joined or detached, and whether the object has been used when it was not there. -/
structure State (C : Type*) where
  owner : Owner
  runner : Runner
  object : Object C
  t_thread : Bool
  t_thread_name : String
  cb : Option C
  calls : List C
  released : ℕ
  dangling : Bool

variable {C : Type*}

/-- The constructor's steps, the steps of the thread, calls of the owner, and calls of `Thread::SetName` by the function. -/
inductive Action (C : Type*)
  | create (ok : Bool)
  | wait
  | interrupt
  | join
  | destroy
  | run
  | setName (name : String)

/-- Nothing has been constructed. -/
def start : State C where
  owner := .absent
  runner := .absent
  object := { m_id := -1, m_thread := false, m_cb := none, m_name := "", m_semaphore := 0 }
  t_thread := false
  t_thread_name := "UNKOWN"
  cb := none
  calls := []
  released := 0
  dangling := false

/-- The object is there. -/
def State.alive (s : State C) : Bool := s.owner = .waiting || s.owner = .owning

/-- A statement of the thread that uses the object. -/
def State.use (s : State C) (f : State C → State C) : State C := if s.alive then f s else { s with dangling := true }

/-- The next statement of `Thread::run`. `tid` is what `GetThreadId` returns. -/
def advance (tid : ℤ) (s : State C) : Outcome Unit (State C) :=
  match s.runner with
  | .absent => .disabled
  | .begin => .next { s with runner := .identify, t_thread := true }
  | .identify => .next { s.use fun s => { s with object := { s.object with m_id := tid } } with runner := .name }
  | .name => .next { s.use fun s => { s with t_thread_name := s.object.m_name } with runner := .label }
  | .label => .next { s.use fun s => s with runner := .take }
  | .take => .next { s.use fun s => { s with cb := s.object.m_cb, object := { s.object with m_cb := s.cb } } with runner := .notify }
  | .notify =>
    .next { s.use fun s => { s with object := { s.object with m_semaphore := s.object.m_semaphore + 1 } } with runner := .call }
  | .call =>
    match s.cb with
    | some cb => .next { s with runner := .inside, calls := s.calls ++ [cb] }
    | none => .abort ()
  | .inside => .next { s with runner := .ended }
  | .ended => .disabled

/-- `Thread::Thread(cb, name)` and what may follow. A join waits for the end of the thread. -/
def step (cb : C) (name : String) (tid : ℤ) (s : State C) : Action C → Outcome Unit (State C)
  | .create ok =>
    if s.owner = .absent then
      if ok then
        .next { s with
          owner := .waiting
          runner := .begin
          object := { s.object with m_thread := true, m_cb := some cb, m_name := if name.isEmpty then "UNKNOW" else name } }
      else .next { s with owner := .failed }
    else .disabled
  | .wait =>
    if s.owner = .waiting ∧ 0 < s.object.m_semaphore then
      .next { s with owner := .owning, object := { s.object with m_semaphore := s.object.m_semaphore - 1 } }
    else .disabled
  | .interrupt => if s.owner = .waiting then .next { s with owner := .owning } else .disabled
  | .join =>
    if s.owner = .owning then
      if s.object.m_thread then
        if s.runner = .ended then .next { s with object := { s.object with m_thread := false }, released := s.released + 1 }
        else .disabled
      else .next s
    else .disabled
  | .destroy =>
    if s.owner = .owning then
      .next { s with owner := .destroyed, released := if s.object.m_thread then s.released + 1 else s.released }
    else .disabled
  | .run => advance tid s
  | .setName name =>
    if s.runner = .inside then
      .next { (if s.t_thread then s.use fun s => { s with object := { s.object with m_name := name } } else s) with
        t_thread_name := name }
    else .disabled

/-! ### What is to hold -/

/-- How many statements of `run` are behind the thread. -/
def Runner.rank : Runner → ℕ
  | .absent => 0
  | .begin => 1
  | .identify => 2
  | .name => 3
  | .label => 4
  | .take => 5
  | .notify => 6
  | .call => 7
  | .inside => 8
  | .ended => 9

/-- The thread has notified the semaphore. -/
def Runner.notified (r : Runner) : Prop := 7 ≤ r.rank

instance (r : Runner) : Decidable r.notified := inferInstanceAs (Decidable (7 ≤ r.rank))

/-- Whoever has constructed the object finds the id of the thread in it and the function taken, the thread does not use the object any more, the function is called at most once, and the thread is joined or detached once. -/
structure Handed (cb : C) (tid : ℤ) (s : State C) : Prop where
  order : s.owner = .owning ∨ s.owner = .destroyed → s.runner.notified ∧ s.object.m_id = tid ∧ s.object.m_cb = none
  calls : s.calls = if s.runner.rank < 8 then [] else [cb]
  released : s.released = if s.owner = .destroyed ∨ s.owner = .owning ∧ s.object.m_thread = false then 1 else 0
  joined : s.owner = .owning → s.object.m_thread = false → s.runner = .ended
  dangling : s.dangling = false

/-- A signal does not interrupt the wait before the thread has notified it, and the function does not set the name of its thread when the object has been destroyed. -/
def Allowed (s : State C) : Action C → Prop
  | .interrupt => s.owner = .waiting → s.runner.notified
  | .setName _ => s.runner = .inside → s.owner ≠ .destroyed
  | _ => True

/-! ### The invariant -/

/-- The object and the thread, whether or not the object has been used when it was not there. -/
structure Inv (cb : C) (tid : ℤ) (s : State C) : Prop where
  absent : s.runner = .absent ↔ s.owner = .absent ∨ s.owner = .failed
  id : s.dangling = false → 3 ≤ s.runner.rank → s.object.m_id = tid
  given : s.dangling = false → 1 ≤ s.runner.rank → s.runner.rank < 6 → s.object.m_cb = some cb
  taken : s.dangling = false → 6 ≤ s.runner.rank → s.object.m_cb = none
  own : s.cb = none ∨ s.cb = some cb
  other : s.object.m_cb = none ∨ s.object.m_cb = some cb
  swapped : s.runner.rank < 6 → s.cb = none
  semaphore : s.runner.rank < 7 → s.object.m_semaphore = 0
  calls : s.calls = if s.runner.rank < 8 then [] else [cb]
  waiting : s.owner = .waiting → s.object.m_thread = true
  released : s.released = if s.owner = .destroyed ∨ s.owner = .owning ∧ s.object.m_thread = false then 1 else 0
  joined : s.owner = .owning → s.object.m_thread = false → s.runner = .ended
  thread : 2 ≤ s.runner.rank → s.t_thread = true

variable {cb : C} {name : String} {tid : ℤ} {s t : State C}

theorem start_inv : Inv cb tid (start : State C) := by
  constructor <;> simp [start, Runner.rank]

theorem Runner.rank_eq_zero {r : Runner} : r.rank = 0 ↔ r = .absent := by
  cases r <;> simp [Runner.rank]

/-- What a statement of the thread does: to the object only if that is there, or else the record says that it was not. -/
structure Advanced (tid : ℤ) (s t : State C) : Prop where
  rank : 1 ≤ s.runner.rank ∧ t.runner.rank = s.runner.rank + 1
  owner : t.owner = s.owner
  m_thread : t.object.m_thread = s.object.m_thread
  released : t.released = s.released
  dangling : t.dangling = false → s.dangling = false
  id : t.dangling = false → t.object.m_id = if s.runner.rank = 2 then tid else s.object.m_id
  take : t.dangling = false → s.runner.rank = 5 → t.cb = s.object.m_cb ∧ t.object.m_cb = s.cb
  keep : s.runner.rank ≠ 5 → t.cb = s.cb ∧ t.object.m_cb = s.object.m_cb
  functions : t.cb = s.cb ∧ t.object.m_cb = s.object.m_cb ∨ t.cb = s.object.m_cb ∧ t.object.m_cb = s.cb
  semaphore : s.runner.rank < 6 → t.object.m_semaphore = s.object.m_semaphore
  calls : t.calls = if s.runner.rank = 7 then s.calls ++ s.cb.toList else s.calls
  called : s.runner.rank = 7 → s.cb ≠ none
  t_thread : t.t_thread = (s.runner.rank = 1 || s.t_thread)

theorem advanced (hstep : advance tid s = .next t) : Advanced tid s t := by
  simp only [advance] at hstep
  cases hr : s.runner with
  | absent | ended =>
      rw [hr] at hstep
      cases hstep
  | begin | inside =>
      rw [hr] at hstep
      cases hstep
      constructor <;> simp [hr, Runner.rank]
  | identify | name | label | take | notify =>
      rw [hr] at hstep
      cases hstep
      cases halive : s.alive with
      | true => constructor <;> simp [hr, halive, State.use, Runner.rank]
      | false => constructor <;> simp [hr, halive, State.use, Runner.rank]
  | call =>
      rw [hr] at hstep
      cases hcb : s.cb with
      | none => simp [hcb] at hstep
      | some cb =>
          simp only [hcb] at hstep
          cases hstep
          constructor <;> simp [hr, hcb, Runner.rank]

theorem Inv.advance (h : Inv cb tid s) (ha : Advanced tid s t) : Inv cb tid t := by
  obtain ⟨hpos, hrank⟩ := ha.rank
  have hthere : s.runner ≠ .absent := fun habsent => by
    rw [habsent] at hpos
    cases hpos
  refine ⟨?_, ?_, ?_, ?_, ?_, ?_, ?_, ?_, ?_, ?_, ?_, ?_, ?_⟩
  · have hthere' : t.runner ≠ .absent := fun habsent => by
      have hzero := Runner.rank_eq_zero.2 habsent
      omega
    rw [ha.owner, iff_false_left hthere', ← h.absent]
    exact hthere
  · intro hd hle
    rw [ha.id hd]
    split_ifs with htwo
    · rfl
    · exact h.id (ha.dangling hd) (by omega)
  · intro hd _ hlt
    rw [(ha.keep (by omega)).2]
    exact h.given (ha.dangling hd) hpos (by omega)
  · intro hd hle
    by_cases hfive : s.runner.rank = 5
    · rw [(ha.take hd hfive).2]
      exact h.swapped (by omega)
    · rw [(ha.keep hfive).2]
      exact h.taken (ha.dangling hd) (by omega)
  · rcases ha.functions with ⟨hcb, -⟩ | ⟨hcb, -⟩
    · rw [hcb]
      exact h.own
    · rw [hcb]
      exact h.other
  · rcases ha.functions with ⟨-, hcb⟩ | ⟨-, hcb⟩
    · rw [hcb]
      exact h.other
    · rw [hcb]
      exact h.own
  · intro hlt
    rw [(ha.keep (by omega)).1]
    exact h.swapped (by omega)
  · intro hlt
    rw [ha.semaphore (by omega)]
    exact h.semaphore (by omega)
  · rw [ha.calls, h.calls]
    by_cases hseven : s.runner.rank = 7
    · have hcb : s.cb = some cb := h.own.resolve_left (ha.called hseven)
      simp [hrank, hseven, hcb]
    · rw [if_neg hseven]
      by_cases hlt : s.runner.rank < 8
      · rw [if_pos hlt, if_pos (by omega)]
      · rw [if_neg hlt, if_neg (by omega)]
  · rw [ha.owner, ha.m_thread]
    exact h.waiting
  · rw [ha.released, ha.owner, ha.m_thread]
    exact h.released
  · rw [ha.owner, ha.m_thread]
    intro howner hjoined
    have hended : s.runner.rank = 9 := by rw [h.joined howner hjoined]; rfl
    have hle : t.runner.rank ≤ 9 := by cases t.runner <;> decide
    omega
  · intro hle
    rw [ha.t_thread]
    by_cases hone : s.runner.rank = 1
    · simp [hone]
    · simp [h.thread (by omega)]

theorem Inv.create (h : Inv cb tid s) (habsent : s.owner = .absent) (name : String) :
    Inv cb tid { s with
      owner := .waiting
      runner := .begin
      object := { s.object with m_thread := true, m_cb := some cb, m_name := name } } := by
  have hrank : s.runner.rank = 0 := Runner.rank_eq_zero.2 (h.absent.2 (.inl habsent))
  have hcalls : s.calls = [] := by rw [h.calls, if_pos (by omega)]
  have hreleased : s.released = 0 := by rw [h.released, if_neg (by simp [habsent])]
  exact ⟨by simp, by simp [Runner.rank], fun _ _ _ => rfl, by simp [Runner.rank], h.own, .inr rfl, fun _ => h.swapped (by omega),
    fun _ => h.semaphore (by omega), hcalls, fun _ => rfl, by simp [hreleased], by simp, by simp [Runner.rank]⟩

/-- The thread has notified: the semaphore is positive, or the interruption was late enough. -/
theorem Inv.own_of_waiting (h : Inv cb tid s) (howner : s.owner = .waiting) (count : ℕ) (hcount : s.runner.rank < 7 → count = 0) :
    Inv cb tid { s with owner := .owning, object := { s.object with m_semaphore := count } } := by
  have hthread := h.waiting howner
  have habsent : s.runner ≠ .absent := fun hr => by simpa [howner] using h.absent.1 hr
  have hreleased : s.released = 0 := by rw [h.released, if_neg (by simp [howner])]
  exact { h with
    absent := by simp [habsent]
    semaphore := hcount
    waiting := by simp
    released := by simp [hreleased, hthread]
    joined := by simp [hthread] }

theorem step_inv (h : Inv cb tid s) {a : Action C} (hstep : step cb name tid s a = .next t) : Inv cb tid t := by
  cases a with
  | run => exact h.advance (advanced hstep)
  | create ok =>
      simp only [step] at hstep
      by_cases habsent : s.owner = .absent
      · rw [if_pos habsent] at hstep
        cases ok with
        | true =>
            cases hstep
            exact h.create habsent _
        | false =>
            cases hstep
            have hr := h.absent.2 (.inl habsent)
            have hreleased : s.released = 0 := by rw [h.released, if_neg (by simp [habsent])]
            exact { h with absent := by simp [hr], waiting := by simp, released := by simp [hreleased], joined := by simp }
      · rw [if_neg habsent] at hstep
        cases hstep
  | wait =>
      simp only [step] at hstep
      split_ifs at hstep with hgo
      cases hstep
      refine h.own_of_waiting hgo.1 _ fun hlt => ?_
      rw [h.semaphore hlt]
  | interrupt =>
      simp only [step] at hstep
      split_ifs at hstep with hgo
      cases hstep
      exact h.own_of_waiting hgo _ h.semaphore
  | join =>
      simp only [step] at hstep
      split_ifs at hstep with howner hthread hended
      · cases hstep
        have hreleased : s.released = 0 := by rw [h.released, if_neg (by simp [howner, hthread])]
        exact { h with
          waiting := by simp [howner]
          released := by simp [hreleased, howner]
          joined := fun _ _ => hended }
      · cases hstep
        exact h
  | destroy =>
      simp only [step] at hstep
      by_cases howner : s.owner = .owning
      · rw [if_pos howner] at hstep
        cases hstep
        have habsent : s.runner ≠ .absent := fun hr => by simpa [howner] using h.absent.1 hr
        have hreleased := h.released
        exact { h with
          absent := by simp [habsent]
          waiting := by simp
          released := by cases hthread : s.object.m_thread <;> simp [hreleased, howner, hthread]
          joined := by simp }
      · rw [if_neg howner] at hstep
        cases hstep
  | setName n =>
      simp only [step] at hstep
      by_cases hinside : s.runner = .inside
      · have hset : s.t_thread = true := h.thread (by rw [hinside]; decide)
        rw [if_pos hinside, if_pos hset] at hstep
        cases hstep
        cases halive : s.alive with
        | true =>
            rw [State.use, if_pos halive]
            exact { h with }
        | false =>
            rw [State.use, if_neg (by simp [halive])]
            exact { h with id := by simp, given := by simp, taken := by simp }
      · rw [if_neg hinside] at hstep
        cases hstep

/-- A statement of `run` uses the object only before the thread has notified the semaphore. -/
theorem advance_uses (hstep : advance tid s = .next t) : t.owner = s.owner ∧ (s.runner.notified → t.runner.notified) ∧
    s.runner ≠ .absent ∧ (s.alive = true ∨ s.runner.notified → t.dangling = s.dangling) := by
  simp only [advance] at hstep
  cases hr : s.runner with
  | absent | ended =>
      rw [hr] at hstep
      cases hstep
  | begin | identify | name | label | take | notify | inside =>
      rw [hr] at hstep
      cases hstep
      cases halive : s.alive <;> simp [State.use, halive, Runner.notified, Runner.rank]
  | call =>
      rw [hr] at hstep
      cases hcb : s.cb with
      | none => simp [hcb] at hstep
      | some cb =>
          simp only [hcb] at hstep
          cases hstep
          simp [Runner.notified, Runner.rank]

theorem handed_of_iff (ht : Inv cb tid t) :
    Handed cb tid t ↔ (t.owner = .owning ∨ t.owner = .destroyed → t.runner.notified) ∧ t.dangling = false := by
  constructor
  · exact fun ht => ⟨fun howner => (ht.order howner).1, ht.dangling⟩
  · rintro ⟨horder, hdangling⟩
    refine ⟨fun howner => ?_, ht.calls, ht.released, ht.joined, hdangling⟩
    have hlate : 7 ≤ t.runner.rank := horder howner
    exact ⟨hlate, ht.id hdangling (by omega), ht.taken hdangling (by omega)⟩

/-- A step keeps what is to hold exactly if it is allowed. -/
theorem handed_iff (h : Inv cb tid s) (hs : Handed cb tid s) {a : Action C} (hstep : step cb name tid s a = .next t) :
    Handed cb tid t ↔ Allowed s a := by
  obtain ⟨horder, hdangling⟩ := (handed_of_iff h).1 hs
  rw [handed_of_iff (step_inv h hstep)]
  cases a with
  | run =>
      obtain ⟨howner, hnotified, hpresent, huses⟩ := advance_uses hstep
      have hthere : s.alive = true ∨ s.runner.notified := by
        cases ho : s.owner with
        | absent => exact absurd (h.absent.2 (.inl ho)) hpresent
        | failed => exact absurd (h.absent.2 (.inr ho)) hpresent
        | waiting => exact .inl (by simp [State.alive, ho])
        | owning => exact .inl (by simp [State.alive, ho])
        | destroyed => exact .inr (horder (.inr ho))
      refine iff_of_true ⟨fun hown => hnotified (horder ?_), (huses hthere).trans hdangling⟩ trivial
      rwa [howner] at hown
  | create ok =>
      simp only [step] at hstep
      split_ifs at hstep <;> cases hstep <;> exact iff_of_true ⟨by simp, hdangling⟩ trivial
  | wait =>
      simp only [step] at hstep
      split_ifs at hstep with hgo
      cases hstep
      refine iff_of_true ⟨fun _ => ?_, hdangling⟩ trivial
      by_contra hearly
      have hzero := h.semaphore (Nat.lt_of_not_le hearly)
      omega
  | interrupt =>
      simp only [step] at hstep
      split_ifs at hstep with hgo
      cases hstep
      simp [Allowed, hgo, hdangling]
  | join =>
      simp only [step] at hstep
      split_ifs at hstep with howner hthread hended <;> cases hstep <;> exact iff_of_true ⟨horder, hdangling⟩ trivial
  | destroy =>
      simp only [step] at hstep
      by_cases howner : s.owner = .owning
      · rw [if_pos howner] at hstep
        cases hstep
        exact iff_of_true ⟨fun _ => horder (.inl howner), hdangling⟩ trivial
      · rw [if_neg howner] at hstep
        cases hstep
  | setName n =>
      simp only [step] at hstep
      by_cases hinside : s.runner = .inside
      · have hset : s.t_thread = true := h.thread (by simp [hinside, Runner.rank])
        have hpresent : s.owner ≠ .absent ∧ s.owner ≠ .failed := by
          have habsent := h.absent
          simpa [hinside] using habsent
        simp only [if_pos hinside, hset, if_true] at hstep
        cases hstep
        cases ho : s.owner <;> simp_all [State.use, State.alive, Allowed, Runner.notified, Runner.rank]
      · rw [if_neg hinside] at hstep
        cases hstep

theorem handed_start : Handed cb tid (start : State C) := by
  constructor <;> simp [start, Runner.rank]

/-- What is not possible is allowed. -/
theorem stuck_allowed {a : Action C} (hstuck : ∀ t, step cb name tid s a ≠ .next t) : Allowed s a := by
  cases a with
  | interrupt =>
      intro howner
      simp only [step, if_pos howner] at hstuck
      exact absurd rfl (hstuck _)
  | setName n =>
      intro hinside
      simp only [step, if_pos hinside] at hstuck
      exact absurd rfl (hstuck _)
  | run | create ok | wait | join | destroy => trivial

/-- For every function and name, and in every interleaving of the constructor, the thread, the owner's calls and the function's: whoever has constructed the object finds it handed over, and the thread uses it no more, exactly as long as no signal interrupts the wait too early and the function does not set the name of its thread after the object was destroyed. -/
theorem handed_over_iff (cb : C) (name : String) (tid : ℤ) (acts : List (Action C)) :
    Throughout (step cb name tid) (Handed cb tid) start acts ↔ Along (step cb name tid) Allowed start acts :=
  throughout_iff_along (fun _ _ _ h hstep => step_inv h hstep) (fun _ _ _ h hs hstep => handed_iff h hs hstep)
    (fun _ _ _ hstuck => stuck_allowed hstuck) start_inv handed_start acts

end Awcotn.Thread
