import Awcotn.Hook.Blocking

/-!
# What `connect` reports

`connect_with_timeout` waits for the descriptor to become writable and then asks `SO_ERROR` how the connection fared. It asks in every case but that of a timeout: also where `addEvent` failed, and where the fiber was woken because someone cancelled its event. `SO_ERROR` is zero for a connection that has been made and for one that is still in progress, so a call that asks too early reports success. `connects_honestly_iff` says that there is no other way to do so.
-/

namespace Awcotn.Hook

open Transition

/-! ### The kernel's side of a connection -/

/-- What has become of the connection that a call asked for. -/
inductive Connection
  | unasked
  | inProgress
  | connected
  | failed (error : ℕ)
  deriving DecidableEq

/-- The value of `SO_ERROR`. -/
def Connection.soError : Connection → ℕ
  | .failed error => error
  | _ => 0

/-- A connection that has been asked for and can be read from `SO_ERROR`. -/
def Connection.Awaited : Connection → Prop
  | .unasked => False
  | .failed error => error ≠ 0
  | _ => True

/-- What a raw `connect` leaves, by its result. An interrupted one goes on in the kernel. -/
def RawResult.connection : RawResult → Connection
  | .done _ => .connected
  | .EINTR | .wouldBlock => .inProgress
  | .fail errno => .failed errno

/-- The call whose raw operation is next. -/
def Pc.rawCall : Pc → Option Call
  | .direct c | .raw c => some c
  | _ => none

/-- The process, with the connections that its calls have asked for. -/
structure Connecting where
  base : State
  connection : CallId → Connection

namespace Connecting

/-- A step of the process, or the kernel is done with a connection; an error of zero is success. -/
inductive Action
  | act (a : Hook.Action)
  | complete (id : CallId) (error : ℕ)

/-- The connections after a step of the process. -/
def attempt (s : State) (connection : CallId → Connection) : Hook.Action → CallId → Connection
  | .raw f r =>
    match (s.pc f).rawCall with
    | some c => if c.request.isDoIo then connection else Function.update connection c.id r.connection
    | none => connection
  | _ => connection

/-- What the kernel may answer: a raw `connect` that does not fail returns zero, and `getsockopt`, where it does not fail, reads the state of the connection. -/
def answers (s : Connecting) : Hook.Action → Bool
  | .raw f (.done n) => (s.base.pc f).rawCall.all fun c => c.request.isDoIo || n == 0
  | .soError f (some error) =>
    match s.base.pc f with
    | .soError c => error == (s.connection c.id).soError
    | _ => true
  | _ => true

def step (s : Connecting) : Action → Outcome Crash Connecting
  | .act a =>
    if s.answers a then
      (Hook.step s.base a).map fun t => { base := t, connection := attempt s.base s.connection a }
    else .disabled
  | .complete id error =>
    if s.connection id = .inProgress then
      .next { s with connection :=
        Function.update s.connection id (if error = 0 then .connected else .failed error) }
    else .disabled

def start (now : UInt64) : Connecting := { base := Hook.start now, connection := fun _ => .unasked }

/-! ### The property and the condition -/

/-- The `int` that `connect` returns. -/
def value : Return → ℤ
  | .raw (.done n) => n
  | .soError (some 0) => 0
  | _ => -1

/-- The `errno` of a failed call says what has happened to it. -/
def Describes (s : Connecting) (c : Call) : Return → Prop
  | .raw (.fail errno) => s.connection c.id = .failed errno
  | .raw .EINTR | .raw .wouldBlock => s.connection c.id ≠ .unasked
  | .EBADF => s.connection c.id = .unasked
  | .ETIMEDOUT => s.base.cancelled c.id = true
  | .soError (some error) => s.connection c.id = .failed error
  | .soError none => True
  | _ => False

/-- A call that has returned 0 is connected, and any other has returned -1 with an `errno` that says why. -/
def Honest (s : Connecting) : Prop :=
  ∀ c r, (c, r) ∈ s.base.log → c.request.isDoIo = false →
    if value r = 0 then s.connection c.id = .connected else value r = -1 ∧ s.Describes c r

/-- No call reads a zero from `SO_ERROR` while the kernel is still connecting it. -/
def AsksInTime (s : Connecting) : Action → Prop
  | .act (.soError f (some 0)) => ∀ c, s.base.pc f = .soError c → s.connection c.id ≠ .inProgress
  | _ => True

/-! ### Where a call stands with its connection -/

/-- A `connect` has asked for its connection once its raw operation is behind it. -/
def Placed (connection : Connection) : Pc → Prop
  | .entered _ | .direct _ => connection = .unasked
  | .raw c => c.request.isDoIo = false → connection = .unasked
  | .arming c | .adding c _ | .failed c _ | .yielding c _ | .suspended c _ | .woken c _ | .checking c =>
    c.request.isDoIo = false → connection.Awaited
  | .soError c => c.request.isDoIo = false ∧ connection.Awaited
  | _ => True

/-- A call is over: it has been made, and no fiber is in it. -/
def Over (s : State) (id : CallId) : Prop := id < s.nextCall ∧ ∀ f c, (s.pc f).call = some c → c.id ≠ id

structure Inv (s : Connecting) : Prop where
  calls : CallsInv s.base
  fresh : ∀ id, s.base.nextCall ≤ id → s.connection id = .unasked
  placed : ∀ f c, (s.base.pc f).call = some c → Placed (s.connection c.id) (s.base.pc f)
  logged : ∀ c r, (c, r) ∈ s.base.log → Over s.base c.id

variable {s t : State} {f : FiberId} {c : Call} {a : Hook.Action} {connection : CallId → Connection}

/-- What a step does to the connection of a call. -/
theorem attempt_cases (s : State) (connection : CallId → Connection) (a : Hook.Action) (id : CallId) :
    attempt s connection a id = connection id ∨ ∃ f r c, a = .raw f r ∧ (s.pc f).rawCall = some c ∧
      c.request.isDoIo = false ∧ c.id = id ∧ attempt s connection a id = r.connection := by
  cases a with
  | raw f r =>
      cases hraw : (s.pc f).rawCall with
      | none => exact .inl (by simp [attempt, hraw])
      | some c =>
          cases hdoIo : c.request.isDoIo with
          | true => exact .inl (by simp [attempt, hraw, hdoIo])
          | false =>
              by_cases hid : c.id = id
              · subst hid
                exact .inr ⟨f, r, c, rfl, hraw, hdoIo, rfl, by simp [attempt, hraw, hdoIo]⟩
              · exact .inl (by simp [attempt, hraw, hdoIo, Function.update_of_ne (Ne.symm hid)])
  | _ => exact .inl rfl

theorem call_of_rawCall {pc : Pc} (h : pc.rawCall = some c) : pc.call = some c := by
  cases pc <;> cases h <;> rfl

/-- What a call returns, by the step in which it returns. -/
inductive Answer (s : State) (f : FiberId) : Hook.Action → Call → Return → Prop
  | refused {c : Call} : s.pc f = .entered c → Answer s f (.lookup f) c .EBADF
  | raw {c : Call} {r : RawResult} : (s.pc f).rawCall = some c → Answer s f (.raw f r) c (.raw r)
  | gaveUp {c : Call} {timer : Option Addr} : s.pc f = .failed c timer → c.request.isDoIo = true →
      Answer s f (.cancelTimer f) c .addEventFailed
  | timedOut {c : Call} : s.pc f = .checking c → s.cancelled c.id = true → Answer s f (.check f) c .ETIMEDOUT
  | answered {c : Call} {error : Option ℕ} : s.pc f = .soError c → Answer s f (.soError f error) c (.soError error)

/-- A step returns from one call at most, and its fiber is in no call afterwards. -/
theorem log_cases (h : Hook.step s a = .next t) : t.log = s.log ∨
    ∃ f c r, a.fiber = some f ∧ (s.pc f).call = some c ∧ t.pc f = .idle ∧ t.log = s.log ++ [(c, r)] ∧
      Answer s f a c r := by
  cases step_move h with
  | @lookup f c hpc =>
      have hcall : (s.pc f).call = some c := by rw [hpc]; rfl
      simp only [lookupStep]
      split
      · split
        · exact .inl rfl
        split_ifs
        · exact .inr ⟨f, c, .EBADF, rfl, hcall, State.finish_pc .., rfl, .refused hpc⟩
        · exact .inl rfl
        · exact .inl rfl
      · split
        · exact .inr ⟨f, c, .EBADF, rfl, hcall, State.finish_pc .., rfl, .refused hpc⟩
        split_ifs
        · exact .inr ⟨f, c, .EBADF, rfl, hcall, State.finish_pc .., rfl, .refused hpc⟩
        · exact .inl rfl
        · exact .inl rfl
  | @direct f c r hpc =>
      exact .inr ⟨f, c, .raw r, rfl, by rw [hpc]; rfl, State.finish_pc .., rfl, .raw (by rw [hpc]; rfl)⟩
  | @rawDone f c r hpc =>
      exact .inr ⟨f, c, .raw r, rfl, by rw [hpc]; rfl, State.finish_pc .., rfl, .raw (by rw [hpc]; rfl)⟩
  | @gaveUp f c timer u hpc hdoIo hu =>
      have hlog : u.log = s.log := by cases hu <;> rfl
      exact .inr ⟨f, c, .addEventFailed, rfl, by rw [hpc]; rfl, State.finish_pc .., by rw [← hlog]; rfl,
        .gaveUp hpc hdoIo⟩
  | @timedOut f c hpc hcancelled =>
      exact .inr ⟨f, c, .ETIMEDOUT, rfl, by rw [hpc]; rfl, State.finish_pc .., rfl, .timedOut hpc hcancelled⟩
  | @answered f c error hpc =>
      exact .inr ⟨f, c, .soError error, rfl, by rw [hpc]; rfl, State.finish_pc .., rfl, .answered hpc⟩
  | failedConnect _ _ hu | disarmed _ hu => exact .inl (by cases hu <;> rfl)
  | _ => exact .inl rfl

/-- A move leaves its call placed. -/
theorem placed_move (h : Hook.step s a = .next t) (ha : a.fiber = some f)
    (hold : ∀ c, (s.pc f).call = some c → Placed (connection c.id) (s.pc f))
    (hfresh : connection s.nextCall = .unasked) (hc : (t.pc f).call = some c) :
    Placed (attempt s connection a c.id) (t.pc f) := by
  have hidle : t.pc f ≠ .idle := by
    intro hidle
    rw [hidle] at hc
    cases hc
  cases step_move h with
  | begin hpc =>
      cases ha
      rw [State.goto_pc] at hc ⊢
      cases hc
      exact hfresh
  | @lookup _ d hpc =>
      cases ha
      have hunasked : connection d.id = .unasked := by
        have hplaced := hold d (by rw [hpc]; rfl)
        rwa [hpc] at hplaced
      obtain ⟨before, after, hmove⟩ := step_fiber h rfl
      have hafter : (lookupStep s f d).pc f = after := by rw [hmove.pc, Function.update_self]
      obtain rfl : before = .entered d := hmove.old.symm.trans hpc
      have hnext := hmove.next
      rw [hafter] at hc ⊢
      cases hnext with
      | untracked =>
          cases hc
          exact hunasked
      | tracked =>
          cases hc
          exact fun _ => hunasked
      | refused => cases hc
  | blocked hpc =>
      cases ha
      rw [State.goto_pc] at hc ⊢
      cases hc
      intro hdoIo
      simp [attempt, hpc, Pc.rawCall, hdoIo, RawResult.connection, Connection.Awaited]
  | @interrupted _ d hpc hdoIo =>
      cases ha
      rw [hpc] at hc ⊢
      cases hc
      intro hfalse
      exact absurd hdoIo (by simp [hfalse])
  | unarmed hpc | armed hpc | added hpc | addFailed hpc | yielded hpc | resumed hpc | disarmed hpc =>
      cases ha
      rw [State.goto_pc] at hc ⊢
      cases hc
      have hplaced := hold c (by rw [hpc]; rfl)
      rwa [hpc] at hplaced
  | failedConnect hpc hdoIo | asked hpc _ hdoIo =>
      cases ha
      rw [State.goto_pc] at hc ⊢
      cases hc
      have hplaced := hold c (by rw [hpc]; rfl)
      rw [hpc] at hplaced
      exact ⟨hdoIo, hplaced hdoIo⟩
  | again hpc _ hdoIo =>
      cases ha
      rw [State.goto_pc] at hc ⊢
      cases hc
      intro hfalse
      exact absurd hdoIo (by simp [hfalse])
  | direct | rawDone | gaveUp | timedOut | answered =>
      cases ha
      exact absurd (State.finish_pc ..) hidle
  | close | found | notFound | cancelledNone | cancelledAll | deleted | closed =>
      cases ha
      rw [State.goto_pc] at hc
      cases hc
  | _ => cases ha

theorem start_inv (now : UInt64) : Inv (start now) :=
  ⟨(timeoutInv_start now).calls, fun _ _ => rfl, by simp [start, Hook.start, Pc.call], by simp [start, Hook.start]⟩

theorem over_step (h : Hook.step s a = .next t) {id : CallId} (hover : Over s id) : Over t id := by
  refine ⟨hover.1.trans_le (step_nextCall_le h), fun f c hc => ?_⟩
  rcases step_call h hc with hnew | ⟨d, hd, htimeout⟩
  · exact hnew ▸ hover.1.ne'
  · have hid : d.id = c.id := congrArg Timeout.winfo htimeout
    exact hid ▸ hover.2 f d hd

/-- A call that returns is over. -/
theorem over_of_idle (hs : CallsInv s) (h : Hook.step s a = .next t) (hc : (s.pc f).call = some c)
    (hidle : t.pc f = .idle) : Over t c.id := by
  have hbelow := hs.below f c hc
  refine ⟨hbelow.trans_le (step_nextCall_le h), fun g d hd hid => ?_⟩
  rcases step_call h hd with hnew | ⟨d', hd', htimeout⟩
  · exact hbelow.ne (hid.symm.trans hnew)
  · have hid' : d'.id = d.id := congrArg Timeout.winfo htimeout
    obtain rfl : g = f := hs.eq_of_id hd' hc (hid'.trans hid)
    rw [hidle] at hd
    cases hd

/-- The kernel is done with a connection that its call may still be waiting for. -/
theorem Placed.complete {pc : Pc} (h : Placed .inProgress pc) {connection : Connection} (hasked : connection.Awaited) :
    Placed connection pc := by
  cases pc with
  | entered | direct => cases h
  | raw c => exact fun hdoIo => absurd (h hdoIo) nofun
  | soError c => exact ⟨h.1, hasked⟩
  | arming | adding | failed | yielding | suspended | woken | checking => exact fun _ => hasked
  | _ => trivial

/-- Only the raw operation of a call changes its connection. -/
theorem attempt_of_ne {s : Connecting} (hs : s.Inv) (hne : a.fiber ≠ some f) (hc : (s.base.pc f).call = some c) :
    attempt s.base s.connection a c.id = s.connection c.id := by
  rcases attempt_cases s.base s.connection a c.id with heq | ⟨g, r, d, rfl, hraw, -, hid, -⟩
  · exact heq
  · obtain rfl : g = f := hs.calls.eq_of_id (call_of_rawCall hraw) hc hid
    exact absurd rfl hne

theorem step_act_eq_next {s s' : Connecting} (h : step s (.act a) = .next s') : s.answers a = true ∧
    Hook.step s.base a = .next s'.base ∧ s'.connection = attempt s.base s.connection a := by
  simp only [step] at h
  split_ifs at h with hanswers
  obtain ⟨t, ht, rfl⟩ := Outcome.map_eq_next.1 h
  exact ⟨hanswers, ht, rfl⟩

theorem step_complete_eq_next {s s' : Connecting} {id : CallId} {error : ℕ} (h : step s (.complete id error) = .next s') :
    s.connection id = .inProgress ∧ s'.base = s.base ∧
      s'.connection = Function.update s.connection id (if error = 0 then .connected else .failed error) := by
  by_cases hprogress : s.connection id = .inProgress
  · simp only [step, if_pos hprogress] at h
    cases h
    exact ⟨hprogress, rfl, rfl⟩
  · simp only [step, if_neg hprogress] at h
    cases h

theorem awaited_of_complete (error : ℕ) : (if error = 0 then Connection.connected else .failed error).Awaited := by
  split_ifs with hzero
  · trivial
  · exact hzero

theorem step_inv {s s' : Connecting} (hs : s.Inv) {act : Action} (h : step s act = .next s') : s'.Inv := by
  cases act with
  | complete id error =>
      obtain ⟨hprogress, hbase, hconnection⟩ := step_complete_eq_next h
      refine ⟨hbase ▸ hs.calls, fun id' hid => ?_, fun f c hc => ?_, hbase ▸ hs.logged⟩
      · rw [hbase] at hid
        have hne : id' ≠ id := by
          rintro rfl
          exact absurd ((hs.fresh id' hid).symm.trans hprogress) nofun
        rw [hconnection, Function.update_of_ne hne, hs.fresh id' hid]
      · rw [hbase] at hc ⊢
        rw [hconnection]
        by_cases hid : c.id = id
        · subst hid
          have hplaced := hs.placed f c hc
          rw [hprogress] at hplaced
          rw [Function.update_self]
          exact hplaced.complete (awaited_of_complete error)
        · rw [Function.update_of_ne hid]
          exact hs.placed f c hc
  | act a =>
      obtain ⟨-, ht, hconnection⟩ := step_act_eq_next h
      refine ⟨step_callsInv hs.calls ht, fun id hid => ?_, fun f c hc => ?_, fun c r hmem => ?_⟩
      · rw [hconnection]
        rcases attempt_cases s.base s.connection a id with heq | ⟨f, r, c, -, hraw, -, rfl, -⟩
        · exact heq.trans (hs.fresh id ((step_nextCall_le ht).trans hid))
        · have hbelow := hs.calls.below f c (call_of_rawCall hraw)
          exact absurd (hbelow.trans_le (step_nextCall_le ht)) (Nat.not_lt.2 hid)
      · rw [hconnection]
        by_cases hfiber : a.fiber = some f
        · exact placed_move ht hfiber (hs.placed f) (hs.fresh _ (Nat.le_refl _)) hc
        · rw [step_pc_of_ne ht hfiber] at hc ⊢
          rw [attempt_of_ne hs hfiber hc]
          exact hs.placed f c hc
      · rcases log_cases ht with hlog | ⟨f, d, r', -, hcall, hidle, hlog, -⟩
        · exact over_step ht (hs.logged c r (hlog ▸ hmem))
        · rw [hlog, List.mem_append, List.mem_singleton] at hmem
          rcases hmem with hmem | hmem
          · exact over_step ht (hs.logged c r hmem)
          · cases hmem
            exact over_of_idle hs.calls ht hcall hidle

/-! ### Honest answers -/

/-- What one entry of the log owes its caller. -/
def HonestAbout (s : Connecting) (c : Call) (r : Return) : Prop :=
  if value r = 0 then s.connection c.id = .connected else value r = -1 ∧ s.Describes c r

/-- A connection that has been made or has failed stays as it is, and so does what has been said of it. -/
theorem HonestAbout.mono {s s' : Connecting} {r : Return} (h : s.HonestAbout c r)
    (hsame : s.connection c.id = .inProgress ∧ s'.connection c.id ≠ .unasked ∨ s'.connection c.id = s.connection c.id)
    (hcancelled : s.base.cancelled c.id = true → s'.base.cancelled c.id = true) : s'.HonestAbout c r := by
  have hkept : s.connection c.id ≠ .inProgress → s'.connection c.id = s.connection c.id := fun hne =>
    hsame.resolve_left fun hprogress => hne hprogress.1
  have hasked : s.connection c.id ≠ .unasked → s'.connection c.id ≠ .unasked := by
    rcases hsame with ⟨-, hasked⟩ | heq
    · exact fun _ => hasked
    · rw [heq]
      exact id
  cases r with
  | raw r =>
      cases r with
      | done n =>
          by_cases hn : n = 0
          · subst hn
            have hconnected : s.connection c.id = .connected := h
            exact (hkept (by simp [hconnected])).trans hconnected
          · simp only [HonestAbout, value, Nat.cast_eq_zero, if_neg hn] at h
            omega
      | EINTR | wouldBlock => exact ⟨rfl, hasked h.2⟩
      | fail errno =>
          have hfailed : s.connection c.id = .failed errno := h.2
          exact ⟨rfl, (hkept (by simp [hfailed])).trans hfailed⟩
  | EBADF =>
      have hunasked : s.connection c.id = .unasked := h.2
      exact ⟨rfl, (hkept (by simp [hunasked])).trans hunasked⟩
  | ETIMEDOUT => exact ⟨rfl, hcancelled h.2⟩
  | addEventFailed => exact h.2.elim
  | soError error =>
      cases error with
      | none => exact ⟨rfl, trivial⟩
      | some error =>
          cases error with
          | zero =>
              have hconnected : s.connection c.id = .connected := h
              exact (hkept (by simp [hconnected])).trans hconnected
          | succ error =>
              have hfailed : s.connection c.id = .failed (error + 1) := h.2
              exact ⟨rfl, (hkept (by simp [hfailed])).trans hfailed⟩

/-- A step leaves the connection of a call that is over alone, or completes it. -/
theorem connection_of_over {s s' : Connecting} {act : Action} (h : step s act = .next s') {id : CallId}
    (hover : Over s.base id) :
    s.connection id = .inProgress ∧ s'.connection id ≠ .unasked ∨ s'.connection id = s.connection id := by
  cases act with
  | complete id' error =>
      obtain ⟨hprogress, -, hconnection⟩ := step_complete_eq_next h
      rw [hconnection]
      by_cases hid : id = id'
      · subst hid
        rw [Function.update_self]
        exact .inl ⟨hprogress, by split_ifs <;> nofun⟩
      · exact .inr (Function.update_of_ne hid ..)
  | act a =>
      obtain ⟨-, -, hconnection⟩ := step_act_eq_next h
      rw [hconnection]
      rcases attempt_cases s.base s.connection a id with heq | ⟨f, r, c, -, hraw, -, hid, -⟩
      · exact .inr heq
      · exact absurd hid (hover.2 f c (call_of_rawCall hraw))

theorem cancelled_of_step {s s' : Connecting} {act : Action} (h : step s act = .next s') {id : CallId}
    (hid : s.base.cancelled id = true) : s'.base.cancelled id = true := by
  cases act with
  | complete id' error => rwa [(step_complete_eq_next h).2.1]
  | act a => exact step_cancelled (step_act_eq_next h).2.1 hid

/-- What a call returns is honest, unless it has read a zero while the kernel was still connecting. -/
theorem honestAbout_of_answer {s s' : Connecting} (hs : s.Inv) (h : step s (.act a) = .next s') {r : Return}
    (hanswer : Answer s.base f a c r) (hdoIo : c.request.isDoIo = false)
    (hintime : a = .soError f (some 0) → s.connection c.id ≠ .inProgress) : s'.HonestAbout c r := by
  obtain ⟨hanswers, ht, hconnection⟩ := step_act_eq_next h
  cases hanswer with
  | refused hpc =>
      have hplaced := hs.placed f c (by rw [hpc]; rfl)
      rw [hpc] at hplaced
      exact ⟨rfl, by rw [Describes, hconnection]; exact hplaced⟩
  | @raw _ r hraw =>
      have hasked : s'.connection c.id = r.connection := by
        simp [hconnection, attempt, hraw, hdoIo]
      cases r with
      | done n =>
          obtain rfl : n = 0 := by simpa [answers, hraw, hdoIo] using hanswers
          exact hasked
      | EINTR | wouldBlock => exact ⟨rfl, by rw [Describes, hasked]; nofun⟩
      | fail errno => exact ⟨rfl, hasked⟩
  | gaveUp _ hdoIo' => exact absurd hdoIo' (by simp [hdoIo])
  | timedOut hpc hcancelled => exact ⟨rfl, step_cancelled ht hcancelled⟩
  | @answered _ error hpc =>
      have hplaced := hs.placed f c (by rw [hpc]; rfl)
      rw [hpc] at hplaced
      have hsame : s'.connection c.id = s.connection c.id := by rw [hconnection]; rfl
      cases error with
      | none => exact ⟨rfl, trivial⟩
      | some error =>
          obtain rfl : error = (s.connection c.id).soError := by simpa [answers, hpc] using hanswers
          obtain ⟨-, hawaited⟩ := hplaced
          rw [HonestAbout, Describes, hsame]
          cases hread : s.connection c.id with
          | unasked => simp [hread, Connection.Awaited] at hawaited
          | inProgress => exact absurd hread (hintime (by simp [hread, Connection.soError]))
          | connected => simp [value, Connection.soError]
          | failed error =>
              rw [hread] at hawaited
              obtain ⟨n, rfl⟩ := Nat.exists_eq_succ_of_ne_zero hawaited
              exact ⟨rfl, rfl⟩

theorem honest_step_iff {s s' : Connecting} (hs : s.Inv) (hhonest : s.Honest) {act : Action}
    (h : step s act = .next s') : s'.Honest ↔ s.AsksInTime act := by
  constructor
  · intro hhonest'
    unfold AsksInTime
    split
    · next f =>
        intro c hpc hprogress
        obtain ⟨-, ht, hconnection⟩ := step_act_eq_next h
        have hplaced := hs.placed f c (by rw [hpc]; rfl)
        rw [hpc] at hplaced
        simp only [Hook.step, hpc] at ht
        have hmem : (c, Return.soError (some 0)) ∈ s'.base.log := by
          rw [← Outcome.next.inj ht]
          exact List.mem_append_right _ (List.mem_singleton_self _)
        have hconnected : s'.connection c.id = .connected := hhonest' c _ hmem hplaced.1
        rw [hconnection] at hconnected
        exact absurd (hprogress.symm.trans hconnected) (by simp)
    · trivial
  · intro hintime c r hmem hdoIo
    have hold : (c, r) ∈ s.base.log → s'.HonestAbout c r := fun hlogged =>
      HonestAbout.mono (hhonest c r hlogged hdoIo) (connection_of_over h (hs.logged c r hlogged)) (cancelled_of_step h)
    cases act with
    | complete id error => exact hold ((step_complete_eq_next h).2.1 ▸ hmem)
    | act a =>
        rcases log_cases (step_act_eq_next h).2.1 with hlog | ⟨f, d, r', -, -, -, hlog, hanswer⟩
        · exact hold (hlog ▸ hmem)
        · rw [hlog, List.mem_append, List.mem_singleton] at hmem
          rcases hmem with hmem | hmem
          · exact hold hmem
          · cases hmem
            refine honestAbout_of_answer hs h hanswer hdoIo ?_
            rintro rfl
            cases hanswer with
            | answered hpc => exact hintime c hpc

/-- A call can always read a zero while it is still being connected. -/
theorem asksInTime_of_stuck {s : Connecting} {act : Action} (hstuck : ∀ s', step s act ≠ .next s') :
    s.AsksInTime act := by
  unfold AsksInTime
  split
  · next f =>
      intro c hpc hprogress
      obtain ⟨s', hs'⟩ : ∃ s', step s (.act (.soError f (some 0))) = .next s' := by
        simp [step, answers, hpc, hprogress, Connection.soError, Hook.step, Outcome.map]
      exact hstuck s' hs'
  · trivial

/-- Whatever the kernel answers, whoever wakes the fiber and whether or not `addEvent` fails: `connect` reports success only for a connection that has been made, and every failure with its reason, exactly if no call comes to `getsockopt` and reads a zero there while the kernel is still connecting. -/
theorem connects_honestly_iff (now : UInt64) (acts : List Action) :
    Throughout step Honest (start now) acts ↔ Along step AsksInTime (start now) acts :=
  throughout_iff_along (fun _ _ _ hs h => step_inv hs h) (fun _ _ _ hs hhonest h => honest_step_iff hs hhonest h)
    (fun _ _ _ hstuck => asksInTime_of_stuck hstuck) (start_inv now) (fun _ _ hmem => by cases hmem) acts

/-- A call that has returned 0 while the kernel is still connecting. -/
theorem not_honest_of_inProgress {s : Connecting} (hmem : (c, .soError (some 0)) ∈ s.base.log)
    (hdoIo : c.request.isDoIo = false) (hprogress : s.connection c.id = .inProgress) : ¬ s.Honest := by
  intro hhonest
  have hconnected : s.connection c.id = .connected := hhonest c _ hmem hdoIo
  rw [hprogress] at hconnected
  cases hconnected

/-- A connection is in progress, and its call is about to wait. -/
def pendingConnect : List Action :=
  [.act (.track 5 (some true)), .act (.begin 0 0 (.connect 5 (-1))), .act (.lookup 0), .act (.raw 0 .wouldBlock),
    .act (.arm 0 0 100)]

/-- Another fiber cancels the event, and in a second run `addEvent` fails: both calls return 0 although nothing is connected. -/
theorem pending_connect_returns_zero :
    ¬ Throughout step Honest (start 0) (pendingConnect ++ [.act (.add 0 true), .act (.yield 0),
        .act (.cancelEvent 0 5 .WRITE true), .act (.resume 0), .act (.cancelTimer 0), .act (.check 0),
        .act (.soError 0 (some 0))]) ∧
      ¬ Throughout step Honest (start 0) (pendingConnect ++ [.act (.add 0 false), .act (.cancelTimer 0),
        .act (.soError 0 (some 0))]) := by
  constructor
  · intro h
    exact not_honest_of_inProgress (c := ⟨0, 0, .connect 5 (-1), -1, 0⟩) List.mem_cons_self rfl rfl (h.last rfl)
  · intro h
    exact not_honest_of_inProgress (c := ⟨0, 0, .connect 5 (-1), -1, 0⟩) List.mem_cons_self rfl rfl (h.last rfl)

end Connecting

end Awcotn.Hook
