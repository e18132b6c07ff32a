import Awcotn.EntryPoint.Steps
import Awcotn.Hook.Deadlines

/-!
# Timeouts of a socket

`setsockopt` with `SO_RCVTIMEO` or `SO_SNDTIMEO` notes the timeout in the context of the descriptor, in milliseconds, and then makes the raw call without looking at its result; `do_io` arms its timer with what is noted. The kernel takes a timeout of zero for none and rounds others up, and a call it refuses changes nothing. `limits_respected_iff` says which settings and which waits come to the same through the hooks.
-/

namespace Awcotn.EntryPoint

open Transition

variable {R : Type*}

/-! ### Conversions -/

theorem bmod_emod_word (n : ℤ) : n.bmod (2 ^ 64) % 2 ^ 64 = n % 2 ^ 64 := by
  have hmod : n.bmod (2 ^ 64) % ((2 ^ 64 : ℕ) : ℤ) = n % ((2 ^ 64 : ℕ) : ℤ) := Int.bmod_emod
  exact_mod_cast hmod

theorem toNat_toUInt64 (n : Int64) : (n.toUInt64.toNat : ℤ) = n.toInt % 2 ^ 64 := by
  have hbmod : n.toInt = Int.bmod n.toUInt64.toNat (2 ^ 64) := BitVec.toInt_eq_toNat_bmod n.toBitVec
  have hlt := n.toUInt64.toNat_lt
  rw [hbmod, bmod_emod_word]
  omega

/-- Seconds and a part of one, converted to milliseconds and stored in 64 bits: the product and the sum wrap, and a negative number becomes a large one. -/
theorem toNat_millis (sec part : Int64) {d : Int64} (hd : d ≠ -1) :
    ((sec * 1000 + part / d).toUInt64.toNat : ℤ) = (sec.toInt * 1000 + part.toInt.tdiv d.toInt) % 2 ^ 64 := by
  have hdiv : (part / d).toInt = part.toInt.tdiv d.toInt := Int64.toInt_div_of_ne_right _ _ hd
  have hmul : (sec * 1000).toInt = (sec.toInt * 1000).bmod (2 ^ 64) := Int64.toInt_mul ..
  rw [toNat_toUInt64, Int64.toInt_add, hdiv, hmul, bmod_emod_word, Int.add_emod, bmod_emod_word, ← Int.add_emod]

namespace Timeval

/-- The time in microseconds. -/
def us (tv : Timeval) : ℤ := tv.tv_sec.toInt * 1000000 + tv.tv_usec.toInt

/-- The milliseconds that `setsockopt` makes of it, before they are stored in 64 bits. -/
def ms (tv : Timeval) : ℤ := tv.tv_sec.toInt * 1000 + tv.tv_usec.toInt.tdiv 1000

/-- The kernel takes this for no timeout. -/
def isZero (tv : Timeval) : Bool := tv.tv_sec = 0 ∧ tv.tv_usec = 0

/-- What is stored. -/
theorem toNat_toMs (tv : Timeval) : (tv.toMs.toNat : ℤ) = tv.ms % 2 ^ 64 :=
  toNat_millis tv.tv_sec tv.tv_usec (by decide)

/-- The division cuts off what is left of a time that is not negative, and a whole number of milliseconds it leaves alone. -/
theorem tmod_le_zero_iff (n : ℤ) : n.tmod 1000 ≤ 0 ↔ 1000 ∣ n ∨ n ≤ 0 := by
  rw [Int.dvd_iff_tmod_eq_zero]
  constructor
  · intro hle
    by_cases hn : n ≤ 0
    · exact .inr hn
    · have hge := Int.tmod_nonneg 1000 (by omega : 0 ≤ n)
      exact .inl (by omega)
  · rintro (hzero | hn)
    · exact hzero.le
    · have hge := Int.tmod_nonneg 1000 (by omega : 0 ≤ -n)
      rw [Int.neg_tmod] at hge
      omega

/-- A deadline of `sum` milliseconds, stored in 64 bits, against the exact one with a part of a millisecond more or less. -/
theorem wrapped_le_iff {sum part : ℤ} (hlow : -1000 < part) (hhigh : part < 1000) :
    sum * 1000 + part ≤ sum % 2 ^ 64 * 1000 ↔ sum < 2 ^ 64 ∧ (part ≤ 0 ∨ sum < 0) := by
  omega

theorem toMs_of_isZero {tv : Timeval} (h : tv.isZero = true) : tv.toMs = 0 := by
  obtain ⟨hsec, husec⟩ := of_decide_eq_true h
  rw [toMs, hsec, husec]
  rfl

/-- A wait that begins at `now` lasts as long as asked for: the timeout is not zero or, once converted, none, no part of a millisecond is cut off, and the deadline does not wrap. -/
def Lasts (tv : Timeval) (now : UInt64) : Prop :=
  tv.isZero = false ∧ tv.ms % 2 ^ 64 ≠ 2 ^ 64 - 1 ∧ now.toNat + tv.ms < 2 ^ 64 ∧
    (1000 ∣ tv.tv_usec.toInt ∨ tv.tv_usec.toInt ≤ 0 ∨ now.toNat + tv.ms < 0)

instance (tv : Timeval) (now : UInt64) : Decidable (tv.Lasts now) := inferInstanceAs (Decidable (_ ∧ _))

/-- The timer of `do_io` is armed, and it ends no earlier than asked for. -/
theorem deadline_iff_lasts {tv : Timeval} (hzero : tv.isZero = false) (now : UInt64) :
    (∃ d, Hook.deadline tv.toMs now = some d ∧ now.toNat * 1000 + tv.us ≤ (d.toNat : ℤ) * 1000) ↔ tv.Lasts now := by
  have hms := tv.toNat_toMs
  have hnow := now.toNat_lt
  have hnone : tv.toMs = -1 ↔ tv.ms % 2 ^ 64 = 2 ^ 64 - 1 := by
    rw [← hms, ← UInt64.toNat_inj]
    have hone : (-1 : UInt64).toNat = 2 ^ 64 - 1 := rfl
    omega
  have hsum : ((tv.toMs + now).toNat : ℤ) = (now.toNat + tv.ms) % 2 ^ 64 := by
    rw [UInt64.toNat_add]
    omega
  have hrest : tv.us = tv.ms * 1000 + tv.tv_usec.toInt.tmod 1000 := by
    have hsplit := Int.tmod_add_mul_tdiv tv.tv_usec.toInt 1000
    simp only [us, ms]
    omega
  have hlow := Int.lt_tmod_of_pos tv.tv_usec.toInt (by decide : (0 : ℤ) < 1000)
  have hhigh := Int.tmod_lt_of_pos tv.tv_usec.toInt (by decide : (0 : ℤ) < 1000)
  have hle : now.toNat * 1000 + tv.us ≤ ((tv.toMs + now).toNat : ℤ) * 1000 ↔
      now.toNat + tv.ms < 2 ^ 64 ∧ (tv.tv_usec.toInt.tmod 1000 ≤ 0 ∨ now.toNat + tv.ms < 0) := by
    rw [hsum, hrest, ← wrapped_le_iff hlow hhigh]
    omega
  rw [Lasts, ← or_assoc, ← tmod_le_zero_iff, ne_eq, ← hnone, ← hle, Hook.deadline]
  by_cases h : tv.toMs = -1
  · simp [h]
  · simp [h, hzero]

end Timeval

/-! ### Runs -/

/-- What a thread with hooks does with a tracked descriptor: it sets a timeout, or calls a function that is `do_io` and begins to wait at a clock reading. -/
inductive LimitAction
  | setsockopt (optname : TimeoutSo) (optval : Timeval)
  | doIo (timeoutSo : TimeoutSo) (now : UInt64)

/-- The program, and in each direction the timeout that the kernel has last accepted. -/
structure Limited (R : Type*) where
  state : State R
  successful : TimeoutSo → Option Timeval

namespace Limited

variable (raw : RawCalls R) (fd : ℕ)

/-- What `do_io` reads. -/
def timeout (s : State R) (timeoutSo : TimeoutSo) : UInt64 :=
  match s.fdMgr.get fd with
  | some ctx => ctx.getTimeout timeoutSo
  | none => -1

def step (s : Limited R) : LimitAction → Outcome Crash (Limited R)
  | .setsockopt optname optval =>
    (EntryPoint.setsockopt raw true s.state fd (.timeout optname optval)).map fun r =>
      { state := r.2
        successful := if r.1.value = -1 then s.successful else Function.update s.successful optname (some optval) }
  | .doIo _ _ => .next s

def start (s : State R) : Limited R := { state := s, successful := fun _ => none }

/-- The time that a wait is to last, in microseconds: none where no setting was accepted, or zero was the last. -/
def limit (s : Limited R) (timeoutSo : TimeoutSo) : Option ℤ :=
  ((s.successful timeoutSo).filter fun tv => !tv.isZero).map Timeval.us

/-- A timer ends no earlier than a wait that begins at `now` is to last, and there is a timer if and only if the wait has a limit. -/
def Honours (now : UInt64) : Option ℤ → Option UInt64 → Prop
  | none, none => True
  | some us, some d => now.toNat * 1000 + us ≤ (d.toNat : ℤ) * 1000
  | _, _ => False

/-- A setting that is refused changes no timeout of `do_io`, and one that is accepted changes none of the other direction; `do_io` waits as long as the last accepted setting says. -/
def Respects (s : Limited R) : LimitAction → Prop
  | .setsockopt optname optval => ∀ ret t,
    EntryPoint.setsockopt raw true s.state fd (.timeout optname optval) = .next (ret, t) →
      (ret.value = -1 → timeout fd t = timeout fd s.state) ∧
        ∀ other, other ≠ optname → timeout fd t other = timeout fd s.state other
  | .doIo timeoutSo now => Honours now (s.limit timeoutSo) (Hook.deadline (timeout fd s.state timeoutSo) now)

/-- A setting that the kernel refuses comes to what is noted already; a wait lasts as long as asked for. -/
def Settles (s : Limited R) : LimitAction → Prop
  | .setsockopt optname optval =>
    (raw.controlCall (.setsockopt fd (.timeout optname optval)) s.state.kernel).1.value = -1 →
      optval.toMs = timeout fd s.state optname
  | .doIo timeoutSo now =>
    match s.successful timeoutSo with
    | some tv => tv.Lasts now
    | none => True

instance (s : Limited R) (a : LimitAction) : Decidable (s.Settles raw fd a) := by
  unfold Settles
  split
  · infer_instance
  · split <;> infer_instance

/-- The descriptor is tracked, and what is noted for it is what the kernel has accepted. -/
def Noted (s : Limited R) : Prop :=
  ∃ ctx, s.state.fdMgr.get fd = some ctx ∧ ∀ timeoutSo,
    ctx.getTimeout timeoutSo = ((s.successful timeoutSo).map Timeval.toMs).getD (-1)

variable {raw fd} {s : Limited R}

theorem timeout_eq {s : State R} {ctx : FdCtx} (hget : s.fdMgr.get fd = some ctx) : timeout fd s = ctx.getTimeout := by
  funext timeoutSo
  simp [timeout, hget]

/-- The timeout that a `do_io` call of the other hooks brings to its raw call. -/
theorem lookupStep_timeout {s : State R} {p : Hook.State} (hp : p.fdMgr = s.fdMgr) {f : Hook.FiberId} {c d : Hook.Call}
    {event : Event} {timeoutSo : TimeoutSo} (hrequest : c.request = .doIo fd event timeoutSo)
    (hraw : (Hook.lookupStep p f c).pc f = .raw d) : d.timeoutMs = timeout fd s timeoutSo := by
  cases hctx : p.fdMgr.get fd with
  | none =>
      -- an untracked descriptor is called directly
      obtain ⟨id, iom, request, timeoutMs, generation⟩ := c
      obtain rfl : request = .doIo fd event timeoutSo := hrequest
      simp only [Hook.lookupStep, hctx] at hraw
      rw [Hook.State.goto_pc] at hraw
      cases hraw
  | some ctx =>
      rw [Hook.lookupStep_timeoutMs hrequest hctx hraw]
      simp only [timeout, ← hp, hctx]

theorem getTimeout_setTimeout (ctx : FdCtx) (type : TimeoutSo) (v : UInt64) :
    (ctx.setTimeout type v).getTimeout = Function.update ctx.getTimeout type v := by
  funext timeoutSo
  cases type <;> cases timeoutSo <;> rfl

/-- `setsockopt` on a tracked descriptor. -/
theorem setsockopt_tracked (raw : RawCalls R) {s : State R} {ctx : FdCtx} (hget : s.fdMgr.get fd = some ctx) (optname : TimeoutSo)
    (optval : Timeval) : ∃ t, EntryPoint.setsockopt raw true s fd (.timeout optname optval) =
      .next ((raw.controlCall (.setsockopt fd (.timeout optname optval)) s.kernel).1, t) ∧
        t.fdMgr.get fd = some (ctx.setTimeout optname optval.toMs) := by
  have hlook : s.get fd = .ok (some ctx) := congrArg Except.ok hget
  refine ⟨((s.setCtx fd (ctx.setTimeout optname optval.toMs)).withKernel
    (raw.controlCall (.setsockopt fd (.timeout optname optval)) s.kernel)).2, ?_, get_setCtx hget _⟩
  simp only [EntryPoint.setsockopt, Bool.not_true, Bool.false_eq_true, if_false, hlook]
  rfl

theorem step_noted (hs : s.Noted fd) {a : LimitAction} (ha : s.Respects raw fd a) {t : Limited R}
    (h : step raw fd s a = .next t) : t.Noted fd := by
  cases a with
  | doIo timeoutSo now =>
      cases h
      exact hs
  | setsockopt optname optval =>
      obtain ⟨ctx, hget, hnoted⟩ := hs
      obtain ⟨t', hcall, hget'⟩ := setsockopt_tracked raw hget optname optval
      have hkept := (ha _ t' hcall).1
      rw [timeout_eq hget, timeout_eq hget'] at hkept
      simp only [step, hcall, Outcome.map, Outcome.next.injEq] at h
      subst h
      refine ⟨_, hget', fun timeoutSo => ?_⟩
      dsimp only
      split_ifs with hrefused
      · rw [hkept hrefused]
        exact hnoted timeoutSo
      · rw [getTimeout_setTimeout]
        by_cases hso : timeoutSo = optname
        · subst hso
          simp
        · simpa [Function.update_of_ne hso] using hnoted timeoutSo

theorem respects_iff_settles (hs : s.Noted fd) (a : LimitAction) : s.Respects raw fd a ↔ s.Settles raw fd a := by
  obtain ⟨ctx, hget, hnoted⟩ := hs
  cases a with
  | setsockopt optname optval =>
      obtain ⟨t, hcall, hget'⟩ := setsockopt_tracked raw hget optname optval
      simp only [Respects, Settles, timeout_eq hget]
      constructor
      · intro h hrefused
        have hkept := (h _ t hcall).1 hrefused
        rw [timeout_eq hget', getTimeout_setTimeout] at hkept
        simpa using congrFun hkept optname
      · intro h ret t' hcall'
        obtain ⟨rfl, rfl⟩ := Prod.mk.inj (Outcome.next.inj (hcall.symm.trans hcall'))
        rw [timeout_eq hget', getTimeout_setTimeout]
        refine ⟨fun hrefused => ?_, fun other hother => Function.update_of_ne hother ..⟩
        rw [h hrefused, Function.update_eq_self]
  | doIo timeoutSo now =>
      simp only [Respects, Settles, timeout_eq hget, hnoted timeoutSo, limit]
      cases s.successful timeoutSo with
      | none => simp [Honours, Hook.deadline]
      | some tv =>
          cases hzero : tv.isZero with
          | true =>
              -- the kernel waits without limit, and the hooks arm a timer that is due at once
              have hms : tv.toMs ≠ -1 := by
                rw [Timeval.toMs_of_isZero hzero]
                decide
              simp [Honours, Hook.deadline, hzero, hms, Timeval.Lasts]
          | false =>
              change _ ↔ tv.Lasts now
              rw [← Timeval.deadline_iff_lasts hzero]
              simp only [Option.filter_some, hzero, Bool.not_false, if_true, Option.map_some, Option.getD_some]
              cases Hook.deadline tv.toMs now <;> simp [Honours]

/-- For every sequence of settings and waits on a tracked descriptor whose timeouts have not been set, and whatever the kernel answers: the hooks keep every timeout as the kernel would exactly if each refused setting repeats what is noted, and each wait has a limit that is neither zero nor cut off nor wrapped. -/
theorem limits_respected_iff (raw : RawCalls R) {fd : ℕ} {s : State R} {ctx : FdCtx} (hget : s.fdMgr.get fd = some ctx)
    (hnone : ∀ timeoutSo, ctx.getTimeout timeoutSo = -1) (acts : List LimitAction) :
    Along (step raw fd) (Respects raw fd) (start s) acts ↔ Along (step raw fd) (Settles raw fd) (start s) acts :=
  along_congr_of_along (fun _ _ _ hs ha h => step_noted hs ha h) (fun _ a hs => respects_iff_settles hs a)
    (s := start s) ⟨ctx, hget, hnone⟩ acts

/-- The table in which descriptor 5 has just been tracked as a socket. -/
def tracking : State Unit := ⟨nothingOpen, FdManager.init.create 5 (some true)⟩

/-- A receive timeout of one second and another of two. -/
theorem limits_respected_seconds : Along (step idleCalls 5) (Respects idleCalls 5) (start tracking)
    [.doIo .SO_RCVTIMEO 100, .setsockopt .SO_RCVTIMEO ⟨1, 0⟩, .doIo .SO_RCVTIMEO 200, .doIo .SO_SNDTIMEO 200,
      .setsockopt .SO_RCVTIMEO ⟨2, 0⟩, .doIo .SO_RCVTIMEO 300] :=
  (limits_respected_iff idleCalls (show tracking.fdMgr.get 5 = some (.new (some true)) from rfl)
    (fun timeoutSo => by cases timeoutSo <;> rfl) _).2 (by decide)

/-- Raw calls that all fail. -/
def failingCalls : RawCalls Unit := ⟨fun _ _ => (.fail 33, ()), fun _ k => (.fail 33, k)⟩

/-- A receive timeout of zero, one that the kernel refuses, and one below a millisecond. -/
theorem zero_limit_times_out :
    ¬ Along (step idleCalls 5) (Respects idleCalls 5) (start tracking)
        [.setsockopt .SO_RCVTIMEO ⟨0, 0⟩, .doIo .SO_RCVTIMEO 100] ∧
      ¬ Along (step failingCalls 5) (Respects failingCalls 5) (start tracking) [.setsockopt .SO_RCVTIMEO ⟨1, 1000000⟩] ∧
      ¬ Along (step idleCalls 5) (Respects idleCalls 5) (start tracking)
        [.setsockopt .SO_RCVTIMEO ⟨0, 500⟩, .doIo .SO_RCVTIMEO 100] := by
  refine ⟨fun h => ?_, fun h => ?_, fun h => ?_⟩
  · exact h.2.1
  · have hkept := (h.1 _ _ rfl).1 rfl
    exact absurd (congrFun hkept .SO_RCVTIMEO) (by decide)
  · have hle : (100 : ℤ) * 1000 + 500 ≤ 100 * 1000 := h.2.1
    exact absurd hle (by decide)

end Limited

end Awcotn.EntryPoint
