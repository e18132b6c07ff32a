import Awcotn.EntryPoint.Functions

/-!
# Passing through

On a thread whose hook flag is off, and on a descriptor that has no context, a hooked function is meant to be the raw function it replaces. Most are. `accept` tracks the descriptor it returns whatever the flag says, which puts it in non-blocking mode; `connect` refuses a descriptor it does not know; `fcntl` drops the argument of a command its switch does not list, and it and `ioctl` look for a context without asking for the flag.

`PassesThrough` says of a call, from the state it is made in, that none of this shows. It is the exact condition: a call is transparent if and only if it passes through.
-/

namespace Awcotn.EntryPoint

open Transition

variable {R : Type*}

/-! ### The two sides -/

/-- What the caller and the kernel see of a result. -/
def seen : Result R → Outcome Crash (Ret × Kernel R)
  | .next r => .next (r.1, r.2.kernel)
  | .abort e => .abort e
  | .disabled => .disabled

/-- The result of a raw call. -/
def performed : Option (Ret × Kernel R) → Outcome Crash (Ret × Kernel R)
  | some r => .next r
  | none => .disabled

def unhooked (raw : RawCalls R) (k : Kernel R) (c : Call R) : Outcome Crash (Ret × Kernel R) :=
  performed (c.direct raw k)

/-- The hooks are off, or the descriptor has no context. -/
def Bare (s : State R) (a : Action R) : Prop :=
  a.1 = false ∨ ∃ fd, a.2.fd? = some fd ∧ ∀ ctx, s.get fd ≠ .ok (some ctx)

/-- The call returns what the raw function returns and leaves the kernel as the raw function does. -/
def Agrees (raw : RawCalls R) (s : State R) (a : Action R) : Prop :=
  seen (a.2.hooked raw a.1 s) = unhooked raw s.kernel a.2

/-- The call agrees with the raw function where the hooks have no part in it. -/
def Transparent (raw : RawCalls R) (s : State R) (a : Action R) : Prop := Bare s a → Agrees raw s a

/-! ### The condition -/

/-- The descriptor whose context the call looks up, on a thread whose hook flag is `enabled`. -/
def Call.looksUp (enabled : Bool) : Call R → Option ℤ
  | .connect fd _ _ | .accept fd _ _ _ | .io _ fd _ _ | .close fd _ _ | .setsockopt fd (.timeout _ _) =>
    if enabled then some fd else none
  | .setfl fd _ _ | .getfl fd _ | .fionbio fd _ _ => some fd
  | _ => none

/-- The context that `fcntl` and `ioctl` act on. -/
def State.socketCtx? (s : State R) (fd : ℤ) : Option FdCtx :=
  match s.get fd with
  | .ok ctx => socketCtx ctx
  | .error _ => none

/-- The new descriptor of an `accept` is tracked for the first time, and `FdCtx::init` succeeds. -/
def Tracks (s : State R) (sockfd : ℤ) (fd : ℕ) (v : Verdict) (p : Probe) : Prop :=
  v = .allow ∧ s.kernel.fileOf sockfd ≠ none ∧ s.kernel.fds fd = none ∧ s.fdMgr.get fd = none ∧
    p = ⟨.allow, .allow, .allow⟩

/-- What the hooked function does besides the raw one does not show. -/
def LeavesAlone (raw : RawCalls R) (s : State R) (enabled : Bool) : Call R → Prop
  | .connect fd args _ => enabled = true → raw.waiting (.connect fd args) s.kernel = (.fail EBADF, s.kernel)
  | .accept sockfd fd v p => ¬ Tracks s sockfd fd v p
  | .setfl fd arg v => ∀ c, s.socketCtx? fd = some c → v = .allow → s.kernel.fileOf fd ≠ none →
      arg.nonblock = c.sysNonblock
  | .getfl fd v => ∀ c, s.socketCtx? fd = some c →
      Flags.nonblock (BitVec.ofInt 32 (getfl_f s.kernel fd v).value) = c.userNonblock
  | .fcntl fd cmd => raw.control (.fcntl fd cmd.handedOn) s.kernel = raw.control (.fcntl fd cmd) s.kernel
  | .fionbio _ arg _ => arg ≠ none
  | _ => True

/-- No negative descriptor is looked up, and nothing the hooked function adds shows. -/
def Quiet (raw : RawCalls R) (s : State R) (a : Action R) : Prop :=
  (∀ fd, a.2.looksUp a.1 = some fd → 0 ≤ fd) ∧ LeavesAlone raw s a.1 a.2

/-- The condition on a call. -/
def PassesThrough (raw : RawCalls R) (s : State R) (a : Action R) : Prop := Bare s a → Quiet raw s a

/-! ### Flags -/

namespace Flags

@[simp] theorem setNonblock_nonblock (f : Flags) : setNonblock f f.nonblock = f := by
  have hbit : ∀ i : ℕ, (O_NONBLOCK : Flags).getLsbD i = decide (i = nonblockBit) := by
    intro i
    have htwoPow : O_NONBLOCK = BitVec.twoPow 32 nonblockBit := rfl
    rw [htwoPow, BitVec.getLsbD_twoPow]
    by_cases heq : i = nonblockBit
    · subst heq
      rfl
    · simp [heq, Ne.symm heq]
  apply BitVec.eq_of_getLsbD_eq
  intro i hi
  by_cases heq : i = nonblockBit
  · subst heq
    exact nonblock_setNonblock f f.nonblock
  · cases hv : f.nonblock with
    | true => simp only [setNonblock, if_true, BitVec.getLsbD_or, hbit, heq, decide_false, Bool.or_false]
    | false =>
        simp only [setNonblock, Bool.false_eq_true, if_false, BitVec.getLsbD_and, BitVec.getLsbD_not, hbit, hi, heq,
          decide_true, decide_false, Bool.not_false, Bool.and_true]

theorem setNonblock_eq_self {f : Flags} {v : Bool} : setNonblock f v = f ↔ f.nonblock = v := by
  constructor
  · intro h
    rw [← h, nonblock_setNonblock]
  · rintro rfl
    exact setNonblock_nonblock f

end Flags

/-! ### Raw results -/

variable {k : Kernel R}

/-- The result of `F_GETFL` is a 32-bit word. -/
theorem getfl_f_value (fd : ℤ) (v : Verdict) :
    (BitVec.ofInt 32 (getfl_f k fd v).value).toInt = (getfl_f k fd v).value := by
  cases v with
  | refuse e => rfl
  | allow =>
      rw [getfl_f]
      cases k.file? fd with
      | none => rfl
      | some file => exact congrArg BitVec.toInt BitVec.ofInt_toInt

theorem setfl_setNonblock_eq {f arg : Flags} {v : Bool} : f.setfl (arg.setNonblock v) = f.setfl arg ↔ arg.nonblock = v := by
  constructor
  · intro h
    have hbit := congrArg Flags.nonblock h
    simpa [eq_comm] using hbit
  · intro h
    rw [Flags.setNonblock_eq_self.2 h]

theorem controlCall_eq_iff {raw : RawCalls R} {c d : ControlCall} :
    raw.controlCall c k = raw.controlCall d k ↔ raw.control c k = raw.control d k := by
  constructor
  · intro h
    have hret := congrArg (fun r : Ret × Kernel R => (r.1, r.2.rest)) h
    exact hret
  · intro h
    rw [RawCalls.controlCall, RawCalls.controlCall, h]

/-! ### Looking a context up -/

variable {raw : RawCalls R} {s : State R}

@[simp] theorem seen_pass (r : Ret × Kernel R) : seen (s.pass r) = .next r := rfl

@[simp] theorem seen_pass? (o : Option (Ret × Kernel R)) : seen (s.pass? o) = performed o := by
  cases o <;> rfl

/-- On a thread with hooks, a call the hooks have no part in finds no context, or the process ends. -/
theorem Bare.get_cases {c : Call R} {fd : ℤ} (h : Bare s (true, c)) (hfd : c.fd? = some fd) :
    (0 ≤ fd ∧ s.get fd = .ok none) ∨ (¬ 0 ≤ fd ∧ s.get fd = .error .outOfTable) := by
  obtain hoff | ⟨fd', hfd', hnone⟩ := h
  · cases hoff
  · obtain rfl : fd = fd' := by simpa [hfd] using hfd'
    obtain ⟨hpos, hget⟩ | hneg := s.get_cases fd
    · cases hctx : s.fdMgr.get fd.toNat with
      | none => exact Or.inl ⟨hpos, by rw [hget, hctx]⟩
      | some ctx => exact absurd (by rw [hget, hctx]) (hnone ctx)
    · exact Or.inr hneg

/-- `do_io` passes through where it finds no context. -/
theorem seen_doIo {c : Call R} {fd : ℤ} {enabled : Bool} (h : Bare s (enabled, c)) (hfd : c.fd? = some fd)
    (direct awaited : Option (Ret × Kernel R)) :
    doIo enabled s fd direct awaited = if enabled ∧ ¬ 0 ≤ fd then .abort .outOfTable else s.pass? direct := by
  cases enabled with
  | false => simp [doIo]
  | true =>
      obtain ⟨hpos, hget⟩ | ⟨hneg, hget⟩ := h.get_cases hfd
      · simp [doIo, hget, hpos]
      · simp [doIo, hget, hneg]

/-! ### One function after another -/

variable {enabled : Bool}

theorem agrees_connect {fd : ℤ} {args : List Word} {awaited : Ret × Kernel R}
    (h : Bare s (enabled, .connect fd args awaited)) :
    Agrees raw s (enabled, .connect fd args awaited) ↔ Quiet raw s (enabled, .connect fd args awaited) := by
  cases enabled with
  | false => simp [Agrees, Quiet, Call.hooked, connect, unhooked, performed, Call.direct, Call.looksUp, LeavesAlone]
  | true =>
      obtain ⟨hpos, hget⟩ | ⟨hneg, hget⟩ := h.get_cases rfl
      · simp [Agrees, Quiet, Call.hooked, connect, hget, seen, unhooked, performed, Call.direct, Call.looksUp,
          LeavesAlone, hpos, eq_comm]
      · simp [Agrees, Quiet, Call.hooked, connect, hget, seen, unhooked, performed, Call.direct, Call.looksUp, hneg]

theorem unhooked_ne_abort {c : Call R} {k : Kernel R} {e : Crash} : unhooked raw k c ≠ .abort e := by
  rw [unhooked]
  cases c.direct raw k <;> simp [performed]

/-- A call that ends the process is not the raw call. -/
theorem not_agrees_of_abort {c : Call R} {e : Crash} (h : c.hooked raw enabled s = .abort e) :
    ¬ Agrees raw s (enabled, c) := by
  intro hagrees
  rw [Agrees, h] at hagrees
  exact unhooked_ne_abort hagrees.symm

/-- A function that looks up its descriptor where hooks are on, and then passes through. -/
theorem agrees_of_passed {c : Call R} (fd : ℤ) (hlook : c.looksUp enabled = if enabled then some fd else none)
    (halone : LeavesAlone raw s enabled c)
    (hhooked : seen (c.hooked raw enabled s) =
      if enabled ∧ ¬ 0 ≤ fd then .abort .outOfTable else unhooked raw s.kernel c) :
    Agrees raw s (enabled, c) ↔ Quiet raw s (enabled, c) := by
  simp only [Agrees, Quiet, hlook, hhooked, halone, and_true]
  by_cases hbad : enabled = true ∧ ¬ 0 ≤ fd
  · rw [if_pos hbad]
    constructor
    · intro h
      exact absurd h.symm unhooked_ne_abort
    · intro h
      exact absurd (h fd (by rw [if_pos hbad.1])) hbad.2
  · rw [if_neg hbad]
    simp only [true_iff]
    intro fd' hfd'
    obtain ⟨hon, rfl⟩ : enabled = true ∧ fd = fd' := by simpa using hfd'
    exact not_not.1 fun hneg => hbad ⟨hon, hneg⟩

theorem agrees_io {f : IoFun} {fd : ℤ} {args : List Word} {awaited : Ret × Kernel R}
    (h : Bare s (enabled, .io f fd args awaited)) :
    Agrees raw s (enabled, .io f fd args awaited) ↔ Quiet raw s (enabled, .io f fd args awaited) := by
  refine agrees_of_passed fd rfl trivial ?_
  rw [Call.hooked_io, ioCall, seen_doIo h rfl]
  split
  · rfl
  · rfl

theorem agrees_close {fd : ℤ} {freed : Bool} {v : Verdict} (h : Bare s (enabled, .close fd freed v)) :
    Agrees raw s (enabled, .close fd freed v) ↔ Quiet raw s (enabled, .close fd freed v) := by
  refine agrees_of_passed fd rfl trivial ?_
  cases enabled with
  | false => rfl
  | true =>
      obtain ⟨hpos, hget⟩ | ⟨hneg, hget⟩ := h.get_cases rfl
      · simp [Call.hooked, close, hget, unhooked, performed, Call.direct, hpos]
      · simp [Call.hooked, close, hget, seen, hneg]

theorem agrees_setsockopt {fd : ℤ} {opt : SockOpt} (h : Bare s (enabled, .setsockopt fd opt)) :
    Agrees raw s (enabled, .setsockopt fd opt) ↔ Quiet raw s (enabled, .setsockopt fd opt) := by
  cases opt with
  | other level optname optval =>
      cases enabled <;>
        simp [Agrees, Quiet, Call.hooked, setsockopt, unhooked, performed, Call.direct, Call.looksUp, LeavesAlone]
  | timeout optname optval =>
      refine agrees_of_passed fd rfl trivial ?_
      cases enabled with
      | false => rfl
      | true =>
          obtain ⟨hpos, hget⟩ | ⟨hneg, hget⟩ := h.get_cases rfl
          · simp [Call.hooked, setsockopt, hget, unhooked, performed, Call.direct, hpos]
          · simp [Call.hooked, setsockopt, hget, seen, hneg]

/-- What `accept` does to the kernel after the raw call: nothing, where it does not track the new descriptor. -/
theorem getAutoCreate_accepted {sockfd : ℤ} {fd : ℕ} {p : Probe} (hopen : s.kernel.fileOf sockfd ≠ none)
    (hfree : s.kernel.fds fd = none) :
    (getAutoCreate { s with kernel := s.kernel.install fd ⟨true, O_RDWR⟩ } fd p).kernel = s.kernel.install fd ⟨true, O_RDWR⟩ ↔
      ¬ Tracks s sockfd fd .allow p := by
  have htracks : Tracks s sockfd fd .allow p ↔ s.fdMgr.get fd = none ∧ p = ⟨.allow, .allow, .allow⟩ := by
    simp [Tracks, hopen, hfree]
  rw [htracks]
  cases hctx : s.fdMgr.get fd with
  | some ctx => simp [getAutoCreate, hctx]
  | none =>
      have hid : (s.kernel.install fd ⟨true, O_RDWR⟩).fds fd = some s.kernel.nextFile := by simp [Kernel.install]
      have hfile : (s.kernel.install fd ⟨true, O_RDWR⟩).files s.kernel.nextFile = ⟨true, O_RDWR⟩ := by simp [Kernel.install]
      have hblocking : O_RDWR.nonblock = false := by decide
      simp only [getAutoCreate, hctx, initKernel_eq hid (by rw [hfile]), hfile, hblocking, and_true, true_and]
      by_cases hp : p = ⟨.allow, .allow, .allow⟩
      · simp only [hp, if_true, not_true, iff_false, setFlags_eq_self, hfile]
        decide
      · simp [hp]

/-- An `accept` whose raw call is made at once. -/
theorem seen_accept {sockfd : ℤ} {fd : ℕ} {v : Verdict} {p : Probe}
    (hdirect : doIo enabled s sockfd (accept_f s.kernel sockfd fd v) (accept_f s.kernel sockfd fd v) =
      s.pass? (accept_f s.kernel sockfd fd v)) :
    seen (accept enabled s sockfd fd v p) = performed (accept_f s.kernel sockfd fd v) ↔ ¬ Tracks s sockfd fd v p := by
  rw [accept, hdirect]
  cases v with
  | refuse e => simp [accept_f, State.pass?, State.pass, State.withKernel, Ret.fail, seen, performed, Tracks]
  | allow =>
      by_cases hopen : s.kernel.fileOf sockfd = none
      · simp [accept_f, hopen, State.pass?, State.pass, State.withKernel, Ret.fail, seen, performed, Tracks]
      · by_cases hfree : s.kernel.fds fd = none
        · rw [← getAutoCreate_accepted hopen hfree]
          simp [accept_f, hopen, hfree, State.pass?, State.pass, State.withKernel, Ret.ok, seen, performed]
        · simp [accept_f, hopen, hfree, State.pass?, seen, performed, Tracks]

theorem agrees_accept {sockfd : ℤ} {fd : ℕ} {v : Verdict} {p : Probe} (h : Bare s (enabled, .accept sockfd fd v p)) :
    Agrees raw s (enabled, .accept sockfd fd v p) ↔ Quiet raw s (enabled, .accept sockfd fd v p) := by
  have hdo := seen_doIo h rfl (accept_f s.kernel sockfd fd v) (accept_f s.kernel sockfd fd v)
  by_cases hbad : enabled = true ∧ ¬ 0 ≤ sockfd
  · rw [if_pos hbad] at hdo
    have hlook : ¬ Quiet raw s (enabled, .accept sockfd fd v p) := by
      intro hquiet
      exact hbad.2 (hquiet.1 sockfd (by simp [Call.looksUp, hbad.1]))
    exact iff_of_false (not_agrees_of_abort (by rw [Call.hooked, accept, hdo])) hlook
  · rw [if_neg hbad] at hdo
    have hlook : ∀ n, (Call.accept sockfd fd v p : Call R).looksUp enabled = some n → 0 ≤ n := by
      intro n hn
      obtain ⟨hon, rfl⟩ : enabled = true ∧ sockfd = n := by simpa [Call.looksUp] using hn
      exact not_not.1 fun hneg => hbad ⟨hon, hneg⟩
    rw [Agrees, Quiet, and_iff_right hlook]
    exact seen_accept hdo

/-! ### Functions that do not ask for the flag -/

theorem looksUp_iff {c : Call R} (fd : ℤ) (hlook : c.looksUp enabled = some fd) :
    (∀ n, c.looksUp enabled = some n → 0 ≤ n) ↔ 0 ≤ fd := by
  rw [hlook]
  simp

theorem agrees_setfl {fd : ℤ} {arg : Flags} {v : Verdict} :
    Agrees raw s (enabled, .setfl fd arg v) ↔ Quiet raw s (enabled, .setfl fd arg v) := by
  rw [Quiet, looksUp_iff fd rfl]
  obtain ⟨hpos, hget⟩ | ⟨hneg, hget⟩ := s.get_cases fd
  · simp only [hpos, true_and, Agrees, LeavesAlone, Call.hooked, setfl, hget, State.socketCtx?, unhooked, Call.direct]
    cases socketCtx (s.fdMgr.get fd.toNat) with
    | none => simp [performed]
    | some c =>
        simp only [Option.some.injEq, forall_eq', seen_pass, performed, Outcome.next.injEq]
        cases v with
        | refuse e => simp [setfl_f]
        | allow =>
            cases hid : s.kernel.fileOf fd with
            | none => simp [setfl_f, hid]
            | some id => simp [setfl_f, hid, setFlags_inj, setfl_setNonblock_eq]
  · exact iff_of_false (not_agrees_of_abort (by rw [Call.hooked, setfl, hget])) fun hquiet => hneg hquiet.1

theorem agrees_getfl {fd : ℤ} {v : Verdict} :
    Agrees raw s (enabled, .getfl fd v) ↔ Quiet raw s (enabled, .getfl fd v) := by
  rw [Quiet, looksUp_iff fd rfl]
  obtain ⟨hpos, hget⟩ | ⟨hneg, hget⟩ := s.get_cases fd
  · simp only [hpos, true_and, Agrees, LeavesAlone, Call.hooked, getfl, hget, State.socketCtx?, unhooked, Call.direct]
    cases socketCtx (s.fdMgr.get fd.toNat) with
    | none => simp [performed, seen]
    | some c =>
        have hword := getfl_f_value (k := s.kernel) fd v
        simp only [Option.some.injEq, forall_eq', seen, performed, Outcome.next.injEq, Prod.mk.injEq, and_true,
          ← Flags.setNonblock_eq_self, ← BitVec.toInt_inj, hword]
        constructor
        · intro h
          exact congrArg Ret.value h
        · intro h
          rw [h]
  · exact iff_of_false (not_agrees_of_abort (by rw [Call.hooked, getfl, hget])) fun hquiet => hneg hquiet.1

theorem agrees_fionbio {d : ℤ} {arg : Option (BitVec 32)} {v : Verdict} :
    Agrees raw s (enabled, .fionbio d arg v) ↔ Quiet raw s (enabled, .fionbio d arg v) := by
  rw [Quiet, looksUp_iff d rfl]
  cases arg with
  | none =>
      exact iff_of_false (not_agrees_of_abort rfl) fun hquiet => hquiet.2 rfl
  | some n =>
      obtain ⟨hpos, hget⟩ | ⟨hneg, hget⟩ := s.get_cases d
      · simp only [hpos, true_and, Agrees, LeavesAlone, Call.hooked, fionbio, hget, unhooked, Call.direct]
        cases socketCtx (s.fdMgr.get d.toNat) with
        | none => simp [performed]
        | some c => simp [performed, State.setCtx]
      · have habort : (Call.fionbio d (some n) v).hooked raw enabled s = .abort .outOfTable := by
          simp only [Call.hooked, fionbio, hget]
        exact iff_of_false (not_agrees_of_abort habort) fun hquiet => hneg hquiet.1

theorem agrees_fcntl {fd : ℤ} {cmd : ControlCmd} :
    Agrees raw s (enabled, .fcntl fd cmd) ↔ Quiet raw s (enabled, .fcntl fd cmd) := by
  simp [Agrees, Quiet, Call.hooked, fcntl, unhooked, Call.direct, performed, Call.looksUp, LeavesAlone, controlCall_eq_iff]

/-! ### Exactness -/

/-- A call agrees with the raw function exactly where it looks up no negative descriptor and nothing it adds shows. -/
theorem agrees_iff_quiet {a : Action R} (h : Bare s a) : Agrees raw s a ↔ Quiet raw s a := by
  obtain ⟨enabled, c⟩ := a
  cases c with
  | connect fd args awaited => exact agrees_connect h
  | accept sockfd fd v p => exact agrees_accept h
  | io f fd args awaited => exact agrees_io h
  | close fd freed v => exact agrees_close h
  | setsockopt fd opt => exact agrees_setsockopt h
  | setfl fd arg v => exact agrees_setfl
  | getfl fd v => exact agrees_getfl
  | fionbio d arg v => exact agrees_fionbio
  | fcntl fd cmd => exact agrees_fcntl
  | dupfd fd arg fd' v => simp [Agrees, Quiet, Call.hooked, dupfd, unhooked, Call.direct, Call.looksUp, LeavesAlone]
  | ioctl d request arg =>
      simp [Agrees, Quiet, Call.hooked, ioctl, unhooked, Call.direct, performed, Call.looksUp, LeavesAlone]
  | getsockopt sockfd level optname =>
      simp [Agrees, Quiet, Call.hooked, getsockopt, unhooked, Call.direct, performed, Call.looksUp, LeavesAlone]
  | _ =>
      obtain rfl : enabled = false := by simpa [Bare, Call.fd?] using h
      simp [Agrees, Quiet, Call.hooked, EntryPoint.sleep, EntryPoint.usleep, EntryPoint.nanosleep, sleepCall,
        EntryPoint.socket, unhooked, Call.direct, performed, Call.looksUp, LeavesAlone]

/-- Every call of a run is transparent exactly where every call of it passes through. -/
theorem transparent_iff_passesThrough (raw : RawCalls R) (s : State R) (calls : List (Action R)) :
    Along (step raw) (Transparent raw) s calls ↔ Along (step raw) (PassesThrough raw) s calls :=
  along_congr (I := fun _ => True) (fun _ _ _ _ _ => trivial) (fun _ _ _ => forall_congr' agrees_iff_quiet) trivial calls

/-- A kernel in which descriptor 3 is a socket in blocking mode. -/
def listening : Kernel Unit where
  fds := fun fd => if fd = 3 then some 0 else none
  files := fun _ => ⟨true, O_RDWR⟩
  nextFile := 1
  rest := ()
  fresh := by
    intro fd id h
    split at h
    · obtain rfl : 0 = id := by simpa using h
      exact Nat.zero_lt_one
    · cases h

/-- Raw calls that succeed; `fcntl` returns whether it was handed an argument. -/
def accepting : RawCalls Unit where
  control
    | .fcntl _ (.other _ arg), _ => (.ok (if arg.isSome then 1 else 0), ())
    | _, _ => (.ok 0, ())
  waiting := fun _ k => (.ok 0, k)

/-- Three calls that are not transparent: `accept` on a thread without hooks, `connect` on a socket without a context, and an `fcntl` whose command the hook does not list. -/
theorem hooks_show :
    ¬ Along (step accepting) (Transparent accepting) (start listening)
        [(false, .accept 3 4 .allow ⟨.allow, .allow, .allow⟩)] ∧
      ¬ Along (step accepting) (Transparent accepting) (start listening) [(true, .connect 3 [] (.ok 0, listening))] ∧
      ¬ Along (step accepting) (Transparent accepting) (start listening) [(false, .fcntl 3 (.other 1033 (some 1)))] := by
  simp only [along_singleton, Transparent]
  refine ⟨?_, ?_, ?_⟩
  · intro h
    have hbare : Bare (start listening) (false, (.accept 3 4 .allow ⟨.allow, .allow, .allow⟩ : Call Unit)) := Or.inl rfl
    have hquiet := (agrees_iff_quiet hbare).1 (h hbare)
    exact hquiet.2 ⟨rfl, by simp [start, listening, Kernel.fileOf], rfl, rfl, rfl⟩
  · intro h
    have hbare : Bare (start listening) (true, (.connect 3 [] (.ok 0, listening) : Call Unit)) :=
      Or.inr ⟨3, rfl, by
        intro ctx hctx
        cases hctx⟩
    have hquiet := (agrees_iff_quiet hbare).1 (h hbare)
    exact absurd (congrArg (fun r : Ret × Kernel Unit => r.1.value) (hquiet.2 rfl)) (by decide)
  · intro h
    have hbare : Bare (start listening) (false, (.fcntl 3 (.other 1033 (some 1)) : Call Unit)) := Or.inl rfl
    have hquiet := (agrees_iff_quiet hbare).1 (h hbare)
    exact absurd (congrArg (fun r : Ret × Unit => r.1.value) hquiet.2) (by decide)

end Awcotn.EntryPoint
