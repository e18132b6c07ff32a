import Awcotn.EntryPoint.Steps

/-!
# Blocking modes

A tracked socket has three flags: the kernel's `O_NONBLOCK`, the context's `m_sysNonblock`, which says what the kernel's is meant to be, and `m_userNonblock`, which is what the user believes. `socket`, `fcntl` and `ioctl` each write some of them and return the kernel's error after they have written.

`asked` is the last successful request of the user for a descriptor. The flags agree if the kernel's is as `m_sysNonblock` says and `F_GETFL` reports what was asked.
-/

namespace Awcotn.EntryPoint

open Transition

variable {R : Type*}

/-! ### Runs -/

def Call.setsModes : Call R → Bool
  | .socket .. | .accept .. | .setfl .. | .getfl .. | .fionbio .. | .close .. => true
  | _ => false

/-- A call that makes or ends a descriptor, or is about its mode. -/
abbrev ModeCall (R : Type*) := {c : Call R // c.setsModes = true}

/-- The program, and what the user has last asked for. -/
structure Asked (R : Type*) where
  state : State R
  asked : ℕ → Bool

namespace Asked

/-- `asked` after a call that has returned `ret`. -/
def asks (s : Asked R) (ret : Ret) (c : Call R) (n : ℕ) : Bool :=
  if ret.errno = none then
    match c with
    | .socket type .. => if ret.value = n then type.nonblock else s.asked n
    | .accept .. => if ret.value = n then false else s.asked n
    | .setfl fd arg _ => if fd = n then arg.nonblock else s.asked n
    | .fionbio d (some v) _ => if d = n then v ≠ 0 else s.asked n
    | _ => s.asked n
  else s.asked n

/-- A call on a thread with hooks. -/
def step (raw : RawCalls R) (s : Asked R) (c : ModeCall R) : Outcome Crash (Asked R) :=
  match c.val.hooked raw true s.state with
  | .next (ret, t) => .next ⟨t, s.asks ret c.val⟩
  | .abort e => .abort e
  | .disabled => .disabled

def start (k : Kernel R) : Asked R := ⟨EntryPoint.start k, fun _ => false⟩

end Asked

/-! ### The property and the condition -/

/-- The flags of one descriptor agree, if it is an open socket with a context. -/
def AgreesAt (s : Asked R) (n : ℕ) : Prop :=
  ∀ ctx file, s.state.fdMgr.get n = some ctx → s.state.kernel.file? n = some file → file.isSocket = true →
    file.flags.nonblock = ctx.sysNonblock ∧
      ∀ ret t, getfl s.state n .allow = .next (ret, t) → Flags.nonblock (BitVec.ofInt 32 ret.value) = s.asked n

def FlagsAgree (s : Asked R) : Prop := ∀ n, AgreesAt s n

/-- `FdCtx::init` does not take a descriptor for a socket and fail to put it in non-blocking mode. -/
def Probe.completes (p : Probe) : Prop := p.fstat = .allow → p.getfl = .allow ∧ p.setfl = .allow

/-- The condition on a call. A new socket is asked for in blocking mode, and `FdCtx::init` completes. A request on a tracked socket is refused only where it changes nothing, and `FIONBIO` asks for non-blocking mode. A request on a socket whose context was made while `fstat` failed asks for blocking mode. -/
def KeepsFlags (s : Asked R) (c : ModeCall R) : Prop :=
  match c.val with
  | .socket type fd .allow p => s.state.kernel.fds fd = none → type.nonblock = false ∧ p.completes
  | .accept sockfd fd .allow p =>
    s.state.kernel.fileOf sockfd ≠ none → s.state.kernel.fds fd = none → p.completes
  | .setfl fd arg v => ∀ ctx, s.state.get fd = .ok (some ctx) →
      if ctx.isSocket then v = .allow ∨ arg.nonblock = ctx.userNonblock else v = .allow → arg.nonblock = false
  | .fionbio d (some n) v => ∀ ctx, s.state.get d = .ok (some ctx) →
      if ctx.isSocket then (if v = .allow then n ≠ 0 else (n ≠ 0 ↔ ctx.userNonblock = true)) else v = .allow → n = 0
  | _ => True

/-! ### What is seen of one descriptor -/

/-- The context, the open file and the last request of a descriptor. -/
def view (s : Asked R) (n : ℕ) : Option FdCtx × Option File × Bool :=
  (s.state.fdMgr.get n, s.state.kernel.file? n, s.asked n)

/-- `AgreesAt` in terms of what is seen. -/
def Agreeing : Option FdCtx × Option File × Bool → Prop
  | (some ctx, some file, asked) => file.isSocket = true →
      file.flags.nonblock = ctx.sysNonblock ∧ (if ctx.isSocket then ctx.userNonblock else file.flags.nonblock) = asked
  | _ => True

/-- The invariant. A context belongs to an open socket that no other number refers to, and says of a socket that it is to be in non-blocking mode. -/
structure ModesInv (s : Asked R) : Prop where
  sized : 2 ≤ s.state.fdMgr.datas.length
  opened : ∀ n ctx, s.state.fdMgr.get n = some ctx → ctx.isClosed = false
  sys : ∀ n ctx, s.state.fdMgr.get n = some ctx → ctx.sysNonblock = ctx.isSocket
  backed : ∀ n, s.state.fdMgr.get n ≠ none → ∃ id, s.state.kernel.fds n = some id ∧
    (s.state.kernel.files id).isSocket = true ∧ ∀ m, s.state.kernel.fds m = some id → m = n

variable {s t : Asked R}

theorem agreesAt_iff (hs : ModesInv s) (n : ℕ) : AgreesAt s n ↔ Agreeing (view s n) := by
  unfold AgreesAt view
  cases hctx : s.state.fdMgr.get n with
  | none => simp [Agreeing]
  | some ctx =>
      cases hfile : s.state.kernel.file? n with
      | none => simp [Agreeing]
      | some file =>
          rw [getfl_allow hctx (hs.opened n ctx hctx) hfile]
          cases hsocket : ctx.isSocket with
          | true => simp [Agreeing, hsocket, Ret.ok]
          | false => simp [Agreeing, hsocket, Ret.ok]

/-- Where a call changes the view of one tracked descriptor at most, the flags of that one decide. -/
theorem flagsAgree_iff (hs : ModesInv s) (ht : ModesInv t) (hagree : FlagsAgree s) (n : ℕ)
    (hframe : ∀ m, m ≠ n → t.state.fdMgr.get m ≠ none → view t m = view s m) :
    FlagsAgree t ↔ Agreeing (view t n) := by
  constructor
  · intro h
    exact (agreesAt_iff ht n).1 (h n)
  · intro h m
    rw [agreesAt_iff ht]
    by_cases heq : m = n
    · rwa [heq]
    · cases hctx : t.state.fdMgr.get m with
      | none => simp [view, hctx, Agreeing]
      | some ctx =>
          rw [hframe m heq (by simp [hctx])]
          exact (agreesAt_iff hs m).1 (hagree m)

/-! ### A new descriptor -/

theorem ModesInv.get_free (hs : ModesInv s) {n : ℕ} (h : s.state.kernel.fds n = none) : s.state.fdMgr.get n = none := by
  by_contra hget
  obtain ⟨id, hid, _⟩ := hs.backed n hget
  rw [h] at hid
  cases hid

theorem opened_spec (hs : ModesInv s) {fd : ℕ} (hfree : s.state.kernel.fds fd = none) (flags : Flags) (p : Probe)
    {u : State R} (hu : u = getAutoCreate { s.state with kernel := s.state.kernel.install fd ⟨true, flags⟩ } fd p)
    {asked : ℕ → Bool} (hasked : ∀ m, m ≠ fd → asked m = s.asked m) :
    ModesInv ⟨u, asked⟩ ∧ (∀ m, m ≠ fd → view ⟨u, asked⟩ m = view s m) ∧
      ∃ f : Flags, view ⟨u, asked⟩ fd =
          (some (.new (if p.fstat = .allow then some true else none)), some ⟨true, f⟩, asked fd) ∧
        f.nonblock = (flags.nonblock || decide (p = ⟨.allow, .allow, .allow⟩)) := by
  subst hu
  obtain ⟨f, hfiles, hblock⟩ := initKernel_install s.state.kernel fd flags p
  have hnone := hs.get_free hfree
  have hget := FdManager.get_create hs.sized fd (if p.fstat = .allow then some true else none)
  have hlength := FdManager.length_le_create (m := s.state.fdMgr) fd (if p.fstat = .allow then some true else none)
  simp only [getAutoCreate, hnone, fstat_install]
  have hfds : ∀ m, (initKernel (s.state.kernel.install fd ⟨true, flags⟩) fd p).fds m =
      if m = fd then some s.state.kernel.nextFile else s.state.kernel.fds m := by
    intro m
    rw [initKernel_fds, install_fds]
  -- an old descriptor's file is not the new one
  have hold : ∀ m id, s.state.kernel.fds m = some id →
      (initKernel (s.state.kernel.install fd ⟨true, flags⟩) fd p).files id = s.state.kernel.files id := by
    intro m id hid
    have := s.state.kernel.fresh m id hid
    rw [hfiles, Function.update_of_ne (by omega)]
  refine ⟨⟨hs.sized.trans hlength, ?_, ?_, ?_⟩, ?_, f, ?_, hblock⟩
  · intro n ctx hn
    rw [hget] at hn
    split at hn
    · obtain rfl := Option.some.inj hn
      rfl
    · exact hs.opened n ctx hn
  · intro n ctx hn
    rw [hget] at hn
    split at hn
    · obtain rfl := Option.some.inj hn
      rfl
    · exact hs.sys n ctx hn
  · intro n hn
    by_cases heq : n = fd
    · subst heq
      refine ⟨s.state.kernel.nextFile, (hfds n).trans (if_pos rfl), by rw [hfiles, Function.update_self], ?_⟩
      intro m hm
      by_contra hne
      rw [hfds, if_neg hne] at hm
      exact Nat.lt_irrefl _ (s.state.kernel.fresh m _ hm)
    · rw [hget, if_neg heq] at hn
      obtain ⟨id, hid, hsocket, hsole⟩ := hs.backed n hn
      refine ⟨id, (hfds n).trans ((if_neg heq).trans hid), by rw [hold n id hid]; exact hsocket, ?_⟩
      intro m hm
      rw [hfds] at hm
      split at hm
      · have := s.state.kernel.fresh n id hid
        have := Option.some.inj hm
        omega
      · exact hsole m hm
  · intro m hm
    rw [view, view, hget, if_neg hm]
    dsimp only
    rw [hasked m hm]
    congr 2
    have hfileOf : (initKernel (s.state.kernel.install fd ⟨true, flags⟩) fd p).fds m = s.state.kernel.fds m :=
      (hfds m).trans (if_neg hm)
    cases hid : s.state.kernel.fds m with
    | none => simp [Kernel.file?, Kernel.fileOf, hfileOf, hid]
    | some id => rw [file?_of_fds hid, file?_of_fds (hfileOf.trans hid), hold m id hid]
  · rw [view, hget, if_pos rfl, file?_of_fds ((hfds fd).trans (if_pos rfl)), hfiles, Function.update_self]

/-- The flags of a new descriptor agree if it was asked for in blocking mode and `FdCtx::init` completes. -/
theorem agreeing_opened_iff (flags : Flags) (p : Probe) {f : Flags}
    (hf : f.nonblock = (flags.nonblock || decide (p = ⟨.allow, .allow, .allow⟩))) :
    Agreeing (some (.new (if p.fstat = .allow then some true else none)), some ⟨true, f⟩, flags.nonblock) ↔
      flags.nonblock = false ∧ p.completes := by
  obtain ⟨fstatV, getflV, setflV⟩ := p
  simp only [Agreeing, hf, Probe.completes, true_implies]
  cases fstatV with
  | refuse e => simp [FdCtx.new]
  | allow =>
      cases flags.nonblock with
      | true => simp [FdCtx.new]
      | false => simp [FdCtx.new]

/-! ### A request -/

/-- What a request for a mode does: it may change the flags of the descriptor's file, what its context says of the user, and what was asked for it. -/
structure Configures (s t : Asked R) (fd : ℤ) : Prop where
  retags : Retags s.state.kernel t.state.kernel fd
  sized : t.state.fdMgr.datas.length = s.state.fdMgr.datas.length
  get : ∀ n : ℕ, fd ≠ n → t.state.fdMgr.get n = s.state.fdMgr.get n
  user : ∀ (n : ℕ) ctx, t.state.fdMgr.get n = some ctx →
    ∃ old, s.state.fdMgr.get n = some old ∧ ctx = { old with userNonblock := ctx.userNonblock }
  asked : ∀ n : ℕ, fd ≠ n → t.asked n = s.asked n

theorem Retags.isSocket {k k' : Kernel R} {fd : ℤ} (h : Retags k k' fd) (id : ℕ) :
    (k'.files id).isSocket = (k.files id).isSocket := by
  obtain rfl | ⟨id', f, _, rfl⟩ := h
  · rfl
  · by_cases heq : id = id'
    · subst heq
      simp [Kernel.setFlags]
    · simp [Kernel.setFlags, heq]

theorem Retags.files {k k' : Kernel R} {fd : ℤ} (h : Retags k k' fd) {id : ℕ} (hne : k.fileOf fd ≠ some id) :
    k'.files id = k.files id := by
  obtain rfl | ⟨id', f, hid, rfl⟩ := h
  · rfl
  · have : id ≠ id' := by
      rintro rfl
      exact hne hid
    simp [Kernel.setFlags, this]

theorem Configures.modesInv {fd : ℤ} (h : Configures s t fd) (hs : ModesInv s) : ModesInv t where
  sized := hs.sized.trans h.sized.ge
  opened := by
    intro n ctx hn
    obtain ⟨old, hold, heq⟩ := h.user n ctx hn
    rw [heq]
    exact hs.opened n old hold
  sys := by
    intro n ctx hn
    obtain ⟨old, hold, heq⟩ := h.user n ctx hn
    rw [heq]
    exact hs.sys n old hold
  backed := by
    intro n hn
    obtain ⟨ctx, hctx⟩ := Option.ne_none_iff_exists'.1 hn
    obtain ⟨old, hold, _⟩ := h.user n ctx hctx
    obtain ⟨id, hid, hsocket, hsole⟩ := hs.backed n (by simp [hold])
    rw [h.retags.fds]
    exact ⟨id, hid, (h.retags.isSocket id).trans hsocket, hsole⟩

/-- A tracked descriptor shares its file with no other, so a request on another number does not reach it. -/
theorem Configures.frame {fd : ℤ} (h : Configures s t fd) (hs : ModesInv s) {n : ℕ} (hne : fd ≠ n)
    (htracked : t.state.fdMgr.get n ≠ none) : view t n = view s n := by
  rw [h.get n hne] at htracked
  obtain ⟨id, hid, _, hsole⟩ := hs.backed n htracked
  have hother : s.state.kernel.fileOf fd ≠ some id := by
    intro heq
    cases fd with
    | negSucc m => cases heq
    | ofNat m => exact hne (congrArg Int.ofNat (hsole m heq))
  have hid' : t.state.kernel.fds n = some id := (congrFun h.retags.fds n).trans hid
  rw [view, view, h.get n hne, h.asked n hne, file?_of_fds hid, file?_of_fds hid', h.retags.files hother]

/-- After a request the flags agree if those of the descriptor it was made on do. -/
theorem Configures.flagsAgree_iff {fd : ℕ} (h : Configures s t fd) (hs : ModesInv s) (hagree : FlagsAgree s) :
    FlagsAgree t ↔ Agreeing (view t fd) :=
  EntryPoint.flagsAgree_iff hs (h.modesInv hs) hagree fd fun _ hm htracked =>
    h.frame hs (fun heq => hm (Int.ofNat_inj.1 heq).symm) htracked

theorem agreeing_some {c : FdCtx} {file : File} {asked : Bool} (h : file.isSocket = true) :
    Agreeing (some c, some file, asked) ↔
      file.flags.nonblock = c.sysNonblock ∧ (if c.isSocket then c.userNonblock else file.flags.nonblock) = asked := by
  simp [Agreeing, h]

/-- The raw call of a request leaves a context alone, or writes what the user asked for into it. -/
theorem configures_pass {fd : ℤ} {u : State R} {asked : ℕ → Bool} (hr : Retags s.state.kernel u.kernel fd)
    (hmgr : u.fdMgr = s.state.fdMgr) (hasked : ∀ n : ℕ, fd ≠ n → asked n = s.asked n) : Configures s ⟨u, asked⟩ fd where
  retags := hr
  sized := by rw [hmgr]
  get := fun n _ => by rw [hmgr]
  user := fun n ctx hn => ⟨ctx, by rwa [hmgr] at hn, rfl⟩
  asked := hasked

theorem configures_set {n : ℕ} {c : FdCtx} {v : Bool} {u : State R} {asked : ℕ → Bool}
    (hr : Retags s.state.kernel u.kernel n) (hget : s.state.fdMgr.get n = some c)
    (hmgr : u.fdMgr = s.state.fdMgr.set n { c with userNonblock := v })
    (hasked : ∀ m : ℕ, (n : ℤ) ≠ m → asked m = s.asked m) : Configures s ⟨u, asked⟩ n where
  retags := hr
  sized := by rw [hmgr, FdManager.length_set]
  get := by
    intro m hm
    have hne : ¬ m = n := fun heq => hm (congrArg Int.ofNat heq.symm)
    rw [hmgr, FdManager.get_set (by simp [hget]), if_neg hne]
  user := by
    intro m ctx hm
    rw [hmgr, FdManager.get_set (by simp [hget])] at hm
    split at hm
    · next heq =>
        obtain rfl := Option.some.inj hm
        exact ⟨c, by rw [heq, hget], rfl⟩
    · exact ⟨ctx, hm, rfl⟩
  asked := hasked

/-! ### One function after another -/

variable {ret : Ret} {u : State R}

theorem ModesInv.socketCtx_none (hs : ModesInv s) {n : ℕ} {c : FdCtx} (hget : s.state.fdMgr.get n = some c)
    (h : socketCtx (s.state.fdMgr.get n) = none) : c.isSocket = false := by
  rw [hget, socketCtx_some (hs.opened n c hget)] at h
  simpa using h

/-- The flags of a tracked descriptor, before and after a request. -/
theorem ModesInv.agreeing (hs : ModesInv s) {n : ℕ} {c : FdCtx} (hget : s.state.fdMgr.get n = some c) (hagree : FlagsAgree s) :
    ∃ id, s.state.kernel.fds n = some id ∧ (s.state.kernel.files id).isSocket = true ∧
      (s.state.kernel.files id).flags.nonblock = c.isSocket ∧
        (if c.isSocket then c.userNonblock else (s.state.kernel.files id).flags.nonblock) = s.asked n := by
  obtain ⟨id, hid, hfsocket, _⟩ := hs.backed n (by simp [hget])
  have hold := (agreesAt_iff hs n).1 (hagree n)
  rw [view, hget, file?_of_fds hid, agreeing_some hfsocket, hs.sys n c hget] at hold
  exact ⟨id, hid, hfsocket, hold⟩

/-- A request for `req` on a descriptor whose context, if it has one, is not a socket's: it reaches the kernel as it is. -/
theorem plain_request (hs : ModesInv s) (hagree : FlagsAgree s) {n : ℕ} {v : Verdict} {req : Bool} {asked : ℕ → Bool}
    (hkernel : Performs s.state.kernel u.kernel n v ret req) (hmgr : u.fdMgr = s.state.fdMgr)
    (hn : asked n = if ret.errno = none then req else s.asked n) (hconf : Configures s ⟨u, asked⟩ n)
    (hplain : ∀ c, s.state.fdMgr.get n = some c → c.isSocket = false) :
    FlagsAgree ⟨u, asked⟩ ↔ ∀ c, s.state.fdMgr.get n = some c → v = .allow → req = false := by
  rw [hconf.flagsAgree_iff hs hagree]
  cases hget : s.state.fdMgr.get n with
  | none => simp [view, hmgr, hget, Agreeing]
  | some c =>
      have hsocket := hplain c hget
      have hsys := (hs.sys n c hget).trans hsocket
      obtain ⟨id, hid, hfsocket, hflag, hreport⟩ := hs.agreeing hget hagree
      obtain ⟨e, rfl, rfl, hk⟩ | ⟨_, hnone, _⟩ | ⟨rfl, rfl, id', f, hid', hf, hk⟩ := hkernel
      · have hview : view ⟨u, asked⟩ n = (some c, some (s.state.kernel.files id), s.asked n) := by
          simp [view, hmgr, hget, hk, file?_of_fds hid, hn, Ret.fail]
        rw [hview, agreeing_some hfsocket]
        simpa [hsys, hsocket, hflag] using hreport
      · rw [hid] at hnone
        cases hnone
      · have hview : view ⟨u, asked⟩ n = (some c, some { s.state.kernel.files id' with flags := f }, req) := by
          simp [view, hmgr, hget, hk, file?_setFlags hid', hn, Ret.ok]
        obtain rfl : id = id' := Option.some.inj (hid.symm.trans hid')
        rw [hview]
        simp [Agreeing, hfsocket, hsys, hsocket, hf]

/-- A request for `req` on a socket: the context notes it, and the kernel's flag becomes `mode` if the raw call succeeds. -/
theorem socket_request (hs : ModesInv s) (hagree : FlagsAgree s) {n : ℕ} {c : FdCtx} {v : Verdict} {req mode : Bool}
    {asked : ℕ → Bool} (hkernel : Performs s.state.kernel u.kernel n v ret mode) (hget : s.state.fdMgr.get n = some c)
    (hset : u.fdMgr.get n = some { c with userNonblock := req }) (hn : asked n = if ret.errno = none then req else s.asked n)
    (hconf : Configures s ⟨u, asked⟩ n) (hsocket : c.isSocket = true) :
    FlagsAgree ⟨u, asked⟩ ↔ if v = .allow then mode = true else req = c.userNonblock := by
  have hsys := (hs.sys n c hget).trans hsocket
  obtain ⟨id, hid, hfsocket, hflag, hreport⟩ := hs.agreeing hget hagree
  rw [if_pos hsocket] at hreport
  rw [hconf.flagsAgree_iff hs hagree]
  obtain ⟨e, rfl, rfl, hk⟩ | ⟨_, hnone, _⟩ | ⟨rfl, rfl, id', f, hid', hf, hk⟩ := hkernel
  · have hview : view ⟨u, asked⟩ n =
        (some { c with userNonblock := req }, some (s.state.kernel.files id), c.userNonblock) := by
      simp [view, hset, hk, file?_of_fds hid, hn, Ret.fail, hreport]
    rw [hview, agreeing_some hfsocket]
    simp [hsys, hsocket, hflag]
  · rw [hid] at hnone
    cases hnone
  · have hview : view ⟨u, asked⟩ n =
        (some { c with userNonblock := req }, some { s.state.kernel.files id' with flags := f }, req) := by
      simp [view, hset, hk, file?_setFlags hid', hn, Ret.ok]
    obtain rfl : id = id' := Option.some.inj (hid.symm.trans hid')
    rw [hview]
    simp [Agreeing, hfsocket, hsys, hsocket, hf]

theorem setfl_spec (hs : ModesInv s) {fd : ℤ} {arg : Flags} {v : Verdict} (h : setfl s.state fd arg v = .next (ret, u))
    (hmode : (Call.setfl fd arg v : Call R).setsModes = true) :
    ModesInv ⟨u, s.asks ret (.setfl fd arg v)⟩ ∧
      (FlagsAgree s → (FlagsAgree ⟨u, s.asks ret (.setfl fd arg v)⟩ ↔ KeepsFlags s ⟨.setfl fd arg v, hmode⟩)) := by
  have hasked : ∀ m : ℕ, fd ≠ m → s.asks ret (.setfl fd arg v) m = s.asked m := by
    intro m hm
    simp [Asked.asks, hm]
  obtain ⟨hpos, hcases⟩ := setfl_eq_next h
  obtain ⟨n, rfl⟩ := Int.eq_ofNat_of_zero_le hpos
  have hlook : s.state.get n = .ok (s.state.fdMgr.get n) := rfl
  have hn : s.asks ret (.setfl n arg v) n = if ret.errno = none then arg.nonblock else s.asked n := by simp [Asked.asks]
  simp only [Int.toNat_natCast] at hcases
  obtain ⟨hnone, hret, hu⟩ | ⟨c, hget, _, hsocket, hret, hu⟩ := hcases
  · have hkernel : Performs s.state.kernel u.kernel n v ret arg.nonblock := by
      rw [hu, hret]
      exact setfl_f_performs _ n arg v
    have hmgr : u.fdMgr = s.state.fdMgr := by rw [hu]
    have hconf := configures_pass hkernel.retags hmgr hasked
    have hplain : ∀ c, s.state.fdMgr.get n = some c → c.isSocket = false := fun c hget => hs.socketCtx_none hget hnone
    refine ⟨hconf.modesInv hs, fun hagree => (plain_request hs hagree hkernel hmgr hn hconf hplain).trans ?_⟩
    simp only [KeepsFlags, hlook, Except.ok.injEq]
    refine forall_congr' fun c => forall_congr' fun hget => ?_
    simp [hplain c hget]
  · have hkernel : Performs s.state.kernel u.kernel n v ret c.sysNonblock := by
      rw [hu, hret]
      simpa using setfl_f_performs s.state.kernel n (arg.setNonblock c.sysNonblock) v
    have hconf := configures_set (u := u) hkernel.retags hget (by rw [hu]; rfl) hasked
    have hset : u.fdMgr.get n = some { c with userNonblock := arg.nonblock } := by
      rw [hu]
      exact get_setCtx hget _
    refine ⟨hconf.modesInv hs, fun hagree => (socket_request hs hagree hkernel hget hset hn hconf hsocket).trans ?_⟩
    have hsys := (hs.sys n c hget).trans hsocket
    simp only [KeepsFlags, hlook, Except.ok.injEq, hget, Option.some.injEq, forall_eq', hsocket, if_true, hsys]
    by_cases hv : v = .allow
    · simp [hv]
    · simp [hv]

theorem fionbio_spec (hs : ModesInv s) {d : ℤ} {arg : Option (BitVec 32)} {v : Verdict}
    (h : fionbio s.state d arg v = .next (ret, u)) (hmode : (Call.fionbio d arg v : Call R).setsModes = true) :
    ModesInv ⟨u, s.asks ret (.fionbio d arg v)⟩ ∧
      (FlagsAgree s → (FlagsAgree ⟨u, s.asks ret (.fionbio d arg v)⟩ ↔ KeepsFlags s ⟨.fionbio d arg v, hmode⟩)) := by
  obtain ⟨hpos, req, rfl, hret, hcases⟩ := fionbio_eq_next h
  obtain ⟨n, rfl⟩ := Int.eq_ofNat_of_zero_le hpos
  have hasked : ∀ m : ℕ, (n : ℤ) ≠ m → s.asks ret (.fionbio n (some req) v) m = s.asked m := by
    intro m hm
    simp [Asked.asks, hm]
  have hlook : s.state.get n = .ok (s.state.fdMgr.get n) := rfl
  have hn : s.asks ret (.fionbio n (some req) v) n = if ret.errno = none then decide (req ≠ 0) else s.asked n := by
    simp [Asked.asks]
  have hkernel : Performs s.state.kernel u.kernel n v ret (req ≠ 0) := by
    have hk : u.kernel = (fionbio_f s.state.kernel n (some req) v).2 := by
      obtain ⟨_, hu⟩ | ⟨_, _, _, _, hu⟩ := hcases
      · rw [hu]
      · rw [hu]
    rw [hk, hret]
    exact fionbio_f_performs _ n req v
  simp only [Int.toNat_natCast] at hcases
  obtain ⟨hnone, hu⟩ | ⟨c, hget, _, hsocket, hu⟩ := hcases
  · have hmgr : u.fdMgr = s.state.fdMgr := by rw [hu]
    have hconf := configures_pass hkernel.retags hmgr hasked
    have hplain : ∀ c, s.state.fdMgr.get n = some c → c.isSocket = false := fun c hget => hs.socketCtx_none hget hnone
    refine ⟨hconf.modesInv hs, fun hagree => (plain_request hs hagree hkernel hmgr hn hconf hplain).trans ?_⟩
    simp only [KeepsFlags, hlook, Except.ok.injEq]
    refine forall_congr' fun c => forall_congr' fun hget => ?_
    simp [hplain c hget]
  · have hconf := configures_set (u := u) (v := decide (req ≠ 0)) hkernel.retags hget (by rw [hu]; rfl) hasked
    have hset : u.fdMgr.get n = some { c with userNonblock := decide (req ≠ 0) } := by
      rw [hu]
      exact get_setCtx hget _
    refine ⟨hconf.modesInv hs, fun hagree => (socket_request hs hagree hkernel hget hset hn hconf hsocket).trans ?_⟩
    simp only [KeepsFlags, hlook, Except.ok.injEq, hget, Option.some.injEq, forall_eq', hsocket, if_true]
    by_cases hv : v = .allow
    · simp [hv]
    · rw [if_neg hv, if_neg hv]
      cases c.userNonblock with
      | true => simp
      | false => simp

/-- A call that fails changes nothing. -/
theorem asks_of_fail (e : Errno) (c : Call R) : s.asks (.fail e) c = s.asked := by
  funext n
  simp [Asked.asks, Ret.fail]

theorem socket_spec (hs : ModesInv s) {type : Flags} {fd : ℕ} {v : Verdict} {p : Probe}
    (h : socket true s.state type fd v p = .next (ret, u)) (hmode : (Call.socket type fd v p : Call R).setsModes = true) :
    ModesInv ⟨u, s.asks ret (.socket type fd v p)⟩ ∧
      (FlagsAgree s → (FlagsAgree ⟨u, s.asks ret (.socket type fd v p)⟩ ↔ KeepsFlags s ⟨.socket type fd v p, hmode⟩)) := by
  obtain ⟨e, rfl, rfl, rfl⟩ | ⟨rfl, hfree, rfl, file, rfl, hu⟩ := socket_eq_next h
  · rw [asks_of_fail]
    exact ⟨hs, fun hagree => ⟨fun _ => trivial, fun _ => hagree⟩⟩
  · have hasked : ∀ m, m ≠ fd → s.asks (.ok fd) (.socket type fd .allow p) m = s.asked m := by
      intro m hm
      simp [Asked.asks, Ret.ok, Ne.symm hm]
    have hflag : (O_RDWR.setNonblock type.nonblock).nonblock = type.nonblock := Flags.nonblock_setNonblock _ _
    have hnew : s.asks (.ok fd) (.socket type fd .allow p) fd = (O_RDWR.setNonblock type.nonblock).nonblock := by
      simp [Asked.asks, Ret.ok]
    obtain ⟨ht, hframe, f, hview, hf⟩ := opened_spec hs hfree _ p hu hasked
    refine ⟨ht, fun hagree => ?_⟩
    rw [flagsAgree_iff hs ht hagree fd fun m hm _ => hframe m hm, hview, hnew, agreeing_opened_iff _ p hf, hflag]
    simp [KeepsFlags, hfree]

theorem accept_spec (hs : ModesInv s) {sockfd : ℤ} {fd : ℕ} {v : Verdict} {p : Probe}
    (h : accept true s.state sockfd fd v p = .next (ret, u)) (hmode : (Call.accept sockfd fd v p : Call R).setsModes = true) :
    ModesInv ⟨u, s.asks ret (.accept sockfd fd v p)⟩ ∧
      (FlagsAgree s →
        (FlagsAgree ⟨u, s.asks ret (.accept sockfd fd v p)⟩ ↔ KeepsFlags s ⟨.accept sockfd fd v p, hmode⟩)) := by
  obtain ⟨e, rfl, rfl, hwhy⟩ | ⟨rfl, hopen, hfree, rfl, hu⟩ := accept_eq_next h
  · rw [asks_of_fail]
    refine ⟨hs, fun hagree => ⟨fun _ => ?_, fun _ => hagree⟩⟩
    cases v with
    | refuse e => trivial
    | allow =>
        intro hopen
        obtain hclosed | ⟨ctx, hget, hclosed⟩ := hwhy rfl
        · exact absurd hclosed hopen
        · cases sockfd with
          | negSucc m => cases hget
          | ofNat m =>
              rw [hs.opened m ctx (Except.ok.inj hget)] at hclosed
              cases hclosed
  · have hasked : ∀ m, m ≠ fd → s.asks (.ok fd) (.accept sockfd fd .allow p) m = s.asked m := by
      intro m hm
      simp [Asked.asks, Ret.ok, Ne.symm hm]
    have hflag : O_RDWR.nonblock = false := by decide
    have hnew : s.asks (.ok fd) (.accept sockfd fd .allow p) fd = O_RDWR.nonblock := by
      simp [Asked.asks, Ret.ok, hflag]
    obtain ⟨ht, hframe, f, hview, hf⟩ := opened_spec hs hfree _ p hu hasked
    refine ⟨ht, fun hagree => ?_⟩
    rw [flagsAgree_iff hs ht hagree fd fun m hm _ => hframe m hm, hview, hnew, agreeing_opened_iff _ p hf, hflag]
    simp [KeepsFlags, hfree, hopen]

/-- `close` takes the context away before the descriptor. -/
theorem close_spec (hs : ModesInv s) {fd : ℤ} {freed : Bool} {v : Verdict}
    (h : close true s.state fd freed v = .next (ret, u)) :
    ModesInv ⟨u, s.asked⟩ ∧ (FlagsAgree s → FlagsAgree ⟨u, s.asked⟩) := by
  obtain ⟨hkernel, hlength, hget⟩ := close_eq_next h
  simp only [true_and] at hget
  have hold : ∀ n ctx, u.fdMgr.get n = some ctx → fd ≠ n ∧ s.state.fdMgr.get n = some ctx := by
    intro n ctx hn
    rw [hget] at hn
    split at hn
    · cases hn
    · next hne => exact ⟨hne, hn⟩
  have hfds : ∀ m : ℕ, fd ≠ m → u.kernel.fds m = s.state.kernel.fds m := by
    intro m hm
    rw [hkernel]
    exact close_f_fds_of_ne hm.symm freed v
  have hfiles : u.kernel.files = s.state.kernel.files := by
    rw [hkernel]
    obtain heq | ⟨n, _, heq⟩ := close_f_eq (k := s.state.kernel) fd freed v
    · rw [heq]
    · rw [heq]
      rfl
  have hopen : ∀ (m : ℕ) id, u.kernel.fds m = some id → s.state.kernel.fds m = some id := by
    intro m id hm
    rw [hkernel] at hm
    obtain heq | ⟨n, _, heq⟩ := close_f_eq (k := s.state.kernel) fd freed v
    · rwa [heq] at hm
    · rw [heq, release_fds] at hm
      split at hm
      · cases hm
      · exact hm
  have ht : ModesInv ⟨u, s.asked⟩ := by
    refine ⟨hlength ▸ hs.sized, ?_, ?_, ?_⟩
    · intro n ctx hn
      exact hs.opened n ctx (hold n ctx hn).2
    · intro n ctx hn
      exact hs.sys n ctx (hold n ctx hn).2
    · intro n hn
      obtain ⟨ctx, hctx⟩ := Option.ne_none_iff_exists'.1 hn
      obtain ⟨hne, hsome⟩ := hold n ctx hctx
      obtain ⟨id, hid, hsocket, hsole⟩ := hs.backed n (by simp [hsome])
      exact ⟨id, (hfds n hne).trans hid, by rw [hfiles]; exact hsocket, fun m hm => hsole m (hopen m id hm)⟩
  refine ⟨ht, fun hagree n => ?_⟩
  rw [agreesAt_iff ht]
  cases hctx : u.fdMgr.get n with
  | none => simp [view, hctx, Agreeing]
  | some ctx =>
      obtain ⟨hne, hsome⟩ := hold n ctx hctx
      have hview : view ⟨u, s.asked⟩ n = view s n := by
        obtain ⟨id, hid, _⟩ := hs.backed n (by simp [hsome])
        simp only [view, hctx, hsome, file?_of_fds hid, file?_of_fds ((hfds n hne).trans hid), hfiles]
      rw [hview]
      exact (agreesAt_iff hs n).1 (hagree n)

theorem step_spec {raw : RawCalls R} (hs : ModesInv s) (c : ModeCall R) (h : Asked.step raw s c = .next t) :
    ModesInv t ∧ (FlagsAgree s → (FlagsAgree t ↔ KeepsFlags s c)) := by
  obtain ⟨c, hmode⟩ := c
  unfold Asked.step at h
  split at h
  · next ret u hcall =>
      obtain rfl : ⟨u, s.asks ret c⟩ = t := by simpa using h
      cases c with
      | socket type fd v p => exact socket_spec hs hcall hmode
      | accept sockfd fd v p => exact accept_spec hs hcall hmode
      | close fd freed v =>
          have hsame : s.asks ret (.close fd freed v) = s.asked := by
            funext n
            simp [Asked.asks]
          obtain ⟨ht, hagree⟩ := close_spec hs hcall
          rw [hsame]
          exact ⟨ht, fun hs => ⟨fun _ => trivial, fun _ => hagree hs⟩⟩
      | setfl fd arg v => exact setfl_spec hs hcall hmode
      | getfl fd v =>
          have hsame : s.asks ret (.getfl fd v) = s.asked := by
            funext n
            simp [Asked.asks]
          rw [getfl_eq_next hcall, hsame]
          exact ⟨hs, fun hagree => ⟨fun _ => trivial, fun _ => hagree⟩⟩
      | fionbio d arg v => exact fionbio_spec hs hcall hmode
      | _ => cases hmode
  · cases h
  · cases h

/-- A step that is not taken is allowed: each call of which the condition asks something returns. -/
theorem keepsFlags_of_stuck {raw : RawCalls R} (hs : ModesInv s) (c : ModeCall R) (h : ∀ t, Asked.step raw s c ≠ .next t) :
    KeepsFlags s c := by
  obtain ⟨c, hmode⟩ := c
  have hstuck : ∀ r, c.hooked raw true s.state ≠ .next r := by
    intro r hr
    exact h ⟨r.2, s.asks r.1 c⟩ (by simp [Asked.step, hr])
  cases c with
  | socket type fd v p =>
      cases v with
      | refuse e => trivial
      | allow => exact fun hfree => absurd (socket_allow hfree p) (hstuck _)
  | accept sockfd fd v p =>
      cases v with
      | refuse e => trivial
      | allow => exact fun hopen hfree => absurd (accept_allow hopen hfree hs.opened p) (hstuck _)
  | setfl fd arg v =>
      intro ctx hget
      refine absurd ?_ (not_exists.2 hstuck)
      simp only [Call.hooked, setfl, hget]
      cases socketCtx (some ctx) with
      | none => exact ⟨_, rfl⟩
      | some c => exact ⟨_, rfl⟩
  | fionbio d arg v =>
      cases arg with
      | none => trivial
      | some n =>
          intro ctx hget
          refine absurd ?_ (not_exists.2 hstuck)
          simp only [Call.hooked, fionbio, hget]
          cases socketCtx (some ctx) with
          | none => exact ⟨_, rfl⟩
          | some c => exact ⟨_, rfl⟩
  | _ => trivial

theorem modesInv_start (k : Kernel R) : ModesInv (Asked.start k) := by
  have hnone : ∀ n, (Asked.start k).state.fdMgr.get n = none := FdManager.get_init
  refine ⟨by simp [Asked.start, EntryPoint.start, FdManager.init], ?_, ?_, ?_⟩
  · intro n ctx hn
    rw [hnone] at hn
    cases hn
  · intro n ctx hn
    rw [hnone] at hn
    cases hn
  · intro n hn
    exact absurd (hnone n) hn

theorem flagsAgree_start (k : Kernel R) : FlagsAgree (Asked.start k) := by
  intro n ctx file hctx
  have hnone : (Asked.start k).state.fdMgr.get n = none := FdManager.get_init n
  rw [hnone] at hctx
  cases hctx

/-- In every run of calls on threads with hooks, the flags of every open socket with a context agree at all times exactly where every call meets the condition. -/
theorem flags_agree_iff (raw : RawCalls R) (k : Kernel R) (calls : List (ModeCall R)) :
    Throughout (Asked.step raw) FlagsAgree (.start k) calls ↔ Along (Asked.step raw) KeepsFlags (.start k) calls :=
  throughout_iff_along (fun _ c _ hs h => (step_spec hs c h).1) (fun _ c _ hs hagree h => (step_spec hs c h).2 hagree)
    (fun _ c hs h => keepsFlags_of_stuck hs c h) (modesInv_start k) (flagsAgree_start k) calls

/-- A socket and a request on it. -/
def opensAnd (c : ModeCall Unit) : List (ModeCall Unit) := [⟨.socket 1 4 .allow ⟨.allow, .allow, .allow⟩, rfl⟩, c]

/-- `FIONBIO` with 0 takes the kernel's flag away, a refused `F_SETFL` is reported as if it had succeeded, and `SOCK_NONBLOCK` is forgotten. -/
theorem flags_disagree :
    ¬ Throughout (Asked.step idleCalls) FlagsAgree (.start nothingOpen) (opensAnd ⟨.fionbio 4 (some 0) .allow, rfl⟩) ∧
      ¬ Throughout (Asked.step idleCalls) FlagsAgree (.start nothingOpen)
          (opensAnd ⟨.setfl 4 O_NONBLOCK (.refuse 1), rfl⟩) ∧
      ¬ Throughout (Asked.step idleCalls) FlagsAgree (.start nothingOpen)
          [⟨.socket (1 ||| O_NONBLOCK) 4 .allow ⟨.allow, .allow, .allow⟩, rfl⟩] := by
  refine ⟨?_, ?_, ?_⟩
  · rintro ⟨_, _, hlast⟩
    exact absurd (hlast 4 _ _ rfl rfl rfl).1 (by decide)
  · rintro ⟨_, _, hlast⟩
    exact absurd ((hlast 4 _ _ rfl rfl rfl).2 _ _ rfl) (by decide)
  · rintro ⟨_, hlast⟩
    exact absurd ((hlast 4 _ _ rfl rfl rfl).2 _ _ rfl) (by decide)

end Awcotn.EntryPoint
