import Awcotn.EntryPoint.Kernel
import Awcotn.Foundation.Run

/-!
# The hooked functions

The functions of `hook.cc` as a program calls them, one whole call at a time: what each returns, what it leaves of the kernel and what it leaves of the descriptor contexts. Each decides for itself when to pass through to the raw function it replaces. `Awcotn.Hook` has the waiting calls step by step; here a call that waits comes to what the environment says, and its traffic with the IO manager is left out.

A descriptor is an `int` of the caller's. `FdManager` indexes its vector with it unchecked, so a negative one reads outside the table.
-/

namespace Awcotn.EntryPoint

open Transition

/-! ### Commands and options -/

inductive IntCmd
  | F_SETFD | F_SETOWN | F_SETSIG | F_SETLEASE | F_NOTIFY | F_SETPIPE_SZ
  deriving DecidableEq

inductive PlainCmd
  | F_GETFD | F_GETOWN | F_GETSIG | F_GETLEASE | F_GETPIPE_SZ
  deriving DecidableEq

inductive FlockCmd
  | F_SETLK | F_SETLKW | F_GETLK
  deriving DecidableEq

inductive OwnerCmd
  | F_GETOWN_EX | F_SETOWN_EX
  deriving DecidableEq

abbrev Word := BitVec 64

/-- The commands of `fcntl` that the hook gives no meaning of its own, with their argument. `other` is any command that its switch does not list. -/
inductive ControlCmd
  | int (cmd : IntCmd) (arg : BitVec 32)
  | plain (cmd : PlainCmd)
  | flock (cmd : FlockCmd) (arg : Word)
  | owner (cmd : OwnerCmd) (arg : Word)
  | other (cmd : BitVec 32) (arg : Option Word)
  deriving DecidableEq

structure Timeval where
  tv_sec : Int64
  tv_usec : Int64
  deriving DecidableEq

/-- `SO_RCVTIMEO` and `SO_SNDTIMEO` at level `SOL_SOCKET`, or any other option. -/
inductive SockOpt
  | timeout (optname : TimeoutSo) (optval : Timeval)
  | other (level optname : BitVec 32) (optval : List UInt8)
  deriving DecidableEq

/-- The raw calls that touch neither the descriptor table nor the status flags. -/
inductive ControlCall
  | fcntl (fd : ℤ) (cmd : ControlCmd)
  | ioctl (d : ℤ) (request : Word) (arg : Option Word)
  | getsockopt (sockfd : ℤ) (level optname : BitVec 32)
  | setsockopt (sockfd : ℤ) (opt : SockOpt)
  deriving DecidableEq

/-- The functions that are `do_io` and nothing else. -/
inductive IoFun
  | read | readv | recv | recvfrom | recvmsg | write | writev | send | sendto | sendmsg
  deriving DecidableEq

inductive SleepFun
  | sleep | usleep | nanosleep
  deriving DecidableEq

/-- The raw calls that transfer data, connect or sleep, with the words they are passed. -/
inductive WaitingCall
  | io (f : IoFun) (fd : ℤ) (args : List Word)
  | connect (fd : ℤ) (args : List Word)
  | sleep (f : SleepFun) (args : List Word)
  deriving DecidableEq

/-- What those raw calls do. One that transfers data may do anything to the kernel: `recvmsg` can bring descriptors. -/
structure RawCalls (R : Type*) where
  control : ControlCall → Kernel R → Ret × R
  waiting : WaitingCall → Kernel R → Ret × Kernel R

/-- What the kernel says to the three calls of `FdCtx::init`. -/
structure Probe where
  fstat : Verdict
  getfl : Verdict
  setfl : Verdict
  deriving DecidableEq

/-! ### State -/

structure State (R : Type*) where
  kernel : Kernel R
  fdMgr : FdManager

/-- `outOfTable`: `m_datas` is read at a negative index. `badPointer`: an argument that cannot be read is read. -/
inductive Crash
  | outOfTable
  | badPointer
  deriving DecidableEq

abbrev Result (R : Type*) := Outcome Crash (Ret × State R)

variable {R : Type*}

namespace State

/-- `FdManager::get`. -/
def get (s : State R) : ℤ → Except Crash (Option FdCtx)
  | .ofNat fd => .ok (s.fdMgr.get fd)
  | .negSucc _ => .error .outOfTable

def withKernel (s : State R) (r : Ret × Kernel R) : Ret × State R := (r.1, { s with kernel := r.2 })

/-- The result of a call that passes through. -/
def pass (s : State R) (r : Ret × Kernel R) : Result R := .next (s.withKernel r)

def pass? (s : State R) : Option (Ret × Kernel R) → Result R
  | some r => s.pass r
  | none => .disabled

/-- Write through the pointer `get` returned. -/
def setCtx (s : State R) (fd : ℤ) (ctx : FdCtx) : State R := { s with fdMgr := s.fdMgr.set fd.toNat ctx }

end State

/-- A raw call that touches neither the table nor the status flags. -/
def RawCalls.controlCall (raw : RawCalls R) (c : ControlCall) (k : Kernel R) : Ret × Kernel R :=
  ((raw.control c k).1, { k with rest := (raw.control c k).2 })

/-! ### Contexts -/

/-- `FdCtx::init` puts a socket in non-blocking mode. Its `fcntl` is the hooked one, which passes through: the descriptor has no context yet. Where `F_GETFL` fails its result has every bit set. -/
def initKernel (k : Kernel R) (fd : ℕ) (p : Probe) : Kernel R :=
  if fstat k fd p.fstat = some true then
    let flags : Flags := BitVec.ofInt 32 (getfl_f k fd p.getfl).value
    if flags &&& O_NONBLOCK = 0 then (setfl_f k fd (flags ||| O_NONBLOCK) p.setfl).2 else k
  else k

/-- `FdManager::get` with `auto_create`. -/
def getAutoCreate (s : State R) (fd : ℕ) (p : Probe) : State R :=
  match s.fdMgr.get fd with
  | some _ => s
  | none => { kernel := initKernel s.kernel fd p, fdMgr := s.fdMgr.create fd (fstat s.kernel fd p.fstat) }

/-- The test that `fcntl` and `ioctl` share: a context that is open and a socket's, or the call passes through. -/
def socketCtx (ctx : Option FdCtx) : Option FdCtx := ctx.filter fun c => !c.isClosed && c.isSocket

/-- `FdCtx::init` changes the kernel where the descriptor is a socket in blocking mode and all three of its calls succeed. -/
theorem initKernel_eq {k : Kernel R} {fd id : ℕ} (hid : k.fds fd = some id) (hsocket : (k.files id).isSocket) (p : Probe) :
    initKernel k fd p =
      if p = ⟨.allow, .allow, .allow⟩ ∧ (k.files id).flags.nonblock = false then
        k.setFlags id ((k.files id).flags.setfl ((k.files id).flags ||| O_NONBLOCK))
      else k := by
  have hfile : k.fileOf fd = some id := hid
  obtain ⟨fstatV, getflV, setflV⟩ := p
  cases fstatV with
  | refuse e => simp [initKernel, fstat]
  | allow =>
      have hstat : fstat k fd .allow = some true := by simp [fstat, Kernel.file?, hfile, hsocket]
      cases getflV with
      | refuse e => simp [initKernel, hstat, getfl_f, Ret.fail, O_NONBLOCK]
      | allow =>
          have hflags : (BitVec.ofInt 32 (getfl_f k fd .allow).value : Flags) = (k.files id).flags := by
            simp [getfl_f, Kernel.file?, hfile, Ret.ok]
          simp only [initKernel, hstat, if_true, hflags, Flags.and_nonblock_eq_zero]
          cases setflV with
          | refuse e => simp [setfl_f]
          | allow => simp [setfl_f, hfile]

theorem initKernel_fds (k : Kernel R) (fd : ℕ) (p : Probe) : (initKernel k fd p).fds = k.fds := by
  unfold initKernel
  split
  · dsimp only
    split
    · exact (setfl_f_retags _ _ _).fds
    · rfl
  · rfl

/-! ### Waiting functions -/

variable (raw : RawCalls R) (enabled : Bool) (s : State R)

/-- `do_io`, whose raw function comes to `direct` where it is called at once, and to `awaited` where the call loops. -/
def doIo (fd : ℤ) (direct awaited : Option (Ret × Kernel R)) : Result R :=
  if !enabled then s.pass? direct
  else
    match s.get fd with
    | .error e => .abort e
    | .ok none => s.pass? direct
    | .ok (some ctx) =>
      if ctx.isClosed then .next (.fail EBADF, s)
      else if !ctx.isSocket && ctx.userNonblock then s.pass? direct
      else s.pass? awaited

def ioCall (f : IoFun) (fd : ℤ) (args : List Word) (awaited : Ret × Kernel R) : Result R :=
  doIo enabled s fd (some (raw.waiting (.io f fd args) s.kernel)) (some awaited)

def read (fd : ℤ) (args : List Word) (awaited : Ret × Kernel R) := ioCall raw enabled s .read fd args awaited
def readv (fd : ℤ) (args : List Word) (awaited : Ret × Kernel R) := ioCall raw enabled s .readv fd args awaited
def recv (fd : ℤ) (args : List Word) (awaited : Ret × Kernel R) := ioCall raw enabled s .recv fd args awaited
def recvfrom (fd : ℤ) (args : List Word) (awaited : Ret × Kernel R) := ioCall raw enabled s .recvfrom fd args awaited
def recvmsg (fd : ℤ) (args : List Word) (awaited : Ret × Kernel R) := ioCall raw enabled s .recvmsg fd args awaited
def write (fd : ℤ) (args : List Word) (awaited : Ret × Kernel R) := ioCall raw enabled s .write fd args awaited
def writev (fd : ℤ) (args : List Word) (awaited : Ret × Kernel R) := ioCall raw enabled s .writev fd args awaited
def send (fd : ℤ) (args : List Word) (awaited : Ret × Kernel R) := ioCall raw enabled s .send fd args awaited
def sendto (fd : ℤ) (args : List Word) (awaited : Ret × Kernel R) := ioCall raw enabled s .sendto fd args awaited
def sendmsg (fd : ℤ) (args : List Word) (awaited : Ret × Kernel R) := ioCall raw enabled s .sendmsg fd args awaited

/-- A sleep of a fiber: a timer and a yield, which are not part of this state. -/
def sleepCall (f : SleepFun) (args : List Word) : Result R :=
  if !enabled then s.pass (raw.waiting (.sleep f args) s.kernel) else .next (.ok 0, s)

def sleep (seconds : Word) := sleepCall raw enabled s .sleep [seconds]
def usleep (usec : Word) := sleepCall raw enabled s .usleep [usec]
def nanosleep (req rem : Word) := sleepCall raw enabled s .nanosleep [req, rem]

/-- `connect`, which is `connect_with_timeout` with the configured timeout. -/
def connect (fd : ℤ) (args : List Word) (awaited : Ret × Kernel R) : Result R :=
  if !enabled then s.pass (raw.waiting (.connect fd args) s.kernel)
  else
    match s.get fd with
    | .error e => .abort e
    | .ok none => .next (.fail EBADF, s)
    | .ok (some ctx) =>
      if ctx.isClosed then .next (.fail EBADF, s)
      else if !ctx.isSocket then s.pass (raw.waiting (.connect fd args) s.kernel)
      else if ctx.userNonblock then s.pass (raw.waiting (.connect fd args) s.kernel)
      else s.pass awaited

/-! ### Functions that make and end descriptors -/

/-- `socket`; the kernel picks the number `fd`. -/
def socket (type : Flags) (fd : ℕ) (v : Verdict) (p : Probe) : Result R :=
  if !enabled then s.pass? (socket_f s.kernel type fd v)
  else
    match socket_f s.kernel type fd v with
    | none => .disabled
    | some (ret, kernel) =>
      if ret.value = -1 then .next (ret, { s with kernel := kernel })
      else .next (ret, getAutoCreate { s with kernel := kernel } ret.value.toNat p)

/-- `accept`. The hook flag is not tested where the new descriptor is given a context. -/
def accept (sockfd : ℤ) (fd : ℕ) (v : Verdict) (p : Probe) : Result R :=
  match doIo enabled s sockfd (accept_f s.kernel sockfd fd v) (accept_f s.kernel sockfd fd v) with
  | .next (ret, t) => if 0 ≤ ret.value then .next (ret, getAutoCreate t ret.value.toNat p) else .next (ret, t)
  | .abort e => .abort e
  | .disabled => .disabled

def close (fd : ℤ) (freed : Bool) (v : Verdict) : Result R :=
  if !enabled then s.pass (close_f s.kernel fd freed v)
  else
    match s.get fd with
    | .error e => .abort e
    | .ok none => s.pass (close_f s.kernel fd freed v)
    | .ok (some _) => State.pass { s with fdMgr := s.fdMgr.del fd.toNat } (close_f s.kernel fd freed v)

/-! ### Functions that set modes and options -/

/-- `fcntl` with `F_SETFL`. -/
def setfl (fd : ℤ) (arg : Flags) (v : Verdict) : Result R :=
  match s.get fd with
  | .error e => .abort e
  | .ok ctx =>
    match socketCtx ctx with
    | none => s.pass (setfl_f s.kernel fd arg v)
    | some c =>
      (s.setCtx fd { c with userNonblock := arg.nonblock }).pass
        (setfl_f s.kernel fd (arg.setNonblock c.sysNonblock) v)

/-- `fcntl` with `F_GETFL`. The raw call comes before the look at the table. -/
def getfl (fd : ℤ) (v : Verdict) : Result R :=
  let arg := getfl_f s.kernel fd v
  match s.get fd with
  | .error e => .abort e
  | .ok ctx =>
    match socketCtx ctx with
    | none => .next (arg, s)
    | some c => .next ({ arg with value := (Flags.setNonblock (BitVec.ofInt 32 arg.value) c.userNonblock).toInt }, s)

/-- `fcntl` with `F_DUPFD` or `F_DUPFD_CLOEXEC`. -/
def dupfd (fd : ℤ) (arg : BitVec 32) (fd' : ℕ) (v : Verdict) : Result R := s.pass? (dupfd_f s.kernel fd arg fd' v)

/-- The argument that `fcntl` hands on: none where its switch does not list the command. -/
def ControlCmd.handedOn : ControlCmd → ControlCmd
  | .other cmd _ => .other cmd none
  | cmd => cmd

/-- `fcntl` with any other command. -/
def fcntl (fd : ℤ) (cmd : ControlCmd) : Result R := s.pass (raw.controlCall (.fcntl fd cmd.handedOn) s.kernel)

/-- `ioctl` with `FIONBIO`. -/
def fionbio (d : ℤ) (arg : Option (BitVec 32)) (v : Verdict) : Result R :=
  match arg with
  | none => .abort .badPointer
  | some n =>
    match s.get d with
    | .error e => .abort e
    | .ok ctx =>
      match socketCtx ctx with
      | none => s.pass (fionbio_f s.kernel d arg v)
      | some c => (s.setCtx d { c with userNonblock := n ≠ 0 }).pass (fionbio_f s.kernel d arg v)

/-- `ioctl` with any other request. -/
def ioctl (d : ℤ) (request : Word) (arg : Option Word) : Result R :=
  s.pass (raw.controlCall (.ioctl d request arg) s.kernel)

def getsockopt (sockfd : ℤ) (level optname : BitVec 32) : Result R :=
  s.pass (raw.controlCall (.getsockopt sockfd level optname) s.kernel)

def Timeval.toMs (tv : Timeval) : UInt64 := (tv.tv_sec * 1000 + tv.tv_usec / 1000).toUInt64

def setsockopt (sockfd : ℤ) (opt : SockOpt) : Result R :=
  if !enabled then s.pass (raw.controlCall (.setsockopt sockfd opt) s.kernel)
  else
    match opt with
    | .other .. => s.pass (raw.controlCall (.setsockopt sockfd opt) s.kernel)
    | .timeout optname optval =>
      match s.get sockfd with
      | .error e => .abort e
      | .ok none => s.pass (raw.controlCall (.setsockopt sockfd opt) s.kernel)
      | .ok (some ctx) =>
        (s.setCtx sockfd (ctx.setTimeout optname optval.toMs)).pass (raw.controlCall (.setsockopt sockfd opt) s.kernel)

/-! ### Calls -/

/-- A call of one of the hooked functions, with what the kernel makes of it. -/
inductive Call (R : Type*)
  | sleep (seconds : Word)
  | usleep (usec : Word)
  | nanosleep (req rem : Word)
  | socket (type : Flags) (fd : ℕ) (v : Verdict) (p : Probe)
  | connect (fd : ℤ) (args : List Word) (awaited : Ret × Kernel R)
  | accept (sockfd : ℤ) (fd : ℕ) (v : Verdict) (p : Probe)
  | io (f : IoFun) (fd : ℤ) (args : List Word) (awaited : Ret × Kernel R)
  | close (fd : ℤ) (freed : Bool) (v : Verdict)
  | setfl (fd : ℤ) (arg : Flags) (v : Verdict)
  | getfl (fd : ℤ) (v : Verdict)
  | dupfd (fd : ℤ) (arg : BitVec 32) (fd' : ℕ) (v : Verdict)
  | fcntl (fd : ℤ) (cmd : ControlCmd)
  | fionbio (d : ℤ) (arg : Option (BitVec 32)) (v : Verdict)
  | ioctl (d : ℤ) (request : Word) (arg : Option Word)
  | getsockopt (sockfd : ℤ) (level optname : BitVec 32)
  | setsockopt (sockfd : ℤ) (opt : SockOpt)

namespace Call

/-- The call through the hooks, on a thread whose hook flag is `enabled`. -/
def hooked : Call R → Result R
  | .sleep seconds => EntryPoint.sleep raw enabled s seconds
  | .usleep usec => EntryPoint.usleep raw enabled s usec
  | .nanosleep req rem => EntryPoint.nanosleep raw enabled s req rem
  | .socket type fd v p => EntryPoint.socket enabled s type fd v p
  | .connect fd args awaited => EntryPoint.connect raw enabled s fd args awaited
  | .accept sockfd fd v p => EntryPoint.accept enabled s sockfd fd v p
  | .io .read fd args awaited => read raw enabled s fd args awaited
  | .io .readv fd args awaited => readv raw enabled s fd args awaited
  | .io .recv fd args awaited => recv raw enabled s fd args awaited
  | .io .recvfrom fd args awaited => recvfrom raw enabled s fd args awaited
  | .io .recvmsg fd args awaited => recvmsg raw enabled s fd args awaited
  | .io .write fd args awaited => write raw enabled s fd args awaited
  | .io .writev fd args awaited => writev raw enabled s fd args awaited
  | .io .send fd args awaited => send raw enabled s fd args awaited
  | .io .sendto fd args awaited => sendto raw enabled s fd args awaited
  | .io .sendmsg fd args awaited => sendmsg raw enabled s fd args awaited
  | .close fd freed v => EntryPoint.close enabled s fd freed v
  | .setfl fd arg v => EntryPoint.setfl s fd arg v
  | .getfl fd v => EntryPoint.getfl s fd v
  | .dupfd fd arg fd' v => EntryPoint.dupfd s fd arg fd' v
  | .fcntl fd cmd => EntryPoint.fcntl raw s fd cmd
  | .fionbio d arg v => EntryPoint.fionbio s d arg v
  | .ioctl d request arg => EntryPoint.ioctl raw s d request arg
  | .getsockopt sockfd level optname => EntryPoint.getsockopt raw s sockfd level optname
  | .setsockopt sockfd opt => EntryPoint.setsockopt raw enabled s sockfd opt

/-- The raw function in place of the hooked one, with the same arguments. -/
def direct (k : Kernel R) : Call R → Option (Ret × Kernel R)
  | .sleep seconds => some (raw.waiting (.sleep .sleep [seconds]) k)
  | .usleep usec => some (raw.waiting (.sleep .usleep [usec]) k)
  | .nanosleep req rem => some (raw.waiting (.sleep .nanosleep [req, rem]) k)
  | .socket type fd v _ => socket_f k type fd v
  | .connect fd args _ => some (raw.waiting (.connect fd args) k)
  | .accept sockfd fd v _ => accept_f k sockfd fd v
  | .io f fd args _ => some (raw.waiting (.io f fd args) k)
  | .close fd freed v => some (close_f k fd freed v)
  | .setfl fd arg v => some (setfl_f k fd arg v)
  | .getfl fd v => some (getfl_f k fd v, k)
  | .dupfd fd arg fd' v => dupfd_f k fd arg fd' v
  | .fcntl fd cmd => some (raw.controlCall (.fcntl fd cmd) k)
  | .fionbio d arg v => some (fionbio_f k d arg v)
  | .ioctl d request arg => some (raw.controlCall (.ioctl d request arg) k)
  | .getsockopt sockfd level optname => some (raw.controlCall (.getsockopt sockfd level optname) k)
  | .setsockopt sockfd opt => some (raw.controlCall (.setsockopt sockfd opt) k)

/-- The descriptor that a call is made on. -/
def fd? : Call R → Option ℤ
  | .sleep .. | .usleep .. | .nanosleep .. | .socket .. => none
  | .connect fd _ _ | .accept fd _ _ _ | .io _ fd _ _ | .close fd _ _ | .setfl fd _ _ | .getfl fd _
  | .dupfd fd _ _ _ | .fcntl fd _ | .fionbio fd _ _ | .ioctl fd _ _ | .getsockopt fd _ _ | .setsockopt fd _ => some fd

end Call

/-- A call made by some thread, whose hook flag is the first component. -/
abbrev Action (R : Type*) := Bool × Call R

def step (s : State R) (a : Action R) : Outcome Crash (State R) :=
  match a.2.hooked raw a.1 s with
  | .next r => .next r.2
  | .abort e => .abort e
  | .disabled => .disabled

/-- The program starts with some kernel state, and no descriptor is tracked. -/
def start (k : Kernel R) : State R := ⟨k, .init⟩

theorem State.get_cases (s : State R) (fd : ℤ) :
    (0 ≤ fd ∧ s.get fd = .ok (s.fdMgr.get fd.toNat)) ∨ (¬ 0 ≤ fd ∧ s.get fd = .error .outOfTable) := by
  cases fd with
  | ofNat n => exact Or.inl ⟨Int.natCast_nonneg n, rfl⟩
  | negSucc n => exact Or.inr ⟨by omega, rfl⟩

theorem Call.hooked_io (f : IoFun) (fd : ℤ) (args : List Word) (awaited : Ret × Kernel R) :
    (Call.io f fd args awaited).hooked raw enabled s = ioCall raw enabled s f fd args awaited := by
  cases f <;> rfl

variable {raw s} in
theorem step_eq_next {a : Action R} {t : State R} :
    step raw s a = .next t ↔ ∃ ret, a.2.hooked raw a.1 s = .next (ret, t) := by
  unfold step
  cases h : a.2.hooked raw a.1 s with
  | next r =>
      constructor
      · intro heq
        obtain rfl : r.2 = t := by simpa using heq
        exact ⟨r.1, rfl⟩
      · rintro ⟨ret, hret⟩
        obtain rfl : r = (ret, t) := by simpa using hret
        rfl
  | abort e => simp
  | disabled => simp

/-- A kernel with nothing open. -/
def nothingOpen : Kernel Unit := ⟨fun _ => none, fun _ => ⟨false, 0⟩, 0, (), nofun⟩

/-- Raw calls that succeed and do nothing. -/
def idleCalls : RawCalls Unit := ⟨fun _ _ => (.ok 0, ()), fun _ k => (.ok 0, k)⟩

end Awcotn.EntryPoint
