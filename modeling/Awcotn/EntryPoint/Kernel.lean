import Mathlib.Data.BitVec
import Mathlib.Logic.Function.Basic
import Mathlib.Tactic.Common
import Awcotn.Hook.FdManager

/-!
# The kernel behind the hooks

What the raw functions of `hook.cc` are called on: the table of open descriptors, the open files they refer to with their status flags, and everything else. Descriptors made by `F_DUPFD` share an open file. The kernel may refuse any call, and it picks any free number for a new descriptor.

Calls that touch neither the table nor the status flags, and calls whose effect the hooks do not depend on, are parameters.
-/

namespace Awcotn.EntryPoint

abbrev Errno := ℕ

def EBADF : Errno := 9
def EFAULT : Errno := 14

/-- What a call returns. `errno` counts where the call reports an error only. -/
structure Ret where
  value : ℤ
  errno : Option Errno
  deriving DecidableEq

def Ret.ok (n : ℤ) : Ret := ⟨n, none⟩
def Ret.fail (e : Errno) : Ret := ⟨-1, some e⟩

/-- The kernel's choice whether it performs a call. -/
inductive Verdict
  | allow
  | refuse (e : Errno)
  deriving DecidableEq

/-! ### Status flags -/

abbrev Flags := BitVec 32

def O_RDWR : Flags := 0x2

/-- The number of the bit that `O_NONBLOCK` and `SOCK_NONBLOCK` are. -/
def nonblockBit : ℕ := 11

def O_NONBLOCK : Flags := 0x800

/-- What `F_SETFL` can change: `O_APPEND`, `O_NONBLOCK`, `O_ASYNC`, `O_DIRECT`, `O_NOATIME`. -/
def SETFL_MASK : Flags := 0x46c00

namespace Flags

def nonblock (f : Flags) : Bool := f.getLsbD nonblockBit

def setNonblock (f : Flags) (v : Bool) : Flags := if v then f ||| O_NONBLOCK else f &&& ~~~O_NONBLOCK

@[simp] theorem nonblock_setNonblock (f : Flags) (v : Bool) : nonblock (setNonblock f v) = v := by
  cases v <;> simp [nonblock, setNonblock, nonblockBit, O_NONBLOCK]

theorem nonblock_or (f : Flags) : nonblock (f ||| O_NONBLOCK) = true := by
  simp [nonblock, nonblockBit, O_NONBLOCK]

theorem and_nonblock_eq_zero {f : Flags} : f &&& O_NONBLOCK = 0 ↔ nonblock f = false := by
  have htwoPow : O_NONBLOCK = BitVec.twoPow 32 nonblockBit := rfl
  rw [htwoPow, BitVec.and_twoPow, nonblock]
  cases f.getLsbD nonblockBit with
  | true => decide
  | false => decide

/-- What is left of `f` after `F_SETFL` with `arg`. -/
def setfl (f arg : Flags) : Flags := f &&& ~~~SETFL_MASK ||| arg &&& SETFL_MASK

@[simp] theorem nonblock_setfl (f arg : Flags) : nonblock (setfl f arg) = nonblock arg := by
  simp [nonblock, setfl, nonblockBit, SETFL_MASK]

end Flags

/-! ### Open files -/

/-- An open file description. -/
structure File where
  isSocket : Bool
  flags : Flags
  deriving DecidableEq

/-- The state raw calls are made in. `rest` is what the table and the open files leave out. -/
@[ext] structure Kernel (R : Type*) where
  fds : ℕ → Option ℕ
  files : ℕ → File
  nextFile : ℕ
  rest : R
  fresh : ∀ fd id, fds fd = some id → id < nextFile

namespace Kernel

variable {R : Type*} (k : Kernel R)

/-- The open file that a descriptor, an `int` of the caller's, refers to. -/
def fileOf : ℤ → Option ℕ
  | .ofNat fd => k.fds fd
  | .negSucc _ => none

def file? (fd : ℤ) : Option File := (k.fileOf fd).map k.files

/-- A new open file at the number `fd`. -/
def install (fd : ℕ) (file : File) : Kernel R :=
  { k with
    fds := Function.update k.fds fd (some k.nextFile)
    files := Function.update k.files k.nextFile file
    nextFile := k.nextFile + 1
    fresh := by
      intro n id h
      by_cases hn : n = fd
      · subst hn
        rw [Function.update_self, Option.some.injEq] at h
        omega
      · rw [Function.update_of_ne hn] at h
        exact Nat.lt_succ_of_lt (k.fresh n id h) }

/-- The number `fd` comes to refer to an open file that some number refers to already. -/
def share (fd' fd : ℕ) : Kernel R :=
  { k with
    fds := Function.update k.fds fd (k.fds fd')
    fresh := by
      intro n id h
      by_cases hn : n = fd
      · subst hn
        rw [Function.update_self] at h
        exact k.fresh fd' id h
      · rw [Function.update_of_ne hn] at h
        exact k.fresh n id h }

def release (fd : ℕ) : Kernel R :=
  { k with
    fds := Function.update k.fds fd none
    fresh := by
      intro n id h
      by_cases hn : n = fd
      · simp [hn] at h
      · rw [Function.update_of_ne hn] at h
        exact k.fresh n id h }

def setFlags (id : ℕ) (flags : Flags) : Kernel R :=
  { k with files := Function.update k.files id { k.files id with flags := flags } }

end Kernel

/-! ### Raw functions

Named as the function pointers of `hook.cc` are. `none` says that the kernel cannot answer so: it returns only numbers that are free. -/

section Raw

variable {R : Type*}

def socket_f (k : Kernel R) (type : Flags) (fd : ℕ) : Verdict → Option (Ret × Kernel R)
  | .refuse e => some (.fail e, k)
  | .allow =>
    if k.fds fd = none then some (.ok fd, k.install fd ⟨true, O_RDWR.setNonblock type.nonblock⟩) else none

/-- An accepted socket is in blocking mode, whatever the mode of the one it was accepted on. -/
def accept_f (k : Kernel R) (sockfd : ℤ) (fd : ℕ) : Verdict → Option (Ret × Kernel R)
  | .refuse e => some (.fail e, k)
  | .allow =>
    if k.fileOf sockfd = none then some (.fail EBADF, k)
    else if k.fds fd = none then some (.ok fd, k.install fd ⟨true, O_RDWR⟩) else none

/-- A refused `close` may still have freed the number. -/
def close_f (k : Kernel R) (fd : ℤ) (freed : Bool) (v : Verdict) : Ret × Kernel R :=
  match fd, k.fileOf fd, v with
  | .ofNat n, some _, .allow => (.ok 0, k.release n)
  | .ofNat n, some _, .refuse e => (.fail e, if freed then k.release n else k)
  | _, _, _ => (.fail EBADF, k)

/-- `fcntl_f` with `F_SETFL`. -/
def setfl_f (k : Kernel R) (fd : ℤ) (arg : Flags) : Verdict → Ret × Kernel R
  | .refuse e => (.fail e, k)
  | .allow =>
    match k.fileOf fd with
    | none => (.fail EBADF, k)
    | some id => (.ok 0, k.setFlags id ((k.files id).flags.setfl arg))

/-- `fcntl_f` with `F_GETFL`. -/
def getfl_f (k : Kernel R) (fd : ℤ) : Verdict → Ret
  | .refuse e => .fail e
  | .allow =>
    match k.file? fd with
    | none => .fail EBADF
    | some file => .ok file.flags.toInt

/-- `fcntl_f` with `F_DUPFD`: the new number is not below the argument. -/
def dupfd_f (k : Kernel R) (fd : ℤ) (arg : BitVec 32) (fd' : ℕ) : Verdict → Option (Ret × Kernel R)
  | .refuse e => some (.fail e, k)
  | .allow =>
    match fd, k.fileOf fd with
    | .ofNat n, some _ =>
      if k.fds fd' = none ∧ arg.toInt ≤ fd' then some (.ok fd', k.share n fd') else none
    | _, _ => some (.fail EBADF, k)

/-- `ioctl_f` with `FIONBIO`; the argument is nothing where the pointer cannot be read. -/
def fionbio_f (k : Kernel R) (d : ℤ) (arg : Option (BitVec 32)) : Verdict → Ret × Kernel R
  | .refuse e => (.fail e, k)
  | .allow =>
    match k.fileOf d, arg with
    | none, _ => (.fail EBADF, k)
    | some _, none => (.fail EFAULT, k)
    | some id, some v => (.ok 0, k.setFlags id ((k.files id).flags.setNonblock (v ≠ 0)))

/-- `fstat`: whether the descriptor is a socket. -/
def fstat (k : Kernel R) (fd : ℤ) : Verdict → FdCtx.Stat
  | .refuse _ => none
  | .allow => (k.file? fd).map File.isSocket

end Raw

/-! ### What the raw functions leave of the kernel -/

section

variable {R : Type*} {k : Kernel R}

@[simp] theorem setFlags_fds (id : ℕ) (f : Flags) : (k.setFlags id f).fds = k.fds := rfl

theorem setFlags_inj {id : ℕ} {f g : Flags} : k.setFlags id f = k.setFlags id g ↔ f = g := by
  constructor
  · intro h
    have hfile := congrFun (congrArg Kernel.files h) id
    simpa [Kernel.setFlags] using hfile
  · rintro rfl
    rfl

theorem setFlags_eq_self {id : ℕ} {f : Flags} : k.setFlags id f = k ↔ (k.files id).flags = f := by
  constructor
  · intro h
    have hfile := congrArg File.flags (congrFun (congrArg Kernel.files h) id)
    simpa [Kernel.setFlags, eq_comm] using hfile
  · rintro rfl
    simp [Kernel.setFlags]

theorem install_fds (fd : ℕ) (file : File) (n : ℕ) :
    (k.install fd file).fds n = if n = fd then some k.nextFile else k.fds n :=
  Function.update_apply ..

theorem share_fds (fd' fd n : ℕ) : (k.share fd' fd).fds n = if n = fd then k.fds fd' else k.fds n :=
  Function.update_apply ..

theorem release_fds (fd n : ℕ) : (k.release fd).fds n = if n = fd then none else k.fds n :=
  Function.update_apply ..

/-- `F_SETFL` and `FIONBIO` change the flags of the descriptor's file at most. -/
def Retags (k k' : Kernel R) (fd : ℤ) : Prop := k' = k ∨ ∃ id f, k.fileOf fd = some id ∧ k' = k.setFlags id f

theorem setfl_f_retags (fd : ℤ) (arg : Flags) (v : Verdict) : Retags k (setfl_f k fd arg v).2 fd := by
  cases v with
  | refuse e => exact Or.inl rfl
  | allow =>
      unfold setfl_f
      cases hid : k.fileOf fd with
      | none => exact Or.inl rfl
      | some id => exact Or.inr ⟨id, _, hid, rfl⟩

theorem fionbio_f_retags (d : ℤ) (arg : Option (BitVec 32)) (v : Verdict) : Retags k (fionbio_f k d arg v).2 d := by
  cases v with
  | refuse e => exact Or.inl rfl
  | allow =>
      unfold fionbio_f
      cases hid : k.fileOf d with
      | none => exact Or.inl rfl
      | some id =>
          cases arg with
          | none => exact Or.inl rfl
          | some n => exact Or.inr ⟨id, _, hid, rfl⟩

theorem Retags.fds {k' : Kernel R} {fd : ℤ} (h : Retags k k' fd) : k'.fds = k.fds := by
  obtain rfl | ⟨id, f, _, rfl⟩ := h
  · rfl
  · rfl

/-- `close` takes a number away at most. -/
theorem close_f_eq (fd : ℤ) (freed : Bool) (v : Verdict) :
    (close_f k fd freed v).2 = k ∨ ∃ n : ℕ, fd = n ∧ (close_f k fd freed v).2 = k.release n := by
  cases fd with
  | negSucc m => exact Or.inl rfl
  | ofNat m =>
      unfold close_f
      cases k.fileOf (.ofNat m) with
      | none => exact Or.inl rfl
      | some id =>
          cases v with
          | allow => exact Or.inr ⟨m, rfl, rfl⟩
          | refuse e =>
              cases freed with
              | true => exact Or.inr ⟨m, rfl, rfl⟩
              | false => exact Or.inl rfl

/-- `close` leaves every other number as it is. -/
theorem close_f_fds_of_ne {fd : ℤ} {n : ℕ} (h : (n : ℤ) ≠ fd) (freed : Bool) (v : Verdict) :
    (close_f k fd freed v).2.fds n = k.fds n := by
  obtain heq | ⟨m, rfl, heq⟩ := close_f_eq (k := k) fd freed v
  · rw [heq]
  · have hne : ¬ n = m := fun hn => h (congrArg Int.ofNat hn)
    rw [heq, release_fds, if_neg hne]

/-- A new socket, or a refusal. -/
theorem socket_f_eq_some {k' : Kernel R} {type : Flags} {fd : ℕ} {v : Verdict} {ret : Ret}
    (h : socket_f k type fd v = some (ret, k')) :
    (∃ e, v = .refuse e ∧ ret = .fail e ∧ k' = k) ∨
      (v = .allow ∧ k.fds fd = none ∧ ret = .ok fd ∧ k' = k.install fd ⟨true, O_RDWR.setNonblock type.nonblock⟩) := by
  cases v with
  | refuse e =>
      obtain ⟨rfl, rfl⟩ : Ret.fail e = ret ∧ k = k' := by simpa [socket_f] using h
      exact Or.inl ⟨e, rfl, rfl, rfl⟩
  | allow =>
      simp only [socket_f] at h
      split at h
      · next hfree =>
          obtain ⟨rfl, rfl⟩ := Prod.mk.inj (Option.some.inj h)
          exact Or.inr ⟨rfl, hfree, rfl, rfl⟩
      · cases h

theorem accept_f_eq_some {k' : Kernel R} {sockfd : ℤ} {fd : ℕ} {v : Verdict} {ret : Ret}
    (h : accept_f k sockfd fd v = some (ret, k')) :
    (∃ e, (v = .allow → k.fileOf sockfd = none) ∧ ret = .fail e ∧ k' = k) ∨
      (v = .allow ∧ k.fileOf sockfd ≠ none ∧ k.fds fd = none ∧ ret = .ok fd ∧ k' = k.install fd ⟨true, O_RDWR⟩) := by
  cases v with
  | refuse e =>
      obtain ⟨rfl, rfl⟩ : Ret.fail e = ret ∧ k = k' := by simpa [accept_f] using h
      exact Or.inl ⟨e, nofun, rfl, rfl⟩
  | allow =>
      simp only [accept_f] at h
      split at h
      · next hclosed =>
          obtain ⟨rfl, rfl⟩ : Ret.fail EBADF = ret ∧ k = k' := by simpa using h
          exact Or.inl ⟨EBADF, fun _ => hclosed, rfl, rfl⟩
      · next hopen =>
          split at h
          · next hfree =>
              obtain ⟨rfl, rfl⟩ := Prod.mk.inj (Option.some.inj h)
              exact Or.inr ⟨rfl, hopen, hfree, rfl, rfl⟩
          · cases h

theorem dupfd_f_eq_some {k' : Kernel R} {fd : ℤ} {arg : BitVec 32} {fd' : ℕ} {v : Verdict} {ret : Ret}
    (h : dupfd_f k fd arg fd' v = some (ret, k')) : k' = k ∨ ∃ n id, k.fds n = some id ∧ k' = k.share n fd' := by
  cases v with
  | refuse e =>
      obtain ⟨_, rfl⟩ : Ret.fail e = ret ∧ k = k' := by simpa [dupfd_f] using h
      exact Or.inl rfl
  | allow =>
      simp only [dupfd_f] at h
      split at h
      · next n id hid =>
          split at h
          · obtain ⟨_, rfl⟩ : Ret.ok fd' = ret ∧ k.share n fd' = k' := by simpa using h
            exact Or.inr ⟨n, id, hid, rfl⟩
          · cases h
      · obtain ⟨_, rfl⟩ : Ret.fail EBADF = ret ∧ k = k' := by simpa using h
        exact Or.inl rfl

/-- Opening a descriptor closes none. -/
theorem install_fds_none {fd : ℕ} {file : File} {n : ℕ} (h : (k.install fd file).fds n = none) : k.fds n = none := by
  rw [install_fds] at h
  split at h
  · cases h
  · exact h

theorem share_fds_none {fd' fd id : ℕ} (hid : k.fds fd' = some id) {n : ℕ} (h : (k.share fd' fd).fds n = none) :
    k.fds n = none := by
  rw [share_fds, hid] at h
  split at h
  · cases h
  · exact h

end

end Awcotn.EntryPoint
