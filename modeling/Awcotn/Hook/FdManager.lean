import Mathlib.Logic.Function.Basic
import Mathlib.Tactic.Common

/-!
# Descriptor contexts of the hooks

`FdCtx` and `FdManager` of `fd_manager.cc`. A context records what the hooked calls need to know of a descriptor; the manager keeps one for each descriptor it has been asked to track. `FdCtx::init` asks the kernel whether the descriptor exists and is a socket.
-/

namespace Awcotn

/-- The two socket options that `FdCtx::setTimeout` and `getTimeout` are called with. -/
inductive TimeoutSo
  | SO_RCVTIMEO
  | SO_SNDTIMEO
  deriving DecidableEq

/-- `FdCtx`. A timeout of `-1` is none. -/
structure FdCtx where
  isInit : Bool
  isSocket : Bool
  sysNonblock : Bool
  userNonblock : Bool
  isClosed : Bool
  recvTimeout : UInt64
  sendTimeout : UInt64
  deriving DecidableEq

namespace FdCtx

/-- What `fstat` says of a descriptor: nothing, or whether it is a socket. -/
abbrev Stat := Option Bool

/-- `FdCtx::FdCtx` and `FdCtx::init`: a socket is put in non-blocking mode. -/
def new (stat : Stat) : FdCtx :=
  let isSocket := stat = some true
  { isInit := stat.isSome, isSocket := isSocket, sysNonblock := isSocket, userNonblock := false, isClosed := false,
    recvTimeout := -1, sendTimeout := -1 }

def setTimeout (ctx : FdCtx) (type : TimeoutSo) (v : UInt64) : FdCtx :=
  match type with
  | .SO_RCVTIMEO => { ctx with recvTimeout := v }
  | .SO_SNDTIMEO => { ctx with sendTimeout := v }

def getTimeout (ctx : FdCtx) : TimeoutSo → UInt64
  | .SO_RCVTIMEO => ctx.recvTimeout
  | .SO_SNDTIMEO => ctx.sendTimeout

end FdCtx

/-- `FdManager`. -/
structure FdManager where
  datas : List (Option FdCtx)
  deriving DecidableEq

namespace FdManager

/-- `FdManager::FdManager`. -/
def init : FdManager := ⟨List.replicate 64 none⟩

/-- `FdManager::get` without `auto_create`. -/
def get (m : FdManager) (fd : ℕ) : Option FdCtx := m.datas[fd]?.join

/-- Write through the pointer `get` returned. -/
def set (m : FdManager) (fd : ℕ) (ctx : FdCtx) : FdManager := ⟨m.datas.set fd (some ctx)⟩

/-- `FdManager::get` with `auto_create`, where it has found no context: the size is checked again under the write lock. -/
def create (m : FdManager) (fd : ℕ) (stat : FdCtx.Stat) : FdManager :=
  let datas := if m.datas.length ≤ fd then m.datas ++ List.replicate (fd * 3 / 2 - m.datas.length) none else m.datas
  ⟨datas.set fd (some (.new stat))⟩

/-- `FdManager::get` with `auto_create`. -/
def getOrCreate (m : FdManager) (fd : ℕ) (stat : FdCtx.Stat) : FdManager :=
  match m.get fd with
  | some _ => m
  | none => m.create fd stat

/-- `FdManager::del`. -/
def del (m : FdManager) (fd : ℕ) : FdManager := ⟨m.datas.set fd none⟩

/-! ### The table after an operation -/

variable {m : FdManager}

theorem get_lt {fd : ℕ} {ctx : FdCtx} (h : m.get fd = some ctx) : fd < m.datas.length := by
  by_contra hge
  rw [get, List.getElem?_eq_none (Nat.le_of_not_lt hge)] at h
  cases h

theorem get_init (fd : ℕ) : init.get fd = none := by
  rw [get, init, List.getElem?_replicate]
  split
  · rfl
  · rfl

theorem get_del (fd n : ℕ) : (m.del fd).get n = if n = fd then none else m.get n := by
  simp only [get, del, List.getElem?_set, eq_comm (a := n)]
  by_cases heq : fd = n
  · subst heq
    by_cases hlt : fd < m.datas.length
    · simp [hlt]
    · simp [hlt]
  · simp [heq]

theorem get_set {fd : ℕ} (h : m.get fd ≠ none) (ctx : FdCtx) (n : ℕ) :
    (m.set fd ctx).get n = if n = fd then some ctx else m.get n := by
  obtain ⟨old, hold⟩ := Option.ne_none_iff_exists'.1 h
  have hlt := get_lt hold
  simp only [get, set, List.getElem?_set, eq_comm (a := n)]
  by_cases heq : fd = n
  · subst heq
    simp [hlt]
  · simp [heq]

/-- Growing the table adds no context. -/
theorem join_getElem?_append_replicate (l : List (Option FdCtx)) (k n : ℕ) :
    (l ++ List.replicate k none)[n]?.join = l[n]?.join := by
  by_cases hn : n < l.length
  · rw [List.getElem?_append_left hn]
  · rw [List.getElem?_append_right (Nat.le_of_not_lt hn), List.getElem?_eq_none (Nat.le_of_not_lt hn),
      List.getElem?_replicate]
    split
    · rfl
    · rfl

/-- The growth by half of `fd` makes room for `fd`, given the two entries that the constructor provides. -/
theorem get_create (h : 2 ≤ m.datas.length) (fd : ℕ) (stat : FdCtx.Stat) (n : ℕ) :
    (m.create fd stat).get n = if n = fd then some (.new stat) else m.get n := by
  simp only [get, create, List.getElem?_set, eq_comm (a := n)]
  by_cases hgrow : m.datas.length ≤ fd
  · have hroom : fd < m.datas.length + (fd * 3 / 2 - m.datas.length) := by omega
    by_cases heq : fd = n
    · subst heq
      simp [hgrow, hroom]
    · simp only [if_pos hgrow, if_neg heq, join_getElem?_append_replicate]
  · by_cases heq : fd = n
    · subst heq
      simp [hgrow, Nat.lt_of_not_le hgrow]
    · simp only [if_neg hgrow, if_neg heq]

theorem length_le_create (fd : ℕ) (stat : FdCtx.Stat) : m.datas.length ≤ (m.create fd stat).datas.length := by
  simp only [create, List.length_set]
  split
  · rw [List.length_append]
    omega
  · exact Nat.le_refl _

@[simp] theorem length_set (fd : ℕ) (ctx : FdCtx) : (m.set fd ctx).datas.length = m.datas.length := by
  rw [set, List.length_set]

@[simp] theorem length_del (fd : ℕ) : (m.del fd).datas.length = m.datas.length := by
  rw [del, List.length_set]

end FdManager

end Awcotn
