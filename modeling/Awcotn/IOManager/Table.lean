import Awcotn.IOManager.Manager
import Mathlib.Data.List.Infix

/-!
# Growing the table

`addEvent` looks its descriptor up under the read lock and, where the table does not reach it, grows the table under the write lock. The two sections are separate, and the second computes its size from the caller's own descriptor without looking at the table again. Here they are separate steps of any number of threads, and a slot holds the address of an `FdContext`, so that a context that has been replaced is a different one.
-/

namespace Awcotn.ContextTable

open Transition

abbrev Addr := ℕ

/-- `m_fdContexts`, with the next address `new FdContext` returns. -/
structure Table where
  fdContexts : List Addr
  nextAddr : Addr
  deriving DecidableEq

/-- `IOManager::contextResize`: every slot that is empty after `resize` gets a new context. -/
def Table.contextResize (size : ℕ) (table : Table) : Table :=
  let fresh := size - table.fdContexts.length
  { fdContexts := table.fdContexts.take size ++ List.range' table.nextAddr fresh, nextAddr := table.nextAddr + fresh }

/-- Where a thread stands in the lookup of `addEvent`. -/
inductive Pc
  | idle
  /-- The read-locked section has found the table too short. -/
  | grow (fd : ℕ)
  | found (fd : ℕ) (ctx : Addr)
  deriving DecidableEq

structure State where
  table : Table
  pc : ℕ → Pc

inductive Action
  /-- A thread calls `addEvent` and passes the read-locked section. -/
  | lookup (thread fd : ℕ)
  /-- A thread passes the write-locked section. -/
  | grow (thread : ℕ)
  deriving DecidableEq

def start : State := { table := Table.contextResize 32 ⟨[], 0⟩, pc := fun _ => .idle }

def State.goto (s : State) (thread : ℕ) (pc : Pc) : State := { s with pc := Function.update s.pc thread pc }

def step (s : State) : Action → Outcome Fault State
  | .lookup thread fd =>
    match s.pc thread with
    | .grow _ => .disabled
    | _ =>
      match s.table.fdContexts[fd]? with
      | some ctx => .next (s.goto thread (.found fd ctx))
      | none => .next (s.goto thread (.grow fd))
  | .grow thread =>
    match s.pc thread with
    | .grow fd =>
      let table := s.table.contextResize (fd * 3 / 2)
      match table.fdContexts[fd]? with
      | some ctx => .next ({ s with table := table }.goto thread (.found fd ctx))
      | none => .abort .outOfRange
    | _ => .disabled

/-- The table at a later moment: it is no shorter, and every slot holds the context it held. -/
def Keeps (s t : State) : Prop :=
  s.table.fdContexts.length ≤ t.table.fdContexts.length ∧
    ∀ fd ctx : ℕ, s.table.fdContexts[fd]? = some ctx → t.table.fdContexts[fd]? = some ctx

/-- A thread that grows the table asks for no less than it has by now. -/
def GrowsOnly (s : State) : Action → Prop
  | .lookup .. => True
  | .grow thread => ∀ fd, s.pc thread = .grow fd → s.table.fdContexts.length ≤ fd * 3 / 2

/-! ### The table of the event operations -/

/-- With every address read as the context allocated there, this is the `contextResize` of the event table. -/
theorem map_contextResize {F C : Type*} (heap : Addr → FdContext F C) (table : Table) (size : ℕ)
    (hfresh : ∀ n, n < size - table.fdContexts.length →
      heap (table.nextAddr + n) = .new (table.fdContexts.length + n)) :
    (table.contextResize size).fdContexts.map heap = Awcotn.contextResize size (table.fdContexts.map heap) := by
  simp only [Table.contextResize, Awcotn.contextResize, List.map_append, List.map_take, List.length_map]
  congr 1
  refine List.ext_getElem (by simp) fun n hn _ => ?_
  simp only [List.length_map, List.length_range'] at hn
  simpa using hfresh n hn

/-! ### The invariant -/

/-- The table has its first 32 slots, and the threads about to grow it looked for a descriptor past those. -/
structure Inv (s : State) : Prop where
  length : 32 ≤ s.table.fdContexts.length
  grow : ∀ thread fd, s.pc thread = .grow fd → 32 ≤ fd

theorem length_contextResize (table : Table) (size : ℕ) : (table.contextResize size).fdContexts.length = size := by
  simp only [Table.contextResize, List.length_append, List.length_take, List.length_range']
  omega

theorem Inv.goto {s : State} (hs : Inv s) {thread : ℕ} {pc : Pc} (h : ∀ fd, pc = .grow fd → 32 ≤ fd) :
    Inv (s.goto thread pc) := by
  refine ⟨hs.length, fun other fd hother => ?_⟩
  by_cases heq : other = thread
  · subst heq
    exact h fd (by simpa [State.goto] using hother)
  · exact hs.grow other fd (by simpa [State.goto, heq] using hother)

theorem step_inv {s t : State} {a : Action} (hs : Inv s) (h : step s a = .next t) : Inv t := by
  cases a with
  | lookup thread fd =>
      simp only [step] at h
      split at h
      · cases h
      split at h
      · cases h
        exact hs.goto (by simp)
      · rename_i hnone
        cases h
        have hlength := hs.length
        have := List.getElem?_eq_none_iff.1 hnone
        refine hs.goto fun fd' hfd => ?_
        cases hfd
        omega
  | grow thread =>
      simp only [step] at h
      split at h
      · rename_i fd hpc
        have hfd := hs.grow thread fd hpc
        split at h
        · cases h
          have hgrown : Inv { s with table := s.table.contextResize (fd * 3 / 2) } :=
            ⟨by dsimp only; rw [length_contextResize]; omega, hs.grow⟩
          exact hgrown.goto (by simp)
        · cases h
      · cases h

/-! ### What one step does to the slots -/

/-- The write-locked section keeps the slots exactly when it does not cut the table off. -/
theorem keeps_grow_iff {s : State} (hs : Inv s) {thread fd : ℕ} (hpc : s.pc thread = .grow fd) :
    (∀ t, step s (.grow thread) = .next t → Keeps s t) ↔ s.table.fdContexts.length ≤ fd * 3 / 2 := by
  have hfd := hs.grow thread fd hpc
  have hin : fd < (s.table.contextResize (fd * 3 / 2)).fdContexts.length := by
    rw [length_contextResize]
    omega
  have hstep : step s (.grow thread) = .next ({ s with table := s.table.contextResize (fd * 3 / 2) }.goto thread
      (.found fd (s.table.contextResize (fd * 3 / 2)).fdContexts[fd])) := by
    simp only [step, hpc, List.getElem?_eq_getElem hin]
  constructor
  · intro h
    have hlength := (h _ hstep).1
    dsimp only [State.goto] at hlength
    rwa [length_contextResize] at hlength
  · intro hle t ht
    rw [hstep] at ht
    cases ht
    refine ⟨?_, fun fd' ctx hctx => ?_⟩
    · dsimp only [State.goto]
      rwa [length_contextResize]
    · dsimp only [State.goto, Table.contextResize]
      rwa [List.take_of_length_le hle, List.getElem?_append_left (List.getElem?_eq_some_iff.1 hctx).1]

theorem keeps_step_iff {s : State} (hs : Inv s) (a : Action) :
    (∀ t, step s a = .next t → Keeps s t) ↔ GrowsOnly s a := by
  cases a with
  | lookup thread fd =>
      refine iff_of_true (fun t h => ?_) trivial
      simp only [step] at h
      split at h
      · cases h
      split at h <;> cases h <;> exact ⟨Nat.le_refl _, fun _ _ h => h⟩
  | grow thread =>
      by_cases hgrow : ∃ fd, s.pc thread = .grow fd
      · obtain ⟨fd, hpc⟩ := hgrow
        rw [keeps_grow_iff hs hpc, GrowsOnly]
        simp [hpc]
      · refine iff_of_true (fun t h => ?_) fun fd hpc => absurd ⟨fd, hpc⟩ hgrow
        simp only [step] at h
        split at h
        · rename_i fd hpc
          exact absurd ⟨fd, hpc⟩ hgrow
        · cases h

theorem inv_start : Inv start := ⟨by decide, by simp [start]⟩

/-- Between any two moments of a run the table keeps its length and its contexts if and only if no grower of the run asks for less than the table has when it holds the write lock. -/
theorem keeps_iff_growsOnly (acts : List Action) :
    (∀ before between after, acts = before ++ between ++ after →
        ∀ s t, run step start before = .next s → run step s between = .next t → Keeps s t) ↔
      Along step GrowsOnly start acts := by
  rw [← along_iff_between (fun s => ⟨Nat.le_refl _, fun _ _ h => h⟩)
    (fun s t u hst htu => ⟨hst.1.trans htu.1, fun fd ctx h => htu.2 fd ctx (hst.2 fd ctx h)⟩)]
  exact along_congr (fun s a t hs h => step_inv hs h) (fun s a hs => keeps_step_iff hs a) inv_start acts

/-- Two threads find the table too short for their descriptors; the one with the smaller descriptor grows it last. -/
theorem late_grower_cuts_table :
    ¬ ∀ acts : List Action, ∀ before between after, acts = before ++ between ++ after →
      ∀ s t, run step start before = .next s → run step s between = .next t → Keeps s t := by
  intro h
  have := h _ [.lookup 0 100, .lookup 1 40, .grow 0] [.grow 1] [] rfl _ _ rfl rfl
  exact absurd this.1 (by decide +kernel)

end Awcotn.ContextTable
