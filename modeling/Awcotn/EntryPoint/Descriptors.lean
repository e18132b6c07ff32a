import Awcotn.Hook.Contexts
import Awcotn.IOManager.Table

/-!
# Any `int` as a descriptor

The two tables that a descriptor is an index of: `m_datas` of the `FdManager`, which every hooked call looks its descriptor up in, and `m_fdContexts` of an `IOManager`. The functions take an `int` and compare it with the size as an `int`; none of them asks whether it is negative. The sections under the locks are steps of any number of threads, as in `Contexts.lean` and `Table.lean`; what a call does with the context it has found is elsewhere.
-/

namespace Awcotn.Descriptors

open Transition Slots

abbrev ThreadId := FdTable.ThreadId
abbrev Fault := FdTable.Fault

/-- Where a thread stands in `addEvent`. -/
inductive Pc
  | idle
  /-- The read-locked section has found the table too short. -/
  | grow (fd : Int32)
  deriving DecidableEq

structure State where
  fds : FdTable.State
  contexts : ContextTable.Table
  pc : ThreadId → Pc

inductive Action
  /-- `FdManager::get` or `FdManager::del`. -/
  | fds (a : FdTable.Action)
  /-- A thread calls `addEvent` and passes the read-locked section. -/
  | addEvent (thread : ThreadId) (fd : Int32)
  /-- A thread passes the write-locked section of `addEvent`. -/
  | grow (thread : ThreadId)
  | delEvent (fd : Int32)
  | cancelEvent (fd : Int32)
  | cancelAll (fd : Int32)
  deriving DecidableEq

namespace State

/-- `m_fdContexts.size()` -/
def size (s : State) : ℕ := s.contexts.fdContexts.length

def goto (s : State) (thread : ThreadId) (pc : Pc) : State := { s with pc := Function.update s.pc thread pc }

end State

/-- The read-locked section of `delEvent`, `cancelEvent` and `cancelAll`; with a descriptor past the table they return false. -/
def lookup (s : State) (fd : Int32) : Outcome Fault State :=
  if fd.toInt < intSize s.size then
    if index fd < s.size then .next s else .abort .outOfRange
  else .next s

def delEvent (s : State) (fd : Int32) : Outcome Fault State := lookup s fd

def cancelEvent (s : State) (fd : Int32) : Outcome Fault State := lookup s fd

def cancelAll (s : State) (fd : Int32) : Outcome Fault State := lookup s fd

/-- The read-locked section of `addEvent`. -/
def addEvent (s : State) (thread : ThreadId) (fd : Int32) : Outcome Fault State :=
  match s.pc thread with
  | .grow _ => .disabled
  | .idle =>
    if fd.toInt < intSize s.size then
      if index fd < s.size then .next s else .abort .outOfRange
    else .next (s.goto thread (.grow fd))

/-- The write-locked section of `addEvent`: `contextResize(fd * 1.5); fd_ctx = m_fdContexts[fd];` -/
def grow (s : State) (thread : ThreadId) : Outcome Fault State :=
  match s.pc thread with
  | .idle => .disabled
  | .grow fd =>
    match FdTable.grown fd with
    | none => .abort .undefinedSize
    | some size =>
      let s := { s with contexts := s.contexts.contextResize size }
      if index fd < s.size then .next (s.goto thread .idle) else .abort .outOfRange

def step (s : State) : Action → Outcome Fault State
  | .fds a => (FdTable.step s.fds a).map fun fds => { s with fds := fds }
  | .addEvent thread fd => addEvent s thread fd
  | .grow thread => grow s thread
  | .delEvent fd => delEvent s fd
  | .cancelEvent fd => cancelEvent s fd
  | .cancelAll fd => cancelAll s fd

def start : State := { fds := FdTable.start, contexts := .contextResize 32 ⟨[], 0⟩, pc := fun _ => .idle }

/-! ### What is to be shown -/

/-- A descriptor that passes the test against a table of this size is not negative. -/
def PassesNonneg (size : ℕ) (fd : Int32) : Prop := fd.toInt < intSize size → 0 ≤ fd.toInt

/-- No negative descriptor passes a test or makes a table grow, and a table grows for no descriptor below 2. -/
def Within (s : State) : Action → Prop
  | .fds (.get thread fd _) => s.fds.pc thread = .idle → PassesNonneg s.fds.datas.size fd
  | .fds (.create thread) => ∀ fd, s.fds.pc thread = .missed fd →
      0 ≤ fd.toInt ∧ (fd.toInt < intSize s.fds.datas.size ∨ 2 ≤ fd.toInt)
  | .fds (.del fd) => PassesNonneg s.fds.datas.size fd
  | .addEvent thread fd => s.pc thread = .idle → PassesNonneg s.size fd
  | .grow thread => ∀ fd, s.pc thread = .grow fd → 2 ≤ fd.toInt
  | .delEvent fd | .cancelEvent fd | .cancelAll fd => PassesNonneg s.size fd

/-! ### Sizes -/

/-- Both tables are shorter than `2 ^ 32`: they grow to half as much again as an `int`. -/
structure Inv (s : State) : Prop where
  fds : s.fds.datas.size < 2 ^ 32
  contexts : s.size < 2 ^ 32

theorem grown_lt {fd : Int32} {size : ℕ} (h : FdTable.grown fd = some size) : size < 2 ^ 32 := by
  have hupper := Int32.toInt_lt fd
  simp only [FdTable.grown] at h
  split_ifs at h
  cases h
  omega

theorem fds_size {s t : FdTable.State} {a : FdTable.Action} (hs : s.datas.size < 2 ^ 32) (h : FdTable.step s a = .next t) :
    t.datas.size < 2 ^ 32 := by
  cases a with
  | get thread fd auto_create =>
      have hmiss : (s.miss thread fd auto_create).datas = s.datas := by
        simp only [FdTable.State.miss]
        split_ifs <;> rfl
      simp only [FdTable.step] at h
      split at h
      · cases h
      split_ifs at h
      · split at h
        · cases h
          exact hs
        · cases h
          rwa [hmiss]
      · cases h
        rwa [hmiss]
  | create thread =>
      simp only [FdTable.step] at h
      split at h
      · cases h
      split at h
      · cases h
      rename_i datas hroom
      split_ifs at h
      cases h
      simp only [FdTable.State.room] at hroom
      split_ifs at hroom
      · split at hroom
        · rename_i size hsize
          cases hroom
          exact grown_lt hsize
        · cases hroom
      · cases hroom
        exact hs
  | del fd =>
      simp only [FdTable.step] at h
      split_ifs at h <;> cases h <;> exact hs

theorem lookup_next {s t : State} {fd : Int32} (h : lookup s fd = .next t) : t = s := by
  simp only [lookup] at h
  split_ifs at h <;> cases h <;> rfl

theorem step_inv {s t : State} {a : Action} (hs : Inv s) (h : step s a = .next t) : Inv t := by
  cases a with
  | fds a =>
      obtain ⟨fds, hstep, rfl⟩ := Outcome.map_eq_next.1 h
      exact ⟨fds_size hs.fds hstep, hs.contexts⟩
  | addEvent thread fd =>
      simp only [step, addEvent] at h
      split at h
      · cases h
      split_ifs at h <;> cases h <;> exact ⟨hs.fds, hs.contexts⟩
  | grow thread =>
      simp only [step, grow] at h
      split at h
      · cases h
      split at h
      · cases h
      rename_i size hsize
      split_ifs at h
      cases h
      refine ⟨hs.fds, ?_⟩
      show (s.contexts.contextResize size).fdContexts.length < 2 ^ 32
      rw [ContextTable.length_contextResize]
      exact grown_lt hsize
  | delEvent fd | cancelEvent fd | cancelAll fd =>
      have hlookup : lookup s fd = .next t := h
      exact lookup_next hlookup ▸ hs

/-! ### What one step may access -/

/-- Behind a passed test the index is in the table exactly if it is not negative. -/
theorem index_lt_iff_of_passes {fd : Int32} {size : ℕ} (hsize : size < 2 ^ 32) (hpass : fd.toInt < intSize size) :
    index fd < size ↔ 0 ≤ fd.toInt := by
  have hle := intSize_le size
  rw [index_lt_iff hsize]
  omega

/-- A step that aborts where its index has passed the test and lies outside, and nowhere else. -/
theorem abort_iff_of_test {ε σ : Type*} {size : ℕ} (hsize : size < 2 ^ 32) {fd : Int32} {r : Outcome ε σ}
    (hin : fd.toInt < intSize size → index fd < size → ∀ e, r ≠ .abort e)
    (hout : fd.toInt < intSize size → ¬ index fd < size → ∃ e, r = .abort e)
    (hmissed : ¬ fd.toInt < intSize size → ∀ e, r ≠ .abort e) : (∃ e, r = .abort e) ↔ ¬ PassesNonneg size fd := by
  by_cases hpass : fd.toInt < intSize size
  · have hindex := index_lt_iff_of_passes hsize hpass
    by_cases hlt : index fd < size
    · exact iff_of_false (fun ⟨e, he⟩ => hin hpass hlt e he) fun h => h fun _ => hindex.1 hlt
    · exact iff_of_true (hout hpass hlt) fun h => hlt (hindex.2 (h hpass))
  · exact iff_of_false (fun ⟨e, he⟩ => hmissed hpass e he) fun h => h fun hpass' => absurd hpass' hpass

theorem lookup_abort_iff {s : State} (hs : Inv s) (fd : Int32) : (∃ e, lookup s fd = .abort e) ↔ ¬ PassesNonneg s.size fd := by
  refine abort_iff_of_test hs.contexts (fun hpass hlt e => ?_) (fun hpass hout => ?_) fun hpass e => ?_
  · simp [lookup, hpass, hlt]
  · simp [lookup, hpass, hout]
  · simp [lookup, hpass]

theorem get_abort_iff {s : FdTable.State} (hs : s.datas.size < 2 ^ 32) (thread : ThreadId) (fd : Int32) (auto_create : Bool) :
    (∃ e, FdTable.step s (.get thread fd auto_create) = .abort e) ↔
      ¬ (s.pc thread = .idle → PassesNonneg s.datas.size fd) := by
  cases hpc : s.pc thread with
  | missed fd' => simp [FdTable.step, hpc]
  | idle =>
      simp only [FdTable.step, hpc, true_imp_iff]
      refine abort_iff_of_test hs (fun hpass hlt e => ?_) (fun hpass hout => ?_) fun hpass e => ?_
      · simp only [hpass, hlt, if_true]
        split <;> simp
      · simp [hpass, hout]
      · simp [hpass]

theorem create_abort_iff {s : FdTable.State} (hs : s.datas.size < 2 ^ 32) (thread : ThreadId) :
    (∃ e, FdTable.step s (.create thread) = .abort e) ↔
      ¬ ∀ fd, s.pc thread = .missed fd → 0 ≤ fd.toInt ∧ (fd.toInt < intSize s.datas.size ∨ 2 ≤ fd.toInt) := by
  cases hpc : s.pc thread with
  | idle => simp [FdTable.step, hpc]
  | missed fd =>
      by_cases hfd : 0 ≤ fd.toInt
      · obtain ⟨datas, hroom, hfits, -⟩ := FdTable.room_eq s hfd
        rw [FdTable.create_eq hpc hroom]
        split_ifs with hin
        · simp [hfd, hfits.1 hin]
        · simp [hfd, mt hfits.2 hin]
      · refine iff_of_true ?_ fun h => hfd (h fd rfl).1
        by_cases hgrow : intSize s.datas.size ≤ fd.toInt
        · simp [FdTable.step, hpc, FdTable.State.room, FdTable.grown, hgrow, hfd]
        · have hout : ¬ index fd < s.datas.size := by
            rw [index_lt_iff hs]
            exact fun h => hfd h.1
          simp [FdTable.step, hpc, FdTable.State.room, hgrow, hout]

/-- The table of the event contexts grows to hold the descriptor exactly if that is 2 at least. -/
theorem grow_abort_iff (s : State) (thread : ThreadId) :
    (∃ e, grow s thread = .abort e) ↔ ¬ ∀ fd, s.pc thread = .grow fd → 2 ≤ fd.toInt := by
  cases hpc : s.pc thread with
  | idle => simp [grow, hpc]
  | grow fd =>
      have hwithin : (∀ fd', Pc.grow fd = .grow fd' → 2 ≤ fd'.toInt) ↔ 2 ≤ fd.toInt := by simp
      rw [hwithin]
      by_cases hfd : 0 ≤ fd.toInt
      · have hindex := index_of_nonneg hfd
        simp only [grow, hpc, FdTable.grown, if_pos hfd, State.size, ContextTable.length_contextResize]
        split_ifs with hin
        · exact iff_of_false (by simp) (by omega)
        · exact iff_of_true (by simp) (by omega)
      · refine iff_of_true ?_ (by omega)
        simp [grow, hpc, FdTable.grown, hfd]

theorem step_abort_iff {s : State} (hs : Inv s) (a : Action) : (∃ e, step s a = .abort e) ↔ ¬ Within s a := by
  cases a with
  | fds a =>
      have hmap : ∀ e, step s (.fds a) = .abort e ↔ FdTable.step s.fds a = .abort e := by
        intro e
        rw [step]
        cases FdTable.step s.fds a <;> simp [Outcome.map]
      simp only [hmap]
      cases a with
      | get thread fd auto_create => exact get_abort_iff hs.fds thread fd auto_create
      | create thread => exact create_abort_iff hs.fds thread
      | del fd =>
          simp only [FdTable.step, Within]
          refine abort_iff_of_test hs.fds (fun hpass hlt e => ?_) (fun hpass hout => ?_) fun hpass e => ?_
          · simp [hpass, hlt]
          · simp [hpass, hout]
          · simp [hpass]
  | addEvent thread fd =>
      cases hpc : s.pc thread with
      | grow fd' => simp [step, addEvent, Within, hpc]
      | idle =>
          simp only [step, addEvent, Within, hpc, true_imp_iff]
          refine abort_iff_of_test hs.contexts (fun hpass hlt e => ?_) (fun hpass hout => ?_) fun hpass e => ?_
          · simp [hpass, hlt]
          · simp [hpass, hout]
          · simp [hpass]
  | grow thread => exact grow_abort_iff s thread
  | delEvent fd | cancelEvent fd | cancelAll fd => exact lookup_abort_iff hs fd

/-! ### Whole runs -/

theorem inv_start : Inv start where
  fds := by decide
  contexts := by
    show (ContextTable.Table.contextResize 32 ⟨[], 0⟩).fdContexts.length < 2 ^ 32
    rw [ContextTable.length_contextResize]
    omega

/-- No access lies outside its table exactly as long as every descriptor that passes a test against a size is not negative, and so is every one that a table grows for, which is 2 at least. -/
theorem never_outside_iff (acts : List Action) : (∀ e, run step start acts ≠ .abort e) ↔ Along step Within start acts := by
  rw [← run_ne_abort_iff_along_of_reasons (E := fun _ => True) (fun _ _ _ hs h => step_inv hs h)
    (fun s a hs => by simpa using step_abort_iff hs a) inv_start acts]
  simp

/-- `FdManager::get(-1)`, as of `read(-1, ..)` on a thread with hooks: `-1` is less than the size. -/
theorem negative_descriptor_outside : ¬ ∀ acts : List Action, ∀ e, run step start acts ≠ .abort e := by
  intro h
  exact h [.fds (.get 0 (-1) false)] .outOfRange (by rfl)

end Awcotn.Descriptors
