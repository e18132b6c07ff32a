import Awcotn.Foundation.Run
import Awcotn.Foundation.Slots
import Awcotn.Hook.FdManager

/-!
# Contexts and their identity

`FdManager::get` and `FdManager::del` of `fd_manager.cc` as any number of threads run them. `get` looks its descriptor up under the read lock, and where it finds nothing and is to create a context it constructs one outside the locks and puts it in the table under the write lock. The two sections are separate steps. A slot holds the address of its `FdCtx`, so that a context that takes the place of another is a different one.

Descriptors are `int` as in the source, and so is the size that they are compared with.
-/

namespace Awcotn.FdTable

open Transition Slots

abbrev Addr := ℕ
abbrev ThreadId := ℕ

/-- The ways in which an access to a table leaves defined behaviour: its index lies outside, or the table is to grow to a negative size. -/
inductive Fault
  | outOfRange
  | undefinedSize
  deriving DecidableEq

/-- Where a thread stands in `get`. -/
inductive Pc
  | idle
  /-- The read-locked section has found no context, and one is to be created. -/
  | missed (fd : Int32)
  deriving DecidableEq

/-- `m_datas`, the next address `new FdCtx` returns, and where the threads stand. `returned` is not in the source: the contexts that calls of `get` on a descriptor have returned since the last `del` on it. -/
structure State where
  datas : Slots Addr
  nextAddr : Addr
  pc : ThreadId → Pc
  returned : Int32 → List Addr

inductive Action
  /-- A thread calls `get` and passes the read-locked section. -/
  | get (thread : ThreadId) (fd : Int32) (auto_create : Bool)
  /-- A thread passes the write-locked section of `get`. -/
  | create (thread : ThreadId)
  | del (fd : Int32)
  deriving DecidableEq

/-- `fd * 1.5` as a `size_t`; the conversion of a negative number is undefined. -/
def grown (fd : Int32) : Option ℕ := if 0 ≤ fd.toInt then some (fd.toInt.toNat * 3 / 2) else none

/-- `FdManager::FdManager` -/
def start : State := { datas := .nulls 64, nextAddr := 0, pc := fun _ => .idle, returned := fun _ => [] }

namespace State

def goto (s : State) (thread : ThreadId) (pc : Pc) : State := { s with pc := Function.update s.pc thread pc }

/-- A call of `get` on `fd` returns `ctx`. -/
def return_ (s : State) (fd : Int32) (ctx : Addr) : State :=
  { s with returned := Function.update s.returned fd (s.returned fd ++ [ctx]) }

/-- The end of the read-locked section, where it has found nothing. -/
def miss (s : State) (thread : ThreadId) (fd : Int32) (auto_create : Bool) : State :=
  if auto_create then s.goto thread (.missed fd) else s

/-- The table with room for `fd`: `if(fd >= (int)m_datas.size()) m_datas.resize(fd * 1.5);` -/
def room (s : State) (fd : Int32) : Except Fault (Slots Addr) :=
  if intSize s.datas.size ≤ fd.toInt then
    match grown fd with
    | some size => .ok (s.datas.resize size)
    | none => .error .undefinedSize
  else .ok s.datas

end State

def step (s : State) : Action → Outcome Fault State
  | .get thread fd auto_create =>
    match s.pc thread with
    | .missed _ => .disabled
    | .idle =>
      if fd.toInt < intSize s.datas.size then
        if index fd < s.datas.size then
          match s.datas.slot (index fd) with
          | some ctx => .next (s.return_ fd ctx)
          | none => .next (s.miss thread fd auto_create)
        else .abort .outOfRange
      else .next (s.miss thread fd auto_create)
  | .create thread =>
    match s.pc thread with
    | .idle => .disabled
    | .missed fd =>
      match s.room fd with
      | .error e => .abort e
      | .ok datas =>
        if h : index fd < datas.size then
          .next (({ s with datas := datas.set (index fd) h (some s.nextAddr), nextAddr := s.nextAddr + 1 }.goto thread
            .idle).return_ fd s.nextAddr)
        else .abort .outOfRange
  | .del fd =>
    let s := { s with returned := Function.update s.returned fd [] }
    if fd.toInt < intSize s.datas.size then
      if h : index fd < s.datas.size then .next { s with datas := s.datas.set (index fd) h none }
      else .abort .outOfRange
    else .next s

/-! ### What is to be shown -/

/-- All calls of `get` on a descriptor since the last `del` on it have returned one context. -/
def Same (s : State) : Prop := ∀ fd, ∀ ctx ∈ s.returned fd, ∀ ctx' ∈ s.returned fd, ctx = ctx'

/-- The step leaves `Same` true, and one that creates a context for a descriptor leaves the contexts of all others where they are. -/
def Shares (s : State) (a : Action) : Prop :=
  ∀ t, step s a = .next t → Same t ∧
    ∀ thread fd, a = .create thread → s.pc thread = .missed fd → ∀ i, i ≠ index fd → t.datas.slot i = s.datas.slot i

/-- The descriptor of a call is not negative. -/
def Nonneg : Action → Prop
  | .get _ fd _ | .del fd => 0 ≤ fd.toInt
  | .create _ => True

/-- When a thread puts its context in the table, no call has returned another since the last `del`; and growth cuts off no context. -/
def CreatesAlone (s : State) : Action → Prop
  | .create thread => ∀ fd, s.pc thread = .missed fd → (fd.toInt < intSize s.datas.size ∨ 2 ≤ fd.toInt) →
      s.returned fd = [] ∧
        (intSize s.datas.size ≤ fd.toInt → ∀ i, fd.toInt.toNat * 3 / 2 ≤ i → s.datas.slot i = none)
  | _ => True

/-! ### The invariant -/

/-- New contexts are new, and in a run in which contexts are shared those that have been returned are in the table. Nothing is returned for a negative descriptor. -/
structure Inv (s : State) : Prop where
  pc : ∀ thread fd, s.pc thread = .missed fd → 0 ≤ fd.toInt
  below : ∀ fd, ∀ ctx ∈ s.returned fd, ctx < s.nextAddr
  table : ∀ i ctx, s.datas.slot i = some ctx → ctx < s.nextAddr
  kept : ∀ fd, ∀ ctx ∈ s.returned fd, 0 ≤ fd.toInt ∧ s.datas.slot (index fd) = some ctx

theorem inv_start : Inv start where
  pc := nofun
  below := nofun
  table := nofun
  kept := nofun

variable {s t : State} {thread : ThreadId} {fd : Int32}

theorem Inv.same (h : Inv s) : Same s := by
  intro fd ctx hctx ctx' hctx'
  exact Option.some.inj ((h.kept fd ctx hctx).2.symm.trans (h.kept fd ctx' hctx').2)

theorem Inv.goto (h : Inv s) (thread : ThreadId) {pc : Pc} (hpc : ∀ fd, pc = .missed fd → 0 ≤ fd.toInt) : Inv (s.goto thread pc) := by
  refine ⟨fun other fd hother => ?_, h.below, h.table, h.kept⟩
  by_cases heq : other = thread
  · subst heq
    exact hpc fd (by simpa [State.goto] using hother)
  · exact h.pc other fd (by simpa [State.goto, heq] using hother)

/-- A call returns the context that is in the table. -/
theorem Inv.return_ (h : Inv s) (hfd : 0 ≤ fd.toInt) {ctx : Addr} (hctx : s.datas.slot (index fd) = some ctx) :
    Inv (s.return_ fd ctx) := by
  have hmem : ∀ fd' ctx', ctx' ∈ (s.return_ fd ctx).returned fd' ↔ ctx' ∈ s.returned fd' ∨ fd' = fd ∧ ctx' = ctx := by
    intro fd' ctx'
    by_cases heq : fd' = fd
    · simp [State.return_, heq]
    · simp [State.return_, heq]
  refine ⟨h.pc, fun fd' ctx' hctx' => ?_, h.table, fun fd' ctx' hctx' => ?_⟩
  · rcases (hmem fd' ctx').1 hctx' with hold | ⟨rfl, rfl⟩
    · exact h.below fd' ctx' hold
    · exact h.table _ _ hctx
  · rcases (hmem fd' ctx').1 hctx' with hold | ⟨rfl, rfl⟩
    · exact h.kept fd' ctx' hold
    · exact ⟨hfd, hctx⟩

/-! ### The write-locked section -/

/-- The table reaches `fd` where it has reached it before or where half as much again is more; and what growth drops lies at or past that size. -/
theorem room_eq (s : State) (hfd : 0 ≤ fd.toInt) :
    ∃ datas, s.room fd = .ok datas ∧ (index fd < datas.size ↔ fd.toInt < intSize s.datas.size ∨ 2 ≤ fd.toInt) ∧
      (∀ i ctx, datas.slot i = some ctx → s.datas.slot i = some ctx) ∧
      ∀ i, (datas.slot i = s.datas.slot i ↔
        (intSize s.datas.size ≤ fd.toInt → fd.toInt.toNat * 3 / 2 ≤ i → s.datas.slot i = none)) := by
  have hle := intSize_le s.datas.size
  have hindex := index_of_nonneg hfd
  by_cases hgrow : intSize s.datas.size ≤ fd.toInt
  · refine ⟨s.datas.resize (fd.toInt.toNat * 3 / 2), ?_, ?_, fun i ctx => slot_resize_of_some, fun i => ?_⟩
    · simp only [State.room, if_pos hgrow, grown, if_pos hfd]
    · rw [size_resize, hindex]
      omega
    · rw [slot_resize_eq_iff]
      exact ⟨fun h _ => h, fun h => h hgrow⟩
  · refine ⟨s.datas, by simp only [State.room, if_neg hgrow], ?_, fun _ _ h => h, fun i => ?_⟩
    · rw [hindex]
      omega
    · exact iff_of_true rfl fun h => absurd h hgrow

/-- The write-locked section puts a new context in the slot of its descriptor, or its index lies outside. -/
theorem create_eq (hpc : s.pc thread = .missed fd) {datas : Slots Addr} (hroom : s.room fd = .ok datas) :
    step s (.create thread) = if h : index fd < datas.size then
      .next (({ s with datas := datas.set (index fd) h (some s.nextAddr), nextAddr := s.nextAddr + 1 }.goto thread
        .idle).return_ fd s.nextAddr)
      else .abort .outOfRange := by
  simp only [step, hpc, hroom]

/-- With every address read as the context allocated there, and a table whose size is an `int`, the section is the `create` of `FdManager`. -/
theorem get_create_of_step {m : FdManager} {heap : Addr → FdCtx} {stat : FdCtx.Stat} (hpc : s.pc thread = .missed fd)
    (hfd : 0 ≤ fd.toInt) (hlength : m.datas.length = s.datas.size) (hlow : 2 ≤ s.datas.size) (hhigh : s.datas.size < 2 ^ 31)
    (hheap : ∀ i, m.get i = (s.datas.slot i).map heap) (hnew : heap s.nextAddr = .new stat)
    (hstep : step s (.create thread) = .next t) (i : ℕ) :
    (m.create (index fd) stat).get i = (t.datas.slot i).map heap := by
  obtain ⟨datas, hroom, hfits, -, hslot⟩ := room_eq s hfd
  rw [create_eq hpc hroom] at hstep
  split_ifs at hstep with hin
  cases hstep
  rw [FdManager.get_create (by omega)]
  by_cases heq : i = index fd
  · simp [heq, State.return_, State.goto, hnew]
  · have hkept : datas.slot i = s.datas.slot i := by
      refine (hslot i).2 fun hgrow hi => s.datas.past i ?_
      rw [intSize_of_lt hhigh] at hgrow
      omega
    rw [if_neg heq, hheap, ← hkept]
    simp only [State.return_, State.goto, slot_set_of_ne _ _ _ heq]

theorem shares_create_iff (hs : Inv s) (thread : ThreadId) : Shares s (.create thread) ↔ CreatesAlone s (.create thread) := by
  cases hpc : s.pc thread with
  | idle => exact iff_of_true (by simp [Shares, step, hpc]) (by simp [CreatesAlone, hpc])
  | missed fd =>
      have hfd := hs.pc thread fd hpc
      obtain ⟨datas, hroom, hfits, -, hslot⟩ := room_eq s hfd
      have hstep := create_eq hpc hroom
      by_cases hin : index fd < datas.size
      · rw [dif_pos hin] at hstep
        have hreturned : ∀ t, step s (.create thread) = .next t → ∀ fd', t.returned fd' =
            if fd' = fd then s.returned fd ++ [s.nextAddr] else s.returned fd' := by
          intro t ht fd'
          rw [hstep] at ht
          cases ht
          by_cases heq : fd' = fd
          · simp [State.return_, State.goto, heq]
          · simp [State.return_, State.goto, heq]
        constructor
        · intro h fd' hpc' _
          obtain rfl : fd = fd' := Pc.missed.inj (hpc.symm.trans hpc')
          obtain ⟨hsame, hothers⟩ := h _ hstep
          refine ⟨?_, fun hgrow i hi => ?_⟩
          · refine List.eq_nil_iff_forall_not_mem.2 fun ctx hmem => ?_
            have hboth := hreturned _ hstep fd
            rw [if_pos rfl] at hboth
            have heq : ctx = s.nextAddr := hsame fd ctx (by rw [hboth]; exact List.mem_append_left _ hmem) s.nextAddr
              (by rw [hboth]; exact List.mem_append_right _ List.mem_cons_self)
            exact Nat.ne_of_lt (hs.below fd ctx hmem) heq
          · have hne : i ≠ index fd := by
              rw [index_of_nonneg hfd]
              have := hfits.1 hin
              omega
            have hkept := hothers thread fd rfl hpc i hne
            simp only [State.return_, State.goto, slot_set_of_ne _ _ _ hne] at hkept
            exact (hslot i).1 hkept hgrow hi
        · intro h t ht
          obtain ⟨hempty, hpast⟩ := h fd hpc (hfits.1 hin)
          refine ⟨fun fd' ctx hctx ctx' hctx' => ?_, fun thread' fd' hact hpc' i hne => ?_⟩
          · rw [hreturned t ht] at hctx hctx'
            split_ifs at hctx hctx' with heq
            · rw [hempty, List.nil_append, List.mem_singleton] at hctx hctx'
              exact hctx.trans hctx'.symm
            · exact hs.same fd' ctx hctx ctx' hctx'
          · cases hact
            obtain rfl : fd = fd' := Pc.missed.inj (hpc.symm.trans hpc')
            rw [hstep] at ht
            cases ht
            simp only [State.return_, State.goto, slot_set_of_ne _ _ _ hne]
            exact (hslot i).2 fun hgrow hi => hpast hgrow i hi
      · rw [dif_neg hin] at hstep
        refine iff_of_true (fun t ht => ?_) fun fd' hpc' hreach => ?_
        · rw [hstep] at ht
          cases ht
        · obtain rfl : fd = fd' := Pc.missed.inj (hpc.symm.trans hpc')
          exact absurd (hfits.2 hreach) hin

/-! ### Steps -/

theorem inv_create (hs : Inv s) (h : CreatesAlone s (.create thread)) (hstep : step s (.create thread) = .next t) : Inv t := by
  cases hpc : s.pc thread with
  | idle => simp [step, hpc] at hstep
  | missed fd =>
      have hfd := hs.pc thread fd hpc
      obtain ⟨datas, hroom, hfits, hold, hslot⟩ := room_eq s hfd
      rw [create_eq hpc hroom] at hstep
      split_ifs at hstep with hin
      cases hstep
      obtain ⟨hempty, hpast⟩ := h fd hpc (hfits.1 hin)
      have hother : ∀ fd', 0 ≤ fd'.toInt → fd' ≠ fd → index fd' ≠ index fd := fun fd' hfd' hne heq =>
        hne (index_injective hfd' hfd heq)
      have hinserted : Inv { s with
          datas := datas.set (index fd) hin (some s.nextAddr), nextAddr := s.nextAddr + 1
          returned := Function.update s.returned fd [s.nextAddr] } := by
        refine ⟨hs.pc, fun fd' ctx hctx => ?_, fun i ctx hctx => ?_, fun fd' ctx hctx => ?_⟩
        · by_cases heq : fd' = fd
          · simp only [heq, Function.update_self, List.mem_singleton] at hctx
            exact hctx ▸ Nat.lt_succ_self _
          · simp only [Function.update_of_ne heq] at hctx
            exact Nat.lt_succ_of_lt (hs.below fd' ctx hctx)
        · by_cases heq : i = index fd
          · subst heq
            rw [slot_set_self] at hctx
            exact Option.some.inj hctx ▸ Nat.lt_succ_self _
          · rw [slot_set_of_ne _ _ _ heq] at hctx
            exact Nat.lt_succ_of_lt (hs.table i ctx (hold i ctx hctx))
        · by_cases heq : fd' = fd
          · subst heq
            simp only [Function.update_self, List.mem_singleton] at hctx
            exact ⟨hfd, by simp [hctx]⟩
          · simp only [Function.update_of_ne heq] at hctx
            obtain ⟨hfd', hkept⟩ := hs.kept fd' ctx hctx
            refine ⟨hfd', ?_⟩
            simp only [slot_set_of_ne _ _ _ (hother fd' hfd' heq)]
            rw [(hslot _).2 fun hgrow hi => hpast hgrow _ hi, hkept]
      have hgoto := hinserted.goto thread (by simp : ∀ fd, Pc.idle = .missed fd → 0 ≤ fd.toInt)
      simpa only [State.return_, State.goto, hempty, List.nil_append] using hgoto

theorem inv_get {auto_create : Bool} (hs : Inv s) (hfd : 0 ≤ fd.toInt) (hstep : step s (.get thread fd auto_create) = .next t) :
    Inv t := by
  have hmiss : Inv (s.miss thread fd auto_create) := by
    simp only [State.miss]
    split_ifs
    · exact hs.goto thread fun fd' heq => Pc.missed.inj heq ▸ hfd
    · exact hs
  simp only [step] at hstep
  split at hstep
  · cases hstep
  split_ifs at hstep
  · split at hstep
    · rename_i ctx hctx
      cases hstep
      exact hs.return_ hfd hctx
    · cases hstep
      exact hmiss
  · cases hstep
    exact hmiss

theorem inv_del (hs : Inv s) (hfd : 0 ≤ fd.toInt) (hstep : step s (.del fd) = .next t) : Inv t := by
  have hreturned : ∀ fd' ctx, ctx ∈ Function.update s.returned fd [] fd' ↔ fd' ≠ fd ∧ ctx ∈ s.returned fd' := by
    intro fd' ctx
    by_cases heq : fd' = fd
    · simp [heq]
    · simp [heq]
  have hkept : ∀ datas : Slots Addr, (∀ i, i ≠ index fd → datas.slot i = s.datas.slot i) →
      (∀ i ctx, datas.slot i = some ctx → s.datas.slot i = some ctx) →
      Inv { s with datas := datas, returned := Function.update s.returned fd [] } := by
    intro datas hother hold
    refine ⟨hs.pc, fun fd' ctx hctx => hs.below fd' ctx ((hreturned fd' ctx).1 hctx).2,
      fun i ctx hctx => hs.table i ctx (hold i ctx hctx), fun fd' ctx hctx => ?_⟩
    obtain ⟨hne, hmem⟩ := (hreturned fd' ctx).1 hctx
    obtain ⟨hfd', hin⟩ := hs.kept fd' ctx hmem
    exact ⟨hfd', (hother _ fun heq => hne (index_injective hfd' hfd heq)).trans hin⟩
  simp only [step] at hstep
  split_ifs at hstep with hlt hin
  · cases hstep
    refine hkept _ (fun i hi => slot_set_of_ne _ _ _ hi) fun i ctx hctx => ?_
    by_cases heq : i = index fd
    · rw [heq, slot_set_self] at hctx
      cases hctx
    · rwa [slot_set_of_ne _ _ _ heq] at hctx
  · cases hstep
    exact hkept s.datas (fun _ _ => rfl) fun _ _ h => h

/-! ### Whole runs -/

theorem shares_iff (hs : Inv s) {a : Action} (ha : Nonneg a) : Shares s a ↔ CreatesAlone s a := by
  cases a with
  | create thread => exact shares_create_iff hs thread
  | get thread fd auto_create =>
      exact iff_of_true (fun t ht => ⟨(inv_get hs ha ht).same, nofun⟩) trivial
  | del fd => exact iff_of_true (fun t ht => ⟨(inv_del hs ha ht).same, nofun⟩) trivial

theorem step_inv {a : Action} (hs : Inv s) (ha : Nonneg a) (h : CreatesAlone s a) (hstep : step s a = .next t) : Inv t := by
  cases a with
  | create thread => exact inv_create hs h hstep
  | get thread fd auto_create => exact inv_get hs ha hstep
  | del fd => exact inv_del hs ha hstep

/-- In a run on descriptors that are not negative, the calls of `get` between two `del` share one context and growth keeps the others, exactly as long as no call puts a context in the table after another has been returned, and no growth cuts off a context. -/
theorem shares_iff_createsAlone (acts : List Action) (hacts : ∀ a ∈ acts, Nonneg a) :
    Along step Shares start acts ↔ Along step CreatesAlone start acts := by
  have hnonneg : Along step (fun _ a => Nonneg a) start acts := along_of_forall (fun a ha _ => hacts a ha) start
  have hboth : Along step (fun s a => Nonneg a ∧ Shares s a) start acts ↔
      Along step (fun s a => Nonneg a ∧ CreatesAlone s a) start acts :=
    along_congr_of_along (I := Inv) (fun s a t hs h hstep => step_inv hs h.1 ((shares_iff hs h.1).1 h.2) hstep)
      (fun s a hs => and_congr_right fun ha => shares_iff hs ha) inv_start acts
  exact ⟨fun h => (hboth.1 (hnonneg.and h)).mono fun _ _ => And.right, fun h => (hboth.2 (hnonneg.and h)).mono fun _ _ => And.right⟩

/-- One thread creates a context for descriptor 5 and another finds it. -/
theorem second_thread_finds_context :
    Along step Shares start [.get 0 5 true, .create 0, .get 1 5 true, .get 2 5 false] ↔
      Along step CreatesAlone start [.get 0 5 true, .create 0, .get 1 5 true, .get 2 5 false] :=
  shares_iff_createsAlone _ (by simp [Nonneg])

/-- Two threads look descriptor 5 up and find no context, and each returns one of its own. -/
theorem two_contexts_for_one_descriptor :
    ¬ ∀ acts : List Action, (∀ a ∈ acts, Nonneg a) → Along step Shares start acts := by
  intro h
  have halong := h ([.get 0 5 true, .get 1 5 true, .create 0] ++ [.create 1]) (by simp [Nonneg])
  obtain ⟨s, hrun⟩ : ∃ s, run step start [.get 0 5 true, .get 1 5 true, .create 0] = .next s := ⟨_, rfl⟩
  have hlast := along_singleton.1 ((along_append hrun).1 halong).2
  cases hrun
  have hsame := (hlast _ rfl).1 5 0 (by decide +kernel) 1 (by decide +kernel)
  exact absurd hsame (by decide)

end Awcotn.FdTable
