import Awcotn.Timer.Effects

/-!
# The writes of an operation

The operations of the manager as the sequences of single writes they make, to one field of one timer object or to the set, in the order of the source. Run one after another the writes of an operation give the operation, and each of them changes a deadline only where the timer is out of the set: this is what keeps the set searchable at every moment and not only between operations.
-/

namespace Awcotn.TimerManager

open Transition

variable {Cb : Type*} {m : TimerManager Cb}

/-- One write to a timer object, to the set, or to a member of the manager. -/
inductive Write (Cb : Type*)
  | construct (a : Addr) (t : Timer Cb)
  | destroy (a : Addr)
  | clearCb (a : Addr)
  | setMs (a : Addr) (ms : UInt64)
  | setNext (a : Addr) (next : UInt64)
  | insert (a : Addr)
  | erase (it : ℕ)
  | eraseFront (it : ℕ)
  | setTickled (tickled : Bool)
  | setPreviouseTime (now : UInt64)

namespace Write

/-- Change the object at an address, if there is one. -/
def modify (m : TimerManager Cb) (a : Addr) (f : Timer Cb → Timer Cb) : TimerManager Cb :=
  { m with heap := Function.update m.heap a ((m.heap a).map f) }

def apply (m : TimerManager Cb) : Write Cb → TimerManager Cb
  | .construct a t => m.store a t
  | .destroy a => m.free a
  | .clearCb a => modify m a fun t => { t with cb := none }
  | .setMs a ms => modify m a fun t => { t with ms := ms }
  | .setNext a next => modify m a fun t => { t with next := next }
  | .insert a => { m with timers := OrderedSet.insert Before m.key a m.timers }
  | .erase it => { m with timers := m.timers.eraseIdx it }
  | .eraseFront it => { m with timers := m.timers.drop it }
  | .setTickled tickled => { m with tickled := tickled }
  | .setPreviouseTime now => { m with previouseTime := now }

def step (m : TimerManager Cb) (w : Write Cb) : Outcome Unit (TimerManager Cb) := .next (w.apply m)

end Write

/-- The writes of the manager's own `addTimer`. -/
def insertWrites (m : TimerManager Cb) (a : Addr) : List (Write Cb) :=
  .insert a :: if (m.insertTimer a).1 then [.setTickled true] else []

/-- The writes of the loop over the expired timers. -/
def collectWrites (now : UInt64) : List Addr → TimerManager Cb → List (Write Cb)
  | [], _ => []
  | a :: expired, m =>
    match m.heap a with
    | none => collectWrites now expired m
    | some t =>
      if t.recurring then
        .setNext a (now + t.ms) :: .insert a ::
          collectWrites now expired ((Write.insert a).apply ((Write.setNext a (now + t.ms)).apply m))
      else .clearCb a :: collectWrites now expired ((Write.clearCb a).apply m)

def expireWrites (m : TimerManager Cb) (now : UInt64) (probe : Addr) (rollover : Bool) : List (Write Cb) :=
  let it := m.expiredEnd now probe rollover
  .eraseFront it :: collectWrites now (m.timers.take it) ((Write.eraseFront it).apply m)

/-- The manager with a timer taken out of the set, before it is written. -/
abbrev erased (m : TimerManager Cb) (a : Addr) : TimerManager Cb :=
  { m with timers := m.timers.eraseIdx (OrderedSet.find Before m.key (m.key a) m.timers) }

/-- The writes of each operation. -/
def writes (m : TimerManager Cb) : Action Cb → List (Write Cb)
  | .addTimer a ms cb recurring now =>
    let t : Timer Cb := { recurring := recurring, ms := ms, next := ms + now, cb := cb }
    .construct a t :: (m.store a t).insertWrites a
  | .cancel a =>
    if (m.cb a).isSome then
      [.clearCb a, .erase (OrderedSet.find Before m.key (m.key a) m.timers)]
    else []
  | .refresh a now =>
    match m.heap a with
    | none => []
    | some t =>
      let it := OrderedSet.find Before m.key (m.key a) m.timers
      if t.cb.isNone ∨ it = m.timers.length then []
      else
        .erase it :: .setNext a (now + t.ms) ::
          ((m.erased a).store a { t with next := now + t.ms }).insertWrites a
  | .reset a ms fromNow now =>
    match m.heap a with
    | none => []
    | some t =>
      let it := OrderedSet.find Before m.key (m.key a) m.timers
      if ms = t.ms ∧ fromNow = false ∨ t.cb.isNone ∨ it = m.timers.length then []
      else
        let start := if fromNow then now else t.next - t.ms
        .erase it :: .setMs a ms :: .setNext a (start + ms) ::
          ((m.erased a).store a { t with ms := ms, next := start + ms }).insertWrites a
  | .getNextTimer _ => [.setTickled false]
  | .listExpiredCb now probe =>
    match m.timers with
    | [] => []
    | front :: _ =>
      .setPreviouseTime now ::
        if (m.delectClockRollover now).1 then (m.clocked now).expireWrites now probe true
        else if m.next front < now then []
        else (m.clocked now).expireWrites now probe false
  | .release a => [.destroy a]

/-! ### The writes make the operation -/

theorem modify_eq_store (m : TimerManager Cb) {a : Addr} {t : Timer Cb} (ha : m.heap a = some t) (f : Timer Cb → Timer Cb) :
    Write.modify m a f = m.store a (f t) := by
  rw [Write.modify, ha]
  rfl

theorem store_store (m : TimerManager Cb) (a : Addr) (t t' : Timer Cb) : (m.store a t).store a t' = m.store a t' := by
  simp [store]

theorem run_cons_write (m : TimerManager Cb) (w : Write Cb) (ws : List (Write Cb)) :
    run Write.step m (w :: ws) = run Write.step (w.apply m) ws := rfl

theorem run_insertWrites (m : TimerManager Cb) (a : Addr) :
    run Write.step m (m.insertWrites a) = .next (m.insertTimer a).2 := by
  have hinsert : (Write.insert a).apply m = { m with timers := OrderedSet.insert Before m.key a m.timers } := rfl
  by_cases hfront : (m.insertTimer a).1 = true
  · simp only [insertWrites, if_pos hfront, run, Write.step, hinsert]
    simp only [insertTimer, decide_eq_true_eq] at hfront
    simp [Write.apply, insertTimer, hfront]
  · simp only [insertWrites, if_neg hfront, run, Write.step, hinsert]
    simp only [insertTimer, decide_eq_true_eq] at hfront
    simp [insertTimer, hfront]

theorem run_collectWrites (now : UInt64) (out : List Addr) (cbs : List (Option Cb)) (m : TimerManager Cb) :
    run Write.step m (collectWrites now out m) = .next (collectExpired now out cbs m).2 := by
  induction out generalizing m cbs with
  | nil => rfl
  | cons a out ih =>
      simp only [collectWrites, collectExpired]
      cases ha : m.heap a with
      | none => exact ih cbs m
      | some t =>
          have hnext : (Write.setNext a (now + t.ms)).apply m = m.store a { t with next := now + t.ms } :=
            modify_eq_store m ha _
          have hclear : (Write.clearCb a).apply m = m.store a { t with cb := none } := modify_eq_store m ha _
          dsimp only
          split_ifs with hrec
          · simp only [run, Write.step, hnext]
            exact ih _ _
          · simp only [run, Write.step, hclear]
            exact ih _ _

theorem run_expireWrites (m : TimerManager Cb) (now : UInt64) (probe : Addr) (rollover : Bool) :
    run Write.step m (m.expireWrites now probe rollover) = .next (m.expireFront now probe rollover).2 :=
  run_collectWrites now _ [] _

/-- The writes of an operation, one after another, are the operation. -/
theorem run_writes {act : Action Cb} {m' : TimerManager Cb} (hstep : step m act = .next m') :
    run Write.step m (m.writes act) = .next m' := by
  cases step_performed hstep with
  | @addTimer a => exact run_insertWrites _ a
  | @cancel a r hstored hr =>
      obtain ⟨t, ha⟩ := Option.isSome_iff_exists.1 hstored
      have hkey : (m.store a { t with cb := none }).key = m.key := key_store_of_next ha rfl
      simp only [cancel, ha, hkey, store_timers] at hr
      by_cases hcb : t.cb.isSome = true
      · rw [if_pos hcb] at hr
        split at hr
        · cases hr
          simp only [writes, cb_eq ha, if_pos hcb, run_cons_write, Write.apply, modify_eq_store m ha]
          rfl
        · cases hr
      · rw [if_neg hcb] at hr
        cases hr
        simp [writes, cb_eq ha, hcb]
  | @refresh a now r hstored hr =>
      obtain ⟨t, ha⟩ := Option.isSome_iff_exists.1 hstored
      simp only [refresh, ha] at hr
      split_ifs at hr with hcb hfind
      · cases hr
        simp [writes, ha, hcb]
      · cases hr
        simp [writes, ha, hfind]
      · cases hr
        have hfound : ¬ (t.cb.isNone = true ∨
            OrderedSet.find Before m.key (m.key a) m.timers = m.timers.length) := by simp [hcb, hfind]
        simp only [writes, ha, if_neg hfound, run_cons_write, Write.apply]
        rw [modify_eq_store (m.erased a) ha]
        exact run_insertWrites _ a
  | @reset a ms fromNow now r hstored hr =>
      obtain ⟨t, ha⟩ := Option.isSome_iff_exists.1 hstored
      simp only [reset, ha] at hr
      split at hr
      · rename_i hsame
        cases hr
        simp [writes, ha, hsame]
      split at hr
      · rename_i hcb
        cases hr
        simp [writes, ha, hcb]
      split at hr
      · rename_i hfind
        cases hr
        simp [writes, ha, hfind]
      · rename_i hsame hcb hfind
        cases hr
        have hfound : ¬ (ms = t.ms ∧ fromNow = false ∨ t.cb.isNone = true ∨
            OrderedSet.find Before m.key (m.key a) m.timers = m.timers.length) := by simp [hsame, hcb, hfind]
        simp only [writes, ha, if_neg hfound, run_cons_write, Write.apply]
        rw [modify_eq_store (m.erased a) ha, modify_eq_store _ (store_heap_self _ a _), store_store]
        exact run_insertWrites _ a
  | getNextTimer =>
      cases htimers : m.timers <;> simp [writes, run, Write.step, Write.apply, getNextTimer, htimers]
  | @listExpiredCb now probe r _ hr =>
      cases htimers : m.timers with
      | nil =>
          simp only [listExpiredCb, htimers, List.isEmpty_nil, if_true] at hr
          cases hr
          simp [writes, htimers]
      | cons front rest =>
          rw [listExpiredCb_cons htimers] at hr
          cases hr
          simp only [writes, htimers, run, Write.step]
          split_ifs
          · exact run_expireWrites (m.clocked now) now probe true
          · rfl
          · exact run_expireWrites (m.clocked now) now probe false
  | release => rfl

/-! ### Deadlines change outside the set -/

/-- A write that may change a deadline is to a timer that is not in the set. -/
def Write.Outside (m : TimerManager Cb) : Write Cb → Prop
  | .construct a _ => a ∉ m.timers
  | .destroy a => a ∉ m.timers
  | .setNext a _ => a ∉ m.timers
  | _ => True

/-- The write leaves the deadline of every timer in the set alone, and finds and leaves the set sorted. -/
structure Write.KeepsOrder (m : TimerManager Cb) (w : Write Cb) : Prop where
  next : ∀ a ∈ m.timers, (w.apply m).next a = m.next a
  before : OrderedSet.Sorted Before m.key m.timers
  after : OrderedSet.Sorted Before (w.apply m).key (w.apply m).timers

theorem next_modify_of_ne (m : TimerManager Cb) {a b : Addr} (f : Timer Cb → Timer Cb) (h : b ≠ a) :
    (Write.modify m a f).next b = m.next b :=
  next_congr (Function.update_of_ne h _ m.heap)

theorem next_modify (m : TimerManager Cb) (a b : Addr) {f : Timer Cb → Timer Cb} (hf : ∀ t, (f t).next = t.next) :
    (Write.modify m a f).next b = m.next b := by
  by_cases hb : b = a
  · subst hb
    cases hheap : m.heap b <;> simp [TimerManager.next, Write.modify, hheap, hf]
  · exact next_modify_of_ne m f hb

theorem Write.next_apply {w : Write Cb} (h : w.Outside m) {b : Addr} (hb : b ∈ m.timers) :
    (w.apply m).next b = m.next b := by
  have hne : ∀ a, a ∉ m.timers → b ≠ a := fun a ha heq => ha (heq ▸ hb)
  cases w with
  | construct a t => exact next_congr (store_heap_of_ne m t (hne a h))
  | destroy a => exact next_congr (free_heap_of_ne m (hne a h))
  | clearCb a => exact next_modify m a b fun _ => rfl
  | setMs a ms => exact next_modify m a b fun _ => rfl
  | setNext a next => exact next_modify_of_ne m _ (hne a h)
  | insert a => rfl
  | erase it => rfl
  | eraseFront it => rfl
  | setTickled tickled => rfl
  | setPreviouseTime now => rfl

theorem Write.sorted_apply {w : Write Cb} (h : w.Outside m) (hsorted : OrderedSet.Sorted Before m.key m.timers) :
    OrderedSet.Sorted Before (w.apply m).key (w.apply m).timers := by
  have hkeys : OrderedSet.Sorted Before (w.apply m).key m.timers :=
    (OrderedSet.sorted_congr fun b hb => congrArg (·, b) (w.next_apply h hb)).2 hsorted
  cases w with
  | insert a => exact OrderedSet.sorted_insert hsorted
  | erase it => exact OrderedSet.sorted_eraseIdx hsorted it
  | eraseFront it => exact hsorted.sublist (List.drop_sublist it _)
  | construct a t => exact hkeys
  | destroy a => exact hkeys
  | clearCb a => exact hkeys
  | setMs a ms => exact hkeys
  | setNext a next => exact hkeys
  | setTickled tickled => exact hkeys
  | setPreviouseTime now => exact hkeys

theorem along_cons_write (P : TimerManager Cb → Write Cb → Prop) (m : TimerManager Cb) (w : Write Cb)
    (ws : List (Write Cb)) :
    Along Write.step P m (w :: ws) ↔ P m w ∧ Along Write.step P (w.apply m) ws := Iff.rfl

theorem along_keepsOrder {ws : List (Write Cb)} (hsorted : OrderedSet.Sorted Before m.key m.timers)
    (h : Along Write.step Write.Outside m ws) : Along Write.step Write.KeepsOrder m ws := by
  have hkept : ∀ (m : TimerManager Cb) (w : Write Cb) m', OrderedSet.Sorted Before m.key m.timers → w.Outside m →
      Write.step m w = .next m' → OrderedSet.Sorted Before m'.key m'.timers := by
    intro m w m' hm hw hstep
    cases hstep
    exact w.sorted_apply hw hm
  refine (throughout_of_along hkept hsorted h).2.mono fun m w hm => ?_
  exact ⟨fun a ha => w.next_apply hm.2 ha, hm.1, w.sorted_apply hm.2 hm.1⟩

theorem outside_insertWrites (m : TimerManager Cb) (a : Addr) : Along Write.step Write.Outside m (m.insertWrites a) := by
  refine along_of_forall (fun w hw m => ?_) m
  simp only [insertWrites, List.mem_cons] at hw
  rcases hw with rfl | hw
  · trivial
  · split_ifs at hw
    · rw [List.mem_singleton.1 hw]
      trivial
    · cases hw

theorem outside_collectWrites (now : UInt64) (out : List Addr) (h : WfUpTo m out) :
    Along Write.step Write.Outside m (collectWrites now out m) := by
  induction out generalizing m with
  | nil => trivial
  | cons a out ih =>
      obtain ⟨t, ha⟩ := Option.isSome_iff_exists.1 (h.out_stored a List.mem_cons_self)
      have hnext : (Write.setNext a (now + t.ms)).apply m = m.store a { t with next := now + t.ms } :=
        modify_eq_store m ha _
      have hclear : (Write.clearCb a).apply m = m.store a { t with cb := none } := modify_eq_store m ha _
      simp only [collectWrites, ha]
      split_ifs with hrec
      · rw [along_cons_write, along_cons_write, hnext]
        exact ⟨h.out_not_mem a List.mem_cons_self, trivial, ih (h.write _).put⟩
      · rw [along_cons_write, hclear]
        refine ⟨trivial, ?_⟩
        exact ih ((h.write { t with cb := none }).letGo (by simp [TimerManager.cb]))

theorem outside_expireWrites (h : Wf m) (now : UInt64) (probe : Addr) (rollover : Bool) :
    Along Write.step Write.Outside m (m.expireWrites now probe rollover) :=
  ⟨trivial, outside_collectWrites now _ (WfUpTo.takeFront h _)⟩

/-- What `refresh` and `reset` write to a timer they have taken out. -/
theorem outside_erased (h : Wf m) {a : Addr}
    (hfound : OrderedSet.find Before m.key (m.key a) m.timers ≠ m.timers.length) :
    a ∉ m.timers.eraseIdx (OrderedSet.find Before m.key (m.key a) m.timers) := fun hmem =>
  ((OrderedSet.mem_eraseIdx_find h.sorted (mem_of_find_ne_length hfound)).1 hmem).2 rfl

/-- Every operation that goes through changes deadlines outside the set only. -/
theorem outside_writes (h : Wf m) {act : Action Cb} {m' : TimerManager Cb} (hstep : step m act = .next m') :
    Along Write.step Write.Outside m (m.writes act) := by
  cases step_performed hstep with
  | @addTimer a _ _ _ _ hnew => exact ⟨not_mem_of_heap h hnew, outside_insertWrites _ a⟩
  | cancel =>
      simp only [writes]
      split_ifs
      · exact ⟨trivial, trivial, trivial⟩
      · trivial
  | @refresh a now =>
      simp only [writes]
      split
      · trivial
      · rename_i t ha
        split_ifs with hfound
        · trivial
        · push Not at hfound
          refine ⟨trivial, outside_erased h hfound.2, ?_⟩
          simp only [Write.step, Write.apply]
          rw [modify_eq_store (m.erased a) ha]
          exact outside_insertWrites _ a
  | @reset a ms fromNow now =>
      simp only [writes]
      split
      · trivial
      · rename_i t ha
        split
        · trivial
        · rename_i hfound
          push Not at hfound
          refine ⟨trivial, trivial, outside_erased h hfound.2.2, ?_⟩
          simp only [Write.step, Write.apply]
          rw [modify_eq_store (m.erased a) ha, modify_eq_store _ (store_heap_self _ a _), store_store]
          exact outside_insertWrites _ a
  | getNextTimer => exact ⟨trivial, trivial⟩
  | @listExpiredCb now probe =>
      simp only [writes]
      split
      · trivial
      · refine ⟨trivial, ?_⟩
        simp only [Write.step]
        split_ifs
        · exact outside_expireWrites (clocked_wf h now) now probe true
        · trivial
        · exact outside_expireWrites (clocked_wf h now) now probe false
  | release hin => exact ⟨hin, trivial⟩

end Awcotn.TimerManager
