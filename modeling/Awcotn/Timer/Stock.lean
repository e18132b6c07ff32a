import Awcotn.Timer.Expiry
import Mathlib.Algebra.Order.Group.Multiset
import Mathlib.Data.List.ReduceOption
import Mathlib.Tactic.Abel

/-!
# The callbacks in the timer set

What the timers in the set hold, counted with multiplicity, and what each operation puts in and takes out.
-/

namespace Awcotn.TimerManager

variable {Cb : Type*} {m m' : TimerManager Cb}

/-- The callbacks of the timers in the set. -/
def stock (m : TimerManager Cb) : Multiset Cb := (m.timers.filterMap m.cb : List Cb)

/-- Whether the timer at an address is recurring. -/
def recurs (m : TimerManager Cb) (a : Addr) : Bool := (m.heap a).any Timer.recurring

/-- The callbacks that go back into the set when the timers of a list expire. -/
def rearmed (m : TimerManager Cb) (expired : List Addr) : Multiset Cb :=
  ((expired.filter m.recurs).filterMap m.cb : List Cb)

theorem stock_of_perm {l : List Addr} (htimers : m'.timers.Perm l) (hcb : ∀ a ∈ l, m'.cb a = m.cb a) :
    m'.stock = (l.filterMap m.cb : List Cb) := by
  have hsame : l.filterMap m'.cb = l.filterMap m.cb := List.filterMap_congr hcb
  rw [stock, ← hsame]
  exact Multiset.coe_eq_coe.2 (htimers.filterMap m'.cb)

theorem coe_filterMap_cons (m : TimerManager Cb) (a : Addr) (l : List Addr) :
    (((a :: l).filterMap m.cb : List Cb) : Multiset Cb) = (l.filterMap m.cb : List Cb) + (m.cb a).toList := by
  cases hcb : m.cb a with
  | none => simp [hcb]
  | some c => simp [hcb, add_comm]

/-- Two well-formed sets of the same timers with the same callbacks. -/
theorem stock_of_mem (h : Wf m) (h' : Wf m') (hmem : ∀ a, a ∈ m'.timers ↔ a ∈ m.timers)
    (hcb : ∀ a ∈ m.timers, m'.cb a = m.cb a) : m'.stock = m.stock := by
  have hperm : m'.timers.Perm m.timers := (List.perm_ext_iff_of_nodup h'.sorted.nodup h.sorted.nodup).2 hmem
  exact stock_of_perm hperm hcb

/-- Writing a timer outside the set. -/
theorem store_stock {a : Addr} (hnew : a ∉ m.timers) (t : Timer Cb) : (m.store a t).stock = m.stock :=
  stock_of_perm (List.Perm.refl _) fun _ hb => cb_store_of_ne m t fun heq => hnew (heq ▸ hb)

/-- A timer that goes into the set brings its callback. -/
theorem put_stock {a : Addr} (hnew : a ∉ m.timers) :
    stock { m with timers := OrderedSet.insert Before m.key a m.timers } = m.stock + ((m.cb a).toList : List Cb) := by
  have hperm : (OrderedSet.insert Before m.key a m.timers).Perm (a :: m.timers) :=
    OrderedSet.insert_perm fun b hb heq => hnew (key_injective m heq ▸ hb)
  refine Eq.trans ?_ (coe_filterMap_cons m a m.timers)
  exact stock_of_perm (m := m) hperm fun _ _ => rfl

theorem addTimer_stock (h : Wf m) {a : Addr} (hnew : m.heap a = none) (ms : UInt64) (cb : Option Cb) (recurring : Bool)
    (now : UInt64) : (m.addTimer a ms cb recurring now).2.stock = m.stock + (cb.toList : List Cb) := by
  have hnot : a ∉ m.timers := by
    intro hmem
    have hstored := h.stored a hmem
    rw [hnew] at hstored
    cases hstored
  set t : Timer Cb := { recurring := recurring, ms := ms, next := ms + now, cb := cb } with ht
  have hput := put_stock (m := m.store a t) hnot
  rw [store_stock hnot, cb_eq (store_heap_self m a t)] at hput
  exact hput

/-- A cancelled timer takes its callback out. -/
theorem cancel_stock (h : Wf m) {a : Addr} {r : Bool × TimerManager Cb} (hr : m.cancel a = some r) :
    r.2.stock + ((m.cb a).toList : List Cb) = m.stock := by
  cases ha : m.heap a with
  | none => simp [cancel, ha] at hr
  | some t =>
      cases hcb : t.cb.isSome with
      | false =>
          rw [cancel_dead ha hcb] at hr
          cases hr
          have hnone : m.cb a = none := by rw [cb_eq ha]; simpa using hcb
          simp [hnone]
      | true =>
          obtain ⟨m', hcancel, hwf, hheap, hmem⟩ := cancel_live h ha hcb
          rw [hcancel] at hr
          cases hr
          have hin : a ∈ m.timers := (h.live a t ha hcb).resolve_right (by simp)
          have hperm : m.timers.Perm (a :: m'.timers) := by
            refine (List.perm_ext_iff_of_nodup h.sorted.nodup ?_).2 fun b => ?_
            · exact List.nodup_cons.2 ⟨fun hself => ((hmem a).1 hself).2 rfl, hwf.sorted.nodup⟩
            · rw [List.mem_cons, hmem]
              by_cases hba : b = a
              · simp [hba, hin]
              · simp [hba]
          have hothers : ∀ b ∈ m'.timers, m'.cb b = m.cb b := fun b hb => by
            have hkept : m'.heap b = m.heap b := by rw [hheap, store_heap_of_ne m _ ((hmem b).1 hb).2]
            exact cb_congr hkept
          rw [stock_of_perm hperm fun _ _ => rfl, coe_filterMap_cons, stock_of_perm (List.Perm.refl _) hothers]

/-- Taking a timer out of the set and putting it back with another deadline. -/
theorem rearm_stock (h : Wf m) {a : Addr} {t t' : Timer Cb} (ha : m.heap a = some t) (hcb : t'.cb = t.cb)
    (hfound : OrderedSet.find Before m.key (m.key a) m.timers ≠ m.timers.length) :
    (TimerManager.insertTimer (TimerManager.store
      { m with timers := m.timers.eraseIdx (OrderedSet.find Before m.key (m.key a) m.timers) } a t') a).2.stock =
        m.stock := by
  have hin := mem_of_find_ne_length hfound
  have hmem := fun y => OrderedSet.mem_eraseIdx_find (y := y) h.sorted hin
  refine stock_of_mem h (rearm_wf h t' hfound) (fun y => ?_) fun y hy => ?_
  · refine (OrderedSet.mem_insert fun z hz heq => ((hmem z).1 hz).2 (key_injective _ heq)).trans ?_
    show y = a ∨ y ∈ m.timers.eraseIdx _ ↔ y ∈ m.timers
    rw [hmem]
    by_cases hya : y = a
    · simp [hya, hin]
    · simp [hya]
  · by_cases hya : y = a
    · subst hya
      rw [cb_eq ha, ← hcb]
      exact cb_eq (store_heap_self _ y t')
    · exact cb_store_of_ne _ t' hya

theorem refresh_stock (h : Wf m) {a : Addr} {now : UInt64} {r : Bool × Bool × TimerManager Cb}
    (hr : m.refresh a now = some r) : r.2.2.stock = m.stock := by
  cases ha : m.heap a with
  | none => simp [refresh, ha] at hr
  | some t =>
      simp only [refresh, ha] at hr
      split_ifs at hr with hcb hfind
      · cases hr
        rfl
      · cases hr
        rfl
      · cases hr
        exact rearm_stock h ha rfl hfind

theorem reset_stock (h : Wf m) {a : Addr} {ms now : UInt64} {fromNow : Bool} {r : Bool × Bool × TimerManager Cb}
    (hr : m.reset a ms fromNow now = some r) : r.2.2.stock = m.stock := by
  cases ha : m.heap a with
  | none => simp [reset, ha] at hr
  | some t =>
      simp only [reset, ha] at hr
      split at hr
      · cases hr
        rfl
      split at hr
      · cases hr
        rfl
      split at hr
      · cases hr
        rfl
      · rename_i hfind
        cases hr
        exact rearm_stock h ha rfl hfind

theorem getNextTimer_stock (m : TimerManager Cb) (now : UInt64) : (m.getNextTimer now).2.stock = m.stock := by
  simp only [getNextTimer]
  split <;> rfl

/-- Only a timer outside the set is destroyed. -/
theorem free_stock {a : Addr} (hin : a ∉ m.timers) : (m.free a).stock = m.stock := by
  refine stock_of_perm (List.Perm.refl _) fun b hb => cb_congr ?_
  refine free_heap_of_ne m ?_
  rintro rfl
  exact hin hb

/-- What a new timer brings, and what a cancelled one takes along. -/
def Action.brings : Action Cb → Multiset Cb
  | .addTimer _ _ cb _ _ => (cb.toList : List Cb)
  | _ => 0

def Action.removes (m : TimerManager Cb) : Action Cb → Multiset Cb
  | .cancel a => ((m.cb a).toList : List Cb)
  | _ => 0

/-- Everything but an expiry changes the stock by what it brings and removes. -/
theorem step_stock (h : Wf m) {op : Action Cb} (hop : ∀ now probe, op ≠ .listExpiredCb now probe)
    (hstep : step m op = .next m') : m'.stock + op.removes m = m.stock + op.brings := by
  cases step_performed hstep with
  | addTimer hnew => exact (add_zero _).trans (addTimer_stock h hnew ..)
  | cancel _ hr => exact (cancel_stock h hr).trans (add_zero _).symm
  | refresh _ hr => exact congrArg (· + 0) (refresh_stock h hr)
  | reset _ hr => exact congrArg (· + 0) (reset_stock h hr)
  | getNextTimer => exact congrArg (· + 0) (getNextTimer_stock m _)
  | listExpiredCb => exact absurd rfl (hop _ _)
  | release hin => exact congrArg (· + 0) (free_stock hin)

/-! ### Expiry -/

/-- The loop over the expired timers puts the callbacks of the recurring ones back. -/
theorem collectExpired_stock (now : UInt64) (out : List Addr) (cbs : List (Option Cb)) (h : WfUpTo m out) :
    (collectExpired now out cbs m).2.stock = m.stock + m.rearmed out := by
  induction out generalizing m cbs with
  | nil => simp [collectExpired, rearmed]
  | cons a out ih =>
      obtain ⟨t, ha⟩ := Option.isSome_iff_exists.1 (h.out_stored a List.mem_cons_self)
      have hanot := (List.nodup_cons.1 h.out_nodup).1
      have hin : a ∉ m.timers := h.out_not_mem a List.mem_cons_self
      have hrearmed : ∀ t', (m.store a t').rearmed out = m.rearmed out := by
        intro t'
        have hheap : ∀ b ∈ out, (m.store a t').heap b = m.heap b := fun b hb =>
          store_heap_of_ne m t' fun heq => hanot (heq ▸ hb)
        have hrecurs : out.filter (m.store a t').recurs = out.filter m.recurs :=
          List.filter_congr fun b hb => by rw [recurs, recurs, hheap b hb]
        rw [rearmed, rearmed, hrecurs, List.filterMap_congr fun b hb => cb_congr (hheap b (List.mem_of_mem_filter hb))]
      simp only [collectExpired, ha]
      split_ifs with hrec
      · have hput := put_stock (m := m.store a { t with next := now + t.ms }) hin
        rw [store_stock hin, cb_eq (store_heap_self m a _)] at hput
        have hself : m.rearmed (a :: out) = (t.cb.toList : List Cb) + m.rearmed out := by
          have hrecurs : m.recurs a = true := by simp [recurs, ha, hrec]
          rw [rearmed, List.filter_cons_of_pos hrecurs, coe_filterMap_cons, cb_eq ha, add_comm, rearmed]
        have hrest := ih (cbs ++ [t.cb]) (h.write { t with next := now + t.ms }).put
        rw [hput] at hrest
        refine hrest.trans ?_
        show _ + (m.store a { t with next := now + t.ms }).rearmed out = _
        rw [hrearmed, hself, add_assoc]
      · have hself : m.rearmed (a :: out) = m.rearmed out := by
          have hrecurs : ¬ m.recurs a = true := by simp [recurs, ha, hrec]
          rw [rearmed, List.filter_cons_of_neg hrecurs, rearmed]
        rw [ih _ ((h.write _).letGo (by simp [TimerManager.cb])), hrearmed, store_stock hin, hself]

/-- The timers whose callbacks an expiry call has handed out: as many from the front of the set. -/
def expired (m : TimerManager Cb) (cbs : List (Option Cb)) : List Addr := m.timers.take cbs.length

theorem expired_expireFront (h : Wf m) (now : UInt64) (probe : Addr) (rollover : Bool) :
    m.expired ((m.clocked now).expireFront now probe rollover).1 =
      m.timers.take ((m.clocked now).expiredEnd now probe rollover) := by
  have hcbs : ((m.clocked now).expireFront now probe rollover).1 =
      (m.timers.take ((m.clocked now).expiredEnd now probe rollover)).map m.cb :=
    collectExpired_cbs now _ [] (WfUpTo.takeFront (clocked_wf h now) _)
  rw [hcbs, expired, List.length_map, List.length_take]
  exact List.take_eq_take_min.symm

/-- An expiry call hands out what leaves the set, and what goes back into it. -/
theorem listExpiredCb_stock (h : Wf m) {now : UInt64} {probe : Addr} {r : List (Option Cb) × TimerManager Cb}
    (hr : m.listExpiredCb now probe = some r) :
    r.2.stock + (r.1.reduceOption : List Cb) = m.stock + m.rearmed (m.expired r.1) := by
  rcases m.listExpiredCb_cases now probe with heq | heq | ⟨rollover, heq⟩ <;> rw [heq] at hr <;> cases hr
  · simp [expired, rearmed]
  · exact congrArg (· + _) (stock_of_perm (List.Perm.refl _) fun _ _ => rfl)
  · set n := (m.clocked now).expiredEnd now probe rollover with hn
    have hout := WfUpTo.takeFront (clocked_wf h now) n
    have hcbs : ((m.clocked now).expireFront now probe rollover).1 = (m.timers.take n).map m.cb :=
      collectExpired_cbs now _ [] hout
    have hexpired : m.expired ((m.clocked now).expireFront now probe rollover).1 = m.timers.take n :=
      expired_expireFront h now probe rollover
    have hstock : ((m.clocked now).expireFront now probe rollover).2.stock =
        ((m.timers.drop n).filterMap m.cb : List Cb) + m.rearmed (m.timers.take n) :=
      collectExpired_stock now _ [] hout
    rw [hexpired, hstock, hcbs, List.reduceOption, List.filterMap_map]
    have hsplit : m.stock = ((m.timers.take n).filterMap m.cb : List Cb) + ((m.timers.drop n).filterMap m.cb : List Cb) := by
      rw [Multiset.coe_add, ← List.filterMap_append, List.take_append_drop, stock]
    rw [hsplit]
    show _ + _ + (((m.timers.take n).filterMap m.cb : List Cb) : Multiset Cb) = _
    abel

end Awcotn.TimerManager
