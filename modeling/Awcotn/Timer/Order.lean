import Awcotn.Timer.Manager

/-!
# The order of the timer set

Every operation of the manager works on timers it has taken out of the set and puts them back or lets them go at the end. `WfUpTo m out` is what holds in between, with `out` the timers that are out; `Wf m` is the case with none, and it holds in every reachable state. The comparator's key contains the address, so an element is found exactly where it was inserted as long as its deadline changes only while it is out.
-/

namespace Awcotn.TimerManager

open Transition

variable {Cb : Type*} {m : TimerManager Cb}

theorem key_injective (m : TimerManager Cb) : Function.Injective m.key :=
  fun _ _ h => congrArg Prod.snd h

/-! ### Reading a store -/

@[simp] theorem store_timers (m : TimerManager Cb) (a : Addr) (t : Timer Cb) :
    (m.store a t).timers = m.timers := rfl

@[simp] theorem store_heap_self (m : TimerManager Cb) (a : Addr) (t : Timer Cb) :
    (m.store a t).heap a = some t := Function.update_self a _ m.heap

theorem store_heap_of_ne (m : TimerManager Cb) {a b : Addr} (t : Timer Cb) (h : b ≠ a) :
    (m.store a t).heap b = m.heap b := Function.update_of_ne h _ m.heap

theorem next_eq {a : Addr} {t : Timer Cb} (h : m.heap a = some t) : m.next a = t.next := by
  simp [next, h]

theorem cb_eq {a : Addr} {t : Timer Cb} (h : m.heap a = some t) : m.cb a = t.cb := by
  simp [cb, h]

theorem key_store_of_ne (m : TimerManager Cb) {a b : Addr} (t : Timer Cb) (h : b ≠ a) :
    (m.store a t).key b = m.key b := by
  simp [key, next, store_heap_of_ne m t h]

theorem cb_store_of_ne (m : TimerManager Cb) {a b : Addr} (t : Timer Cb) (h : b ≠ a) :
    (m.store a t).cb b = m.cb b := by
  simp [cb, store_heap_of_ne m t h]

/-- Writing anything but the deadline leaves every key alone. -/
theorem key_store_of_next {a : Addr} {t t' : Timer Cb} (h : m.heap a = some t) (hnext : t'.next = t.next) :
    (m.store a t').key = m.key := by
  funext b
  by_cases hb : b = a
  · subst hb
    simp [key, next, h, hnext]
  · exact key_store_of_ne m t' hb

/-! ### The invariant -/

structure WfUpTo (m : TimerManager Cb) (out : List Addr) : Prop where
  sorted : OrderedSet.Sorted Before m.key m.timers
  stored : ∀ a ∈ m.timers, (m.heap a).isSome
  live : ∀ a t, m.heap a = some t → t.cb.isSome → a ∈ m.timers ∨ a ∈ out
  out_not_mem : ∀ a ∈ out, a ∉ m.timers
  out_stored : ∀ a ∈ out, (m.heap a).isSome
  out_nodup : out.Nodup

/-- The set is strictly sorted, it holds only existing timers, and it holds every timer whose callback is not cleared. -/
abbrev Wf (m : TimerManager Cb) : Prop := WfUpTo m []

theorem init_wf (now : UInt64) : Wf (init now : TimerManager Cb) where
  sorted := List.Pairwise.nil
  stored := by simp [init]
  live := by simp [init]
  out_not_mem := by simp
  out_stored := by simp
  out_nodup := List.nodup_nil

theorem WfUpTo.put {a : Addr} {out : List Addr} (h : WfUpTo m (a :: out)) :
    WfUpTo { m with timers := OrderedSet.insert Before m.key a m.timers } out := by
  obtain ⟨hanot, hnodup⟩ := List.nodup_cons.1 h.out_nodup
  have hnew : ∀ b ∈ m.timers, m.key b ≠ m.key a := fun b hb heq =>
    h.out_not_mem a List.mem_cons_self (key_injective m heq ▸ hb)
  have hmem : ∀ b, b ∈ OrderedSet.insert Before m.key a m.timers ↔ b = a ∨ b ∈ m.timers :=
    fun b => OrderedSet.mem_insert hnew
  refine ⟨OrderedSet.sorted_insert h.sorted, ?_, ?_, ?_, ?_, hnodup⟩
  · intro b hb
    rcases (hmem b).1 hb with rfl | hb
    · exact h.out_stored b List.mem_cons_self
    · exact h.stored b hb
  · intro b t hb hcb
    rcases h.live b t hb hcb with hin | hout
    · exact .inl ((hmem b).2 (.inr hin))
    · rcases List.mem_cons.1 hout with rfl | hout
      · exact .inl ((hmem b).2 (.inl rfl))
      · exact .inr hout
  · intro b hb hin
    rcases (hmem b).1 hin with rfl | hin
    · exact hanot hb
    · exact h.out_not_mem b (List.mem_cons_of_mem _ hb) hin
  · exact fun b hb => h.out_stored b (List.mem_cons_of_mem _ hb)

theorem WfUpTo.write {a : Addr} {out : List Addr} (h : WfUpTo m (a :: out)) (t : Timer Cb) :
    WfUpTo (m.store a t) (a :: out) := by
  have hne : ∀ b ∈ m.timers, b ≠ a := fun b hb heq =>
    h.out_not_mem a List.mem_cons_self (heq ▸ hb)
  refine ⟨?_, ?_, ?_, h.out_not_mem, ?_, h.out_nodup⟩
  · exact (OrderedSet.sorted_congr fun b hb => key_store_of_ne m t (hne b hb)).2 h.sorted
  · intro b hb
    rw [store_heap_of_ne m t (hne b hb)]
    exact h.stored b hb
  · intro b t' hb hcb
    by_cases hba : b = a
    · exact .inr (hba ▸ List.mem_cons_self)
    · rw [store_heap_of_ne m t hba] at hb
      exact h.live b t' hb hcb
  · intro b hb
    by_cases hba : b = a
    · simp [hba]
    · rw [store_heap_of_ne m t hba]
      exact h.out_stored b hb

/-- A timer whose callback is cleared may stay out of the set. -/
theorem WfUpTo.letGo {a : Addr} {out : List Addr} (h : WfUpTo m (a :: out)) (hcb : m.cb a = none) :
    WfUpTo m out := by
  refine ⟨h.sorted, h.stored, ?_, fun b hb => h.out_not_mem b (List.mem_cons_of_mem _ hb),
    fun b hb => h.out_stored b (List.mem_cons_of_mem _ hb), (List.nodup_cons.1 h.out_nodup).2⟩
  intro b t hb hlive
  rcases h.live b t hb hlive with hin | hout
  · exact .inl hin
  · rcases List.mem_cons.1 hout with rfl | hout
    · rw [cb_eq hb] at hcb
      simp [hcb] at hlive
    · exact .inr hout

theorem WfUpTo.takeOut (h : Wf m) {a : Addr} (ha : a ∈ m.timers) :
    WfUpTo { m with timers := m.timers.eraseIdx (OrderedSet.find Before m.key (m.key a) m.timers) } [a] := by
  have hmem : ∀ b, b ∈ m.timers.eraseIdx (OrderedSet.find Before m.key (m.key a) m.timers) ↔
      b ∈ m.timers ∧ b ≠ a := fun b => OrderedSet.mem_eraseIdx_find h.sorted ha
  refine ⟨OrderedSet.sorted_eraseIdx h.sorted _, ?_, ?_, ?_, ?_, List.nodup_singleton a⟩
  · exact fun b hb => h.stored b ((hmem b).1 hb).1
  · intro b t hb hcb
    by_cases hba : b = a
    · exact .inr (List.mem_singleton.2 hba)
    · exact .inl ((hmem b).2 ⟨(h.live b t hb hcb).resolve_right (by simp), hba⟩)
  · intro b hb hin
    exact ((hmem b).1 hin).2 (List.mem_singleton.1 hb)
  · intro b hb
    rw [List.mem_singleton.1 hb]
    exact h.stored a ha

theorem WfUpTo.takeFront (h : Wf m) (n : ℕ) :
    WfUpTo { m with timers := m.timers.drop n } (m.timers.take n) := by
  have hnodup := h.sorted.nodup
  rw [← List.take_append_drop n m.timers] at hnodup
  refine ⟨h.sorted.sublist (List.drop_sublist n _), ?_, ?_, ?_, ?_, (List.nodup_append.1 hnodup).1⟩
  · exact fun b hb => h.stored b (List.mem_of_mem_drop hb)
  · intro b t hb hcb
    have hin := (h.live b t hb hcb).resolve_right (by simp)
    rw [← List.take_append_drop n m.timers, List.mem_append] at hin
    exact hin.symm
  · exact fun b hb hin => (List.nodup_append.1 hnodup).2.2 b hb b hin rfl
  · exact fun b hb => h.stored b (List.mem_of_mem_take hb)

theorem WfUpTo.congr {m' : TimerManager Cb} {out : List Addr} (h : WfUpTo m out) (hheap : m'.heap = m.heap)
    (htimers : m'.timers = m.timers) : WfUpTo m' out := by
  have hkey : m'.key = m.key := by
    funext b
    simp [key, next, hheap]
  exact ⟨by rw [hkey, htimers]; exact h.sorted, by rw [hheap, htimers]; exact h.stored,
    by rw [hheap, htimers]; exact h.live, by rw [htimers]; exact h.out_not_mem,
    by rw [hheap]; exact h.out_stored, h.out_nodup⟩

/-! ### The operations keep the invariant -/

theorem insertTimer_wf {a : Addr} (h : WfUpTo m [a]) : Wf (m.insertTimer a).2 :=
  h.put.congr rfl rfl

/-- A new timer starts out of the set. -/
theorem WfUpTo.allocate (h : Wf m) {a : Addr} (hnew : m.heap a = none) (t : Timer Cb) :
    WfUpTo (m.store a t) [a] := by
  have hne : ∀ b ∈ m.timers, b ≠ a := by
    rintro b hb rfl
    have := h.stored b hb
    simp [hnew] at this
  refine ⟨?_, ?_, ?_, ?_, ?_, List.nodup_singleton a⟩
  · exact (OrderedSet.sorted_congr fun b hb => key_store_of_ne m t (hne b hb)).2 h.sorted
  · intro b hb
    rw [store_heap_of_ne m t (hne b hb)]
    exact h.stored b hb
  · intro b t' hb hcb
    by_cases hba : b = a
    · exact .inr (List.mem_singleton.2 hba)
    · rw [store_heap_of_ne m t hba] at hb
      exact .inl ((h.live b t' hb hcb).resolve_right (by simp))
  · intro b hb hin
    exact hne b hin (List.mem_singleton.1 hb)
  · intro b hb
    simp [List.mem_singleton.1 hb]

theorem addTimer_wf (h : Wf m) {a : Addr} (hnew : m.heap a = none) (ms : UInt64) (cb : Option Cb)
    (recurring : Bool) (now : UInt64) : Wf (m.addTimer a ms cb recurring now).2 :=
  insertTimer_wf (WfUpTo.allocate h hnew _)

/-- The unchecked erase in `cancel` is safe: a timer with a callback is found. -/
theorem cancel_live (h : Wf m) {a : Addr} {t : Timer Cb} (ha : m.heap a = some t) (hcb : t.cb.isSome) :
    ∃ m', m.cancel a = some (true, m') ∧ Wf m' ∧ m'.heap = (m.store a { t with cb := none }).heap ∧
      ∀ b, b ∈ m'.timers ↔ b ∈ m.timers ∧ b ≠ a := by
  have hmem : a ∈ m.timers := (h.live a t ha hcb).resolve_right (by simp)
  have hkey : (m.store a { t with cb := none }).key = m.key := key_store_of_next ha rfl
  have hlt := OrderedSet.find_lt_length h.sorted hmem
  refine ⟨{ m.store a { t with cb := none } with
    timers := m.timers.eraseIdx (OrderedSet.find Before m.key (m.key a) m.timers) }, ?_, ?_, rfl, ?_⟩
  · simp only [cancel, ha, hcb, if_true, hkey, store_timers, if_pos hlt]
  · refine WfUpTo.letGo (a := a) (((WfUpTo.takeOut h hmem).write { t with cb := none }).congr rfl rfl) ?_
    simp [TimerManager.cb]
  · exact fun b => OrderedSet.mem_eraseIdx_find h.sorted hmem

theorem cancel_dead {a : Addr} {t : Timer Cb} (ha : m.heap a = some t) (hcb : t.cb.isSome = false) :
    m.cancel a = some (false, m) := by
  simp [cancel, ha, hcb]

theorem cancel_wf (h : Wf m) {a : Addr} {r : Bool × TimerManager Cb} (hr : m.cancel a = some r) : Wf r.2 := by
  cases ha : m.heap a with
  | none => simp [cancel, ha] at hr
  | some t =>
      cases hcb : t.cb.isSome with
      | false =>
          rw [cancel_dead ha hcb] at hr
          cases hr
          exact h
      | true =>
          obtain ⟨m', hm', hwf, -⟩ := cancel_live h ha hcb
          rw [hm'] at hr
          cases hr
          exact hwf

/-- A search that does not come to the end has found its timer in the set. -/
theorem mem_of_find_ne_length {a : Addr}
    (hfound : OrderedSet.find Before m.key (m.key a) m.timers ≠ m.timers.length) : a ∈ m.timers := by
  have hlt : OrderedSet.find Before m.key (m.key a) m.timers < m.timers.length := by
    refine lt_of_le_of_ne ?_ hfound
    simp only [OrderedSet.find]
    split
    · split
      · exact le_rfl
      · exact OrderedSet.lowerBound_le_length _ _
    · exact le_rfl
  obtain ⟨b, hb, hkey⟩ := OrderedSet.key_of_find_lt_length hlt
  exact key_injective m hkey ▸ hb

/-- What `refresh` and `reset` do once they have found their timer: take it out, rewrite it, put it back. -/
theorem rearm_wf (h : Wf m) {a : Addr} (t : Timer Cb)
    (hfound : OrderedSet.find Before m.key (m.key a) m.timers ≠ m.timers.length) :
    Wf (TimerManager.insertTimer (TimerManager.store
      { m with timers := m.timers.eraseIdx (OrderedSet.find Before m.key (m.key a) m.timers) } a t) a).2 :=
  insertTimer_wf ((WfUpTo.takeOut h (mem_of_find_ne_length hfound)).write t)

theorem refresh_wf (h : Wf m) {a : Addr} {now : UInt64} {r : Bool × Bool × TimerManager Cb}
    (hr : m.refresh a now = some r) : Wf r.2.2 := by
  cases ha : m.heap a with
  | none => simp [refresh, ha] at hr
  | some t =>
      simp only [refresh, ha] at hr
      split_ifs at hr with hcb hfind
      · cases hr
        exact h
      · cases hr
        exact h
      · cases hr
        exact rearm_wf h _ hfind

theorem reset_wf (h : Wf m) {a : Addr} {ms now : UInt64} {fromNow : Bool} {r : Bool × Bool × TimerManager Cb}
    (hr : m.reset a ms fromNow now = some r) : Wf r.2.2 := by
  cases ha : m.heap a with
  | none => simp [reset, ha] at hr
  | some t =>
      simp only [reset, ha] at hr
      split at hr
      · cases hr
        exact h
      split at hr
      · cases hr
        exact h
      split at hr
      · cases hr
        exact h
      · rename_i hfind
        cases hr
        exact rearm_wf h _ hfind

theorem getNextTimer_wf (h : Wf m) (now : UInt64) : Wf (m.getNextTimer now).2 := by
  have : Wf { m with tickled := false } := h.congr rfl rfl
  simp only [getNextTimer]
  split <;> exact this

/-- The loop over the expired timers puts the recurring ones back and lets the others go. -/
theorem collectExpired_wf (now : UInt64) (out : List Addr) (cbs : List (Option Cb)) (h : WfUpTo m out) :
    Wf (collectExpired now out cbs m).2 := by
  induction out generalizing m cbs with
  | nil => exact h
  | cons a out ih =>
      obtain ⟨t, ha⟩ := Option.isSome_iff_exists.1 (h.out_stored a List.mem_cons_self)
      simp only [collectExpired, ha]
      split_ifs with hrec
      · exact ih _ (h.write _).put
      · refine ih _ ((h.write _).letGo ?_)
        simp [TimerManager.cb]

theorem expireFront_wf (h : Wf m) (now : UInt64) (probe : Addr) (rollover : Bool) :
    Wf (m.expireFront now probe rollover).2 :=
  collectExpired_wf now _ [] (WfUpTo.takeFront h _)

/-- The manager after `delectClockRollover` has recorded the clock reading. -/
def clocked (m : TimerManager Cb) (now : UInt64) : TimerManager Cb :=
  { m with previouseTime := now }

theorem clocked_wf (h : Wf m) (now : UInt64) : Wf (m.clocked now) := h.congr rfl rfl

/-- `listExpiredCb` on a non-empty set: a rollover expires everything, a front timer already in the past makes the call return early, and otherwise the timers up to the clock expire. -/
theorem listExpiredCb_cons {front : Addr} {rest : List Addr} (htimers : m.timers = front :: rest)
    (now : UInt64) (probe : Addr) :
    m.listExpiredCb now probe = some
      (if (m.delectClockRollover now).1 then (m.clocked now).expireFront now probe true
        else if m.next front < now then ([], m.clocked now)
        else (m.clocked now).expireFront now probe false) := by
  have hclocked : (m.delectClockRollover now).2 = m.clocked now := rfl
  have hnext : (m.clocked now).next front = m.next front := rfl
  have htimers' : (m.clocked now).timers = front :: rest := htimers
  simp only [listExpiredCb, expireLocked, hclocked, htimers', htimers, List.isEmpty_cons, hnext,
    Bool.false_eq_true, if_false]
  split_ifs <;> rfl

/-- Every way `listExpiredCb` can end: the set is empty, it returns early, or it expires a prefix of the set. -/
theorem listExpiredCb_cases (m : TimerManager Cb) (now : UInt64) (probe : Addr) :
    m.listExpiredCb now probe = some ([], m) ∨ m.listExpiredCb now probe = some ([], m.clocked now) ∨
      ∃ rollover, m.listExpiredCb now probe = some ((m.clocked now).expireFront now probe rollover) := by
  cases htimers : m.timers with
  | nil => simp [listExpiredCb, htimers]
  | cons front rest =>
      rw [listExpiredCb_cons htimers]
      split_ifs
      · exact .inr (.inr ⟨true, rfl⟩)
      · exact .inr (.inl rfl)
      · exact .inr (.inr ⟨false, rfl⟩)

theorem listExpiredCb_total (m : TimerManager Cb) (now : UInt64) (probe : Addr) :
    ∃ r, m.listExpiredCb now probe = some r := by
  rcases m.listExpiredCb_cases now probe with heq | heq | ⟨rollover, heq⟩
  · exact ⟨_, heq⟩
  · exact ⟨_, heq⟩
  · exact ⟨_, heq⟩

theorem listExpiredCb_wf (h : Wf m) {now : UInt64} {probe : Addr}
    {r : List (Option Cb) × TimerManager Cb} (hr : m.listExpiredCb now probe = some r) : Wf r.2 := by
  rcases m.listExpiredCb_cases now probe with heq | heq | ⟨rollover, heq⟩ <;> rw [heq] at hr <;> cases hr
  · exact h
  · exact clocked_wf h now
  · exact expireFront_wf (clocked_wf h now) now probe rollover

theorem free_heap_of_ne (m : TimerManager Cb) {a b : Addr} (h : b ≠ a) : (m.free a).heap b = m.heap b :=
  Function.update_of_ne h _ m.heap

theorem free_wf (h : Wf m) {a : Addr} (hin : a ∉ m.timers) : Wf (m.free a) := by
  have hne : ∀ b ∈ m.timers, b ≠ a := fun b hb heq => hin (heq ▸ hb)
  refine ⟨?_, ?_, ?_, by simp, by simp, List.nodup_nil⟩
  · refine (OrderedSet.sorted_congr fun b hb => ?_).2 h.sorted
    simp [key, next, free_heap_of_ne m (hne b hb)]
  · intro b hb
    rw [free_heap_of_ne m (hne b hb)]
    exact h.stored b hb
  · intro b t hb hcb
    by_cases hba : b = a
    · subst hba
      simp [free] at hb
    · rw [free_heap_of_ne m hba] at hb
      exact h.live b t hb hcb

/-! ### Operations -/

/-- The operations that go through. -/
inductive Performed (m : TimerManager Cb) : Action Cb → TimerManager Cb → Prop
  | addTimer {a : Addr} {ms : UInt64} {cb : Option Cb} {recurring : Bool} {now : UInt64} : m.heap a = none →
      Performed m (.addTimer a ms cb recurring now) (m.addTimer a ms cb recurring now).2
  | cancel {a : Addr} {r : Bool × TimerManager Cb} : (m.heap a).isSome → m.cancel a = some r →
      Performed m (.cancel a) r.2
  | refresh {a : Addr} {now : UInt64} {r : Bool × Bool × TimerManager Cb} : (m.heap a).isSome →
      m.refresh a now = some r → Performed m (.refresh a now) r.2.2
  | reset {a : Addr} {ms : UInt64} {fromNow : Bool} {now : UInt64} {r : Bool × Bool × TimerManager Cb} :
      (m.heap a).isSome → m.reset a ms fromNow now = some r → Performed m (.reset a ms fromNow now) r.2.2
  | getNextTimer {now : UInt64} : Performed m (.getNextTimer now) (m.getNextTimer now).2
  | listExpiredCb {now : UInt64} {probe : Addr} {r : List (Option Cb) × TimerManager Cb} : m.heap probe = none →
      m.listExpiredCb now probe = some r → Performed m (.listExpiredCb now probe) r.2
  | release {a : Addr} : a ∉ m.timers → Performed m (.release a) (m.free a)

theorem eq_of_settle {β : Type*} {manager : β → TimerManager Cb} {r : Option β}
    (h : settle manager r = Outcome.next m') : ∃ b, r = some b ∧ m' = manager b := by
  cases r with
  | none => cases h
  | some b => exact ⟨b, rfl, (Outcome.next.inj h).symm⟩

theorem step_performed {act : Action Cb} (h : step m act = .next m') : Performed m act m' := by
  cases act with
  | addTimer a ms cb recurring now =>
      simp only [step] at h
      split_ifs at h with hnew
      cases h
      exact .addTimer (Option.isNone_iff_eq_none.1 hnew)
  | cancel a =>
      simp only [step] at h
      split_ifs at h with hstored
      obtain ⟨r, hr, rfl⟩ := eq_of_settle h
      exact .cancel hstored hr
  | refresh a now =>
      simp only [step] at h
      split_ifs at h with hstored
      obtain ⟨r, hr, rfl⟩ := eq_of_settle h
      exact .refresh hstored hr
  | reset a ms fromNow now =>
      simp only [step] at h
      split_ifs at h with hstored
      obtain ⟨r, hr, rfl⟩ := eq_of_settle h
      exact .reset hstored hr
  | getNextTimer now =>
      cases h
      exact .getNextTimer
  | listExpiredCb now probe =>
      simp only [step] at h
      split_ifs at h with hfree
      obtain ⟨r, hr, rfl⟩ := eq_of_settle h
      exact .listExpiredCb (Option.isNone_iff_eq_none.1 hfree) hr
  | release a =>
      simp only [step] at h
      split_ifs at h with hin
      cases h
      exact .release hin

theorem step_wf (m : TimerManager Cb) (act : Action Cb) (m' : TimerManager Cb) (h : Wf m)
    (hstep : step m act = .next m') : Wf m' := by
  cases step_performed hstep with
  | addTimer hnew => exact addTimer_wf h hnew ..
  | cancel _ hr => exact cancel_wf h hr
  | refresh _ hr => exact refresh_wf h hr
  | reset _ hr => exact reset_wf h hr
  | getNextTimer => exact getNextTimer_wf h _
  | listExpiredCb _ hr => exact listExpiredCb_wf h hr
  | release hin => exact free_wf h hin

theorem Reachable.wf (h : Reachable m) : Wf m := by
  obtain ⟨start, acts, hrun⟩ := h
  exact invariant_of_run step_wf (init_wf start) hrun

end Awcotn.TimerManager
