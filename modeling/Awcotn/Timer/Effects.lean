import Awcotn.Timer.Callbacks
import Awcotn.Timer.Stock

/-!
# What each operation does

One lemma for each operation of the manager, with everything it can do to the timer objects, to the membership of the set, and to `m_tickled`. The invariants of runs are proved from these.
-/

namespace Awcotn.TimerManager

variable {Cb : Type*} {m m' : TimerManager Cb}

/-! ### Insertions that may notify -/

/-- A timer object has been written and its timer inserted through the manager's own `addTimer`; the flag says whether the caller goes on to `onTimerInsertedAtFront`. -/
structure Inserted (m : TimerManager Cb) (a : Addr) (t : Timer Cb) (r : Bool × TimerManager Cb) : Prop where
  heap : r.2.heap = Function.update m.heap a (some t)
  timers : ∀ b, b ∈ r.2.timers ↔ b = a ∨ b ∈ m.timers
  flag : r.1 = decide (r.2.timers.head? = some a ∧ m.tickled = false)
  tickled : r.2.tickled = (m.tickled || r.1)

/-- What `m₁` is when the timer is out of the set and written, and everything else is as in `m`. -/
theorem insertTimer_inserted {m₁ : TimerManager Cb} {a : Addr} {t : Timer Cb} (hout : WfUpTo m₁ [a])
    (hheap : m₁.heap = Function.update m.heap a (some t)) (hrest : ∀ b, b ≠ a → (b ∈ m₁.timers ↔ b ∈ m.timers))
    (htickled : m₁.tickled = m.tickled) : Inserted m a t (m₁.insertTimer a) := by
  have hnew : ∀ b ∈ m₁.timers, m₁.key b ≠ m₁.key a := fun b hb heq =>
    hout.out_not_mem a List.mem_cons_self (key_injective m₁ heq ▸ hb)
  refine ⟨hheap, fun b => ?_, ?_, ?_⟩
  · have hmem : b ∈ (m₁.insertTimer a).2.timers ↔ b = a ∨ b ∈ m₁.timers := OrderedSet.mem_insert hnew
    rw [hmem]
    by_cases hb : b = a
    · simp [hb]
    · simp only [hb, false_or, hrest b hb]
  · rw [← htickled]
    rfl
  · rw [← htickled]
    rfl

theorem not_mem_of_heap (h : Wf m) {a : Addr} (hnew : m.heap a = none) : a ∉ m.timers := by
  intro hmem
  have hstored := h.stored a hmem
  rw [hnew] at hstored
  cases hstored

theorem addTimer_inserted (h : Wf m) {a : Addr} (hnew : m.heap a = none) (ms : UInt64) (cb : Option Cb)
    (recurring : Bool) (now : UInt64) :
    Inserted m a { recurring := recurring, ms := ms, next := ms + now, cb := cb } (m.addTimer a ms cb recurring now) :=
  insertTimer_inserted (WfUpTo.allocate h hnew _) rfl (fun _ _ => Iff.rfl) rfl

/-- `refresh` and `reset` on a timer that is found. -/
theorem rearm_inserted (h : Wf m) {a : Addr} (t : Timer Cb)
    (hfound : OrderedSet.find Before m.key (m.key a) m.timers ≠ m.timers.length) :
    Inserted m a t (TimerManager.insertTimer (TimerManager.store
      { m with timers := m.timers.eraseIdx (OrderedSet.find Before m.key (m.key a) m.timers) } a t) a) := by
  have hmem := mem_of_find_ne_length hfound
  refine insertTimer_inserted ((WfUpTo.takeOut h hmem).write t) rfl (fun b hb => ?_) rfl
  have herase : b ∈ m.timers.eraseIdx (OrderedSet.find Before m.key (m.key a) m.timers) ↔ b ∈ m.timers ∧ b ≠ a :=
    OrderedSet.mem_eraseIdx_find h.sorted hmem
  exact herase.trans (and_iff_left hb)

/-- Either nothing happens, or a timer that has its callback is armed anew from this clock reading. -/
theorem refresh_effect (h : Wf m) {a : Addr} {now : UInt64} {r : Bool × Bool × TimerManager Cb}
    (hr : m.refresh a now = some r) : r = (false, false, m) ∨
      r.1 = true ∧ ∃ t, m.heap a = some t ∧ t.cb.isSome ∧ Inserted m a { t with next := now + t.ms } r.2 := by
  cases ha : m.heap a with
  | none => simp [refresh, ha] at hr
  | some t =>
      simp only [refresh, ha] at hr
      split_ifs at hr with hcb hfind
      · exact .inl (Option.some.inj hr).symm
      · exact .inl (Option.some.inj hr).symm
      · cases hr
        exact .inr ⟨rfl, t, rfl, Option.isSome_iff_ne_none.2 (by simpa using hcb), rearm_inserted h _ hfind⟩

/-- Either nothing happens, or a timer that has its callback gets a new interval, from this clock reading or from where it was armed last. -/
theorem reset_effect (h : Wf m) {a : Addr} {ms now : UInt64} {fromNow : Bool} {r : Bool × Bool × TimerManager Cb}
    (hr : m.reset a ms fromNow now = some r) : r = (false, false, m) ∨
      r.1 = true ∧ ∃ t, m.heap a = some t ∧ t.cb.isSome ∧
        Inserted m a { t with ms := ms, next := (if fromNow then now else t.next - t.ms) + ms } r.2 := by
  cases ha : m.heap a with
  | none => simp [reset, ha] at hr
  | some t =>
      simp only [reset, ha] at hr
      split at hr
      · exact .inl (Option.some.inj hr).symm
      split at hr
      · exact .inl (Option.some.inj hr).symm
      split at hr
      · exact .inl (Option.some.inj hr).symm
      · rename_i hcb hfind
        cases hr
        exact .inr ⟨rfl, t, rfl, Option.isSome_iff_ne_none.2 (by simpa using hcb), rearm_inserted h _ hfind⟩

/-! ### Removals -/

/-- Either nothing happens, or a timer that has its callback loses it and leaves the set. -/
theorem cancel_effect (h : Wf m) {a : Addr} {r : Bool × TimerManager Cb} (hr : m.cancel a = some r) :
    r = (false, m) ∨
      r.1 = true ∧ ∃ t, m.heap a = some t ∧ t.cb.isSome ∧
        r.2.heap = Function.update m.heap a (some { t with cb := none }) ∧
        (∀ b, b ∈ r.2.timers ↔ b ∈ m.timers ∧ b ≠ a) ∧ r.2.tickled = m.tickled := by
  cases ha : m.heap a with
  | none => simp [cancel, ha] at hr
  | some t =>
      cases hcb : t.cb.isSome with
      | false =>
          rw [cancel_dead ha hcb] at hr
          exact .inl (Option.some.inj hr).symm
      | true =>
          obtain ⟨m', hm', -, hheap, htimers⟩ := cancel_live h ha hcb
          rw [hm'] at hr
          cases hr
          refine .inr ⟨rfl, t, rfl, hcb, hheap, htimers, ?_⟩
          simp only [cancel, ha, hcb, if_true] at hm'
          split_ifs at hm'
          cases hm'
          rfl

theorem heap_of_free {a b : Addr} {t : Timer Cb} (h : (m.free a).heap b = some t) : m.heap b = some t := by
  by_cases hba : b = a
  · subst hba
    simp [free] at h
  · rwa [free_heap_of_ne _ hba] at h

/-! ### Reading the front -/

/-- The front of the set is due first. -/
theorem next_front_le (h : Wf m) {front : Addr} (hfront : m.timers.head? = some front) {a : Addr} (ha : a ∈ m.timers) :
    m.next front ≤ m.next a := by
  obtain ⟨rest, htimers⟩ := List.head?_eq_some_iff.1 hfront
  rw [htimers] at ha
  rcases List.mem_cons.1 ha with rfl | ha
  · exact UInt64.le_refl _
  · have hsorted := h.sorted
    rw [htimers] at hsorted
    exact le_of_before ((List.pairwise_cons.1 hsorted).1 a ha)

@[simp] theorem getNextTimer_heap (m : TimerManager Cb) (now : UInt64) : (m.getNextTimer now).2.heap = m.heap := by
  simp only [getNextTimer]
  split <;> rfl

@[simp] theorem getNextTimer_timers (m : TimerManager Cb) (now : UInt64) : (m.getNextTimer now).2.timers = m.timers := by
  simp only [getNextTimer]
  split <;> rfl

@[simp] theorem getNextTimer_tickled (m : TimerManager Cb) (now : UInt64) : (m.getNextTimer now).2.tickled = false := by
  simp only [getNextTimer]
  split <;> rfl

/-! ### Expiry -/

/-- What becomes of an expired timer. -/
def afterExpiry (now : UInt64) (t : Timer Cb) : Timer Cb :=
  if t.recurring then { t with next := now + t.ms } else { t with cb := none }

theorem collectExpired_heap_of_mem (now : UInt64) (out : List Addr) (cbs : List (Option Cb)) (h : WfUpTo m out)
    {b : Addr} (hb : b ∈ out) :
    (collectExpired now out cbs m).2.heap b = (m.heap b).map (afterExpiry now) := by
  induction out generalizing m cbs with
  | nil => simp at hb
  | cons a out ih =>
      obtain ⟨t, ha⟩ := Option.isSome_iff_exists.1 (h.out_stored a List.mem_cons_self)
      have hanot := (List.nodup_cons.1 h.out_nodup).1
      simp only [collectExpired, ha]
      rcases List.mem_cons.1 hb with rfl | hout
      · split_ifs with hrec
        · rw [collectExpired_heap now out _ hanot]
          simp [ha, afterExpiry, hrec]
        · rw [collectExpired_heap now out _ hanot]
          simp [ha, afterExpiry, hrec]
      · have hne : b ≠ a := fun heq => hanot (heq ▸ hout)
        split_ifs with hrec
        · rw [ih _ (h.write _).put hout]
          exact congrArg (Option.map (afterExpiry now)) (store_heap_of_ne m _ hne)
        · rw [ih _ ((h.write _).letGo (by simp [TimerManager.cb])) hout, store_heap_of_ne m _ hne]

theorem collectExpired_tickled (now : UInt64) (out : List Addr) (cbs : List (Option Cb)) (m : TimerManager Cb) :
    (collectExpired now out cbs m).2.tickled = m.tickled := by
  induction out generalizing m cbs with
  | nil => rfl
  | cons a out ih =>
      simp only [collectExpired]
      split
      · exact ih cbs m
      · split_ifs
        · exact ih _ _
        · exact ih _ _

/-- An expiry call that takes the timers in `expired` out of the set: it hands out their callbacks in the order of the set, puts the recurring ones back, and leaves the rest alone. -/
structure Expired (m : TimerManager Cb) (now : UInt64) (expired : List Addr) (r : List (Option Cb) × TimerManager Cb) :
    Prop where
  sublist : expired.Sublist m.timers
  cbs : r.1 = expired.map m.cb
  taken : ∀ b ∈ expired, r.2.heap b = (m.heap b).map (afterExpiry now)
  left : ∀ b, b ∉ expired → r.2.heap b = m.heap b
  timers : ∀ b, b ∈ r.2.timers ↔ b ∈ m.timers ∧ (b ∈ expired → m.recurs b = true)
  tickled : r.2.tickled = m.tickled

theorem expireFront_expired (h : Wf m) (now : UInt64) (n : ℕ) :
    Expired m now (m.timers.take n) (collectExpired now (m.timers.take n) [] { m with timers := m.timers.drop n }) := by
  have hout := WfUpTo.takeFront h n
  refine ⟨List.take_sublist n _, collectExpired_cbs now _ [] hout, fun b hb => ?_, fun b hb => ?_, fun b => ?_, ?_⟩
  · exact collectExpired_heap_of_mem now _ [] hout hb
  · exact collectExpired_heap now _ [] hb
  · have hmem : b ∈ m.timers ↔ b ∈ m.timers.take n ∨ b ∈ m.timers.drop n := by
      rw [← List.mem_append, List.take_append_drop]
    rw [mem_collectExpired now _ [] hout, hmem]
    change b ∈ m.timers.drop n ∨ _ ↔ _
    have hdisjoint : b ∈ m.timers.drop n → b ∉ m.timers.take n := fun hd ht => hout.out_not_mem b ht hd
    have hrecurs : (∃ t, m.heap b = some t ∧ t.recurring = true) ↔ m.recurs b = true := by
      cases hb : m.heap b <;> simp [recurs, hb]
    change b ∈ m.timers.drop n ∨ b ∈ m.timers.take n ∧ (∃ t, m.heap b = some t ∧ t.recurring = true) ↔ _
    rw [hrecurs]
    grind
  · exact collectExpired_tickled now _ [] _

/-- The timers whose callbacks a call hands out are those it takes out of the set. -/
theorem listExpiredCb_effect (h : Wf m) {now : UInt64} {probe : Addr} {r : List (Option Cb) × TimerManager Cb}
    (hr : m.listExpiredCb now probe = some r) : Expired m now (m.expired r.1) r := by
  have hnothing : ∀ m₁ : TimerManager Cb, m₁.heap = m.heap → m₁.timers = m.timers → m₁.tickled = m.tickled →
      Expired m now (m.expired ([] : List (Option Cb))) ([], m₁) := by
    intro m₁ hheap htimers htickled
    refine ⟨List.take_sublist _ _, rfl, ?_, fun b _ => congrFun hheap b, fun b => ?_, htickled⟩
    · simp [expired]
    · simp [expired, htimers]
  rcases m.listExpiredCb_cases now probe with heq | heq | ⟨rollover, heq⟩ <;> rw [heq] at hr <;> cases hr
  · exact hnothing m rfl rfl rfl
  · exact hnothing (m.clocked now) rfl rfl rfl
  · have heffect := expireFront_expired (clocked_wf h now) now ((m.clocked now).expiredEnd now probe rollover)
    rw [expired_expireFront h now probe rollover]
    exact ⟨heffect.sublist, heffect.cbs, heffect.taken, heffect.left, heffect.timers, heffect.tickled⟩

/-- Without a rollover only due timers expire. -/
theorem next_le_of_mem_expired (h : Wf m) {now : UInt64} {probe : Addr} {r : List (Option Cb) × TimerManager Cb}
    (hr : m.listExpiredCb now probe = some r) (hclock : (m.delectClockRollover now).1 = false) {b : Addr}
    (hb : b ∈ m.expired r.1) : m.next b ≤ now := by
  cases htimers : m.timers with
  | nil => simp [expired, htimers] at hb
  | cons front rest =>
      rw [listExpiredCb_cons htimers, hclock] at hr
      cases hr
      simp only [Bool.false_eq_true, if_false] at hb
      split_ifs at hb
      · simp [expired] at hb
      · rw [expired_expireFront h now probe false] at hb
        exact next_le_of_mem_take_expiredEnd (m := m.clocked now) now probe hb

end Awcotn.TimerManager
