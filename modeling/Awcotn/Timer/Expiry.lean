import Awcotn.Timer.Order

/-!
# What an expiry call hands over

`listExpiredCb` takes a prefix of the timer set and returns its callbacks. Away from a rollover the prefix is exactly the timers whose deadline the clock has reached, provided the call gets as far as taking it: the guard on the front timer returns early when the front deadline is already past. `listExpiredCb_returns_due_iff` is the exact condition that leaves.
-/

namespace Awcotn.TimerManager

open Transition

variable {Cb : Type*} {m : TimerManager Cb}

/-! ### The loop over the expired timers -/

theorem cb_congr {m' : TimerManager Cb} {a : Addr} (h : m'.heap a = m.heap a) : m'.cb a = m.cb a := by
  simp [cb, h]

theorem next_congr {m' : TimerManager Cb} {a : Addr} (h : m'.heap a = m.heap a) : m'.next a = m.next a := by
  simp [next, h]

/-- The loop does not touch a timer that is not expired. -/
theorem collectExpired_heap (now : UInt64) (out : List Addr) (cbs : List (Option Cb)) {b : Addr}
    (hb : b ∉ out) : (collectExpired now out cbs m).2.heap b = m.heap b := by
  induction out generalizing m cbs with
  | nil => rfl
  | cons a out ih =>
      obtain ⟨hne, hout⟩ := List.ne_and_not_mem_of_not_mem_cons hb
      simp only [collectExpired]
      split
      · exact ih cbs hout
      · split_ifs
        · rw [ih _ hout]
          exact store_heap_of_ne m _ hne
        · rw [ih _ hout]
          exact store_heap_of_ne m _ hne

/-- The callbacks come out in the order of the set, each expired timer's once. -/
theorem collectExpired_cbs (now : UInt64) (out : List Addr) (cbs : List (Option Cb)) (h : WfUpTo m out) :
    (collectExpired now out cbs m).1 = cbs ++ out.map m.cb := by
  induction out generalizing m cbs with
  | nil => simp [collectExpired]
  | cons a out ih =>
      obtain ⟨t, ha⟩ := Option.isSome_iff_exists.1 (h.out_stored a List.mem_cons_self)
      have hrest : ∀ t', out.map (m.store a t').cb = out.map m.cb := fun t' =>
        List.map_congr_left fun b hb => cb_store_of_ne m t' fun heq =>
          (List.nodup_cons.1 h.out_nodup).1 (heq ▸ hb)
      simp only [collectExpired, ha, List.map_cons, cb_eq ha]
      split_ifs with hrec
      · rw [ih _ (h.write _).put]
        change _ ++ out.map (m.store a { t with next := now + t.ms }).cb = _
        rw [hrest, List.append_assoc, List.singleton_append]
      · rw [ih _ ((h.write _).letGo (by simp [TimerManager.cb])), hrest, List.append_assoc,
          List.singleton_append]

/-- After the loop the set holds what it held and the recurring ones among the expired. -/
theorem mem_collectExpired (now : UInt64) (out : List Addr) (cbs : List (Option Cb)) (h : WfUpTo m out)
    {b : Addr} : b ∈ (collectExpired now out cbs m).2.timers ↔
      b ∈ m.timers ∨ b ∈ out ∧ ∃ t, m.heap b = some t ∧ t.recurring := by
  induction out generalizing m cbs with
  | nil => simp [collectExpired]
  | cons a out ih =>
      obtain ⟨t, ha⟩ := Option.isSome_iff_exists.1 (h.out_stored a List.mem_cons_self)
      have hanot := (List.nodup_cons.1 h.out_nodup).1
      have hother : ∀ t', (b ∈ out ∧ ∃ u, (m.store a t').heap b = some u ∧ u.recurring) ↔
          (b ∈ out ∧ ∃ u, m.heap b = some u ∧ u.recurring) := fun t' =>
        and_congr_right fun hb => by
          have hne : b ≠ a := fun heq => hanot (heq ▸ hb)
          rw [store_heap_of_ne m t' hne]
      simp only [collectExpired, ha]
      split_ifs with hrec
      · rw [ih _ (h.write _).put]
        have hnew : ∀ c ∈ m.timers, (m.store a { t with next := now + t.ms }).key c ≠
            (m.store a { t with next := now + t.ms }).key a := fun c hc heq =>
          h.out_not_mem a List.mem_cons_self (key_injective _ heq ▸ hc)
        change b ∈ OrderedSet.insert Before _ a m.timers ∨ (b ∈ out ∧ ∃ u, (m.store a _).heap b = some u ∧ _) ↔ _
        rw [hother, OrderedSet.mem_insert hnew]
        by_cases hba : b = a
        · subst hba
          simp [ha, hrec]
        · simp [hba]
      · rw [ih _ ((h.write _).letGo (by simp [TimerManager.cb])), hother]
        by_cases hba : b = a
        · subst hba
          simp [ha, hrec, hanot]
        · simp [hba]

/-! ### The expired prefix -/

theorem le_of_before {lhs rhs : UInt64 × Addr} (h : Before lhs rhs) : lhs.1 ≤ rhs.1 := by
  rcases before_iff.1 h with hlt | ⟨heq, -⟩
  · grind
  · grind

/-- Past the expired prefix every deadline is still to come. -/
theorem lt_next_of_mem_drop_expiredEnd (h : Wf m) (now : UInt64) (probe : Addr) {a : Addr}
    (ha : a ∈ m.timers.drop (m.expiredEnd now probe false)) : now < m.next a := by
  set it := OrderedSet.lowerBound Before m.key (now, probe) m.timers with hit
  set due := fun a => decide (m.next a = now) with hdue
  have hsplit : m.timers.drop (m.expiredEnd now probe false) = (m.timers.drop it).dropWhile due := by
    rw [List.dropWhile_eq_drop_findIdx_not, List.drop_drop]
    rfl
  rw [hsplit] at ha
  have hsorted : OrderedSet.Sorted Before m.key (m.timers.drop it) := h.sorted.sublist (List.drop_sublist _ _)
  have hge : ∀ b ∈ m.timers.drop it, now ≤ m.next b := by
    intro b hb
    have hnot := OrderedSet.not_lt_of_mem_drop_lowerBound h.sorted hb
    rw [before_iff] at hnot
    change ¬ (m.next b < now ∨ _) at hnot
    grind
  generalize m.timers.drop it = later at *
  cases hcons : later.dropWhile due with
  | nil => simp [hcons] at ha
  | cons front rest =>
      have hfront : now < m.next front := by
        have hnot : due front = false := by
          have := List.head_dropWhile_not due (l := later) (by simp [hcons])
          simpa [hcons] using this
        have hmem : front ∈ later := (List.dropWhile_sublist due).subset (by simp [hcons])
        have := hge front hmem
        simp only [hdue, decide_eq_false_iff_not] at hnot
        grind
      have hrest : OrderedSet.Sorted Before m.key (front :: rest) :=
        hcons ▸ hsorted.sublist (List.dropWhile_sublist due)
      rw [hcons] at ha
      rcases List.mem_cons.1 ha with rfl | ha
      · exact hfront
      · have := le_of_before ((List.pairwise_cons.1 hrest).1 a ha)
        change m.next front ≤ m.next a at this
        grind

/-- Inside the expired prefix every deadline has come. -/
theorem next_le_of_mem_take_expiredEnd (now : UInt64) (probe : Addr) {a : Addr}
    (ha : a ∈ m.timers.take (m.expiredEnd now probe false)) : m.next a ≤ now := by
  simp only [expiredEnd, Bool.false_eq_true, if_false, List.take_add, List.mem_append] at ha
  rcases ha with ha | ha
  · exact le_of_before (OrderedSet.lt_of_mem_take_lowerBound ha)
  · rw [← List.takeWhile_eq_take_findIdx_not] at ha
    have := List.all_eq_true.1 List.all_takeWhile a ha
    simp only [decide_eq_true_eq] at this
    grind

/-- The expired prefix is the due timers, in the order of the set. -/
theorem take_expiredEnd (h : Wf m) (now : UInt64) (probe : Addr) :
    m.timers.take (m.expiredEnd now probe false) = m.timers.filter fun a => decide (m.next a ≤ now) := by
  conv_rhs => rw [← List.take_append_drop (m.expiredEnd now probe false) m.timers]
  rw [List.filter_append, List.filter_eq_self.2, List.filter_eq_nil_iff.2, List.append_nil]
  · intro a ha
    have := lt_next_of_mem_drop_expiredEnd h now probe ha
    simp only [decide_eq_true_eq]
    grind
  · intro a ha
    simpa using next_le_of_mem_take_expiredEnd now probe ha

/-! ### The exact condition -/

/-- A call at clock reading `now` hands over the callback of every due timer, and no due timer is left in the set without its callback having been handed over. -/
def ReturnsDue (m : TimerManager Cb) (now : UInt64) (probe : Addr) : Prop :=
  ∃ cbs m', m.listExpiredCb now probe = some (cbs, m') ∧
    ((m.timers.filter fun a => decide (m.next a ≤ now)).map m.cb).Subperm cbs ∧
    ∀ a ∈ m'.timers, m'.next a ≤ now → m.cb a ∈ cbs

theorem expireFront_returns_due (h : Wf m) (now : UInt64) (probe : Addr) :
    (m.expireFront now probe false).1 = (m.timers.filter fun a => decide (m.next a ≤ now)).map m.cb ∧
    ∀ a ∈ (m.expireFront now probe false).2.timers,
      (m.expireFront now probe false).2.next a ≤ now → m.cb a ∈ (m.expireFront now probe false).1 := by
  have hout := WfUpTo.takeFront h (m.expiredEnd now probe false)
  have hcbs : (m.expireFront now probe false).1 = (m.timers.take (m.expiredEnd now probe false)).map m.cb :=
    collectExpired_cbs now _ [] hout
  refine ⟨by rw [hcbs, take_expiredEnd h], fun a ha hdue => ?_⟩
  rw [hcbs]
  by_cases htaken : a ∈ m.timers.take (m.expiredEnd now probe false)
  · exact List.mem_map_of_mem htaken
  · have hkept : (m.expireFront now probe false).2.heap a = m.heap a := collectExpired_heap now _ [] htaken
    rcases (mem_collectExpired now _ [] hout).1 ha with hin | ⟨hin, -⟩
    · have := lt_next_of_mem_drop_expiredEnd h now probe hin
      rw [next_congr hkept] at hdue
      grind
    · exact absurd hin htaken

/-- With no rollover and a non-empty set, a call hands over every due timer exactly when the front deadline is not already past. -/
theorem listExpiredCb_returns_due_iff (hreach : Reachable m) {front : Addr} {rest : List Addr}
    (htimers : m.timers = front :: rest) {now : UInt64} (hclock : m.previouseTime ≤ now) (probe : Addr) :
    ReturnsDue m now probe ↔ now ≤ m.next front := by
  have hwf := hreach.wf
  have hnoroll : (m.delectClockRollover now).1 = false := by
    simp only [delectClockRollover, decide_eq_false_iff_not]
    grind
  have hcall := listExpiredCb_cons htimers now probe
  rw [hnoroll] at hcall
  simp only [Bool.false_eq_true, if_false] at hcall
  constructor
  · rintro ⟨cbs, m', hr, hsub, -⟩
    by_contra hpast
    rw [hcall, if_pos (by grind)] at hr
    cases hr
    have hfront : front ∈ m.timers.filter fun a => decide (m.next a ≤ now) :=
      List.mem_filter.2 ⟨by simp [htimers], by simp only [decide_eq_true_eq]; grind⟩
    have := hsub.subset (List.mem_map_of_mem (f := m.cb) hfront)
    simp at this
  · intro hle
    rw [if_neg (by grind)] at hcall
    obtain ⟨hcbs, hleft⟩ := expireFront_returns_due (clocked_wf hwf now) now probe
    refine ⟨_, _, hcall, ?_, hleft⟩
    change List.Subperm _ ((m.clocked now).expireFront now probe false).1
    rw [hcbs]
    exact List.Subperm.refl _

/-- Armed at clock 100 for 105, a timer is handed over by a call at 105. -/
theorem due_timer_returned :
    ∃ m : TimerManager ℕ, run step (init 100) [.addTimer 0 5 (some 7) false 100] = .next m ∧ ReturnsDue m 105 1 :=
  ⟨_, rfl, (listExpiredCb_returns_due_iff ⟨100, [.addTimer 0 5 (some 7) false 100], rfl⟩ rfl (by decide) 1).2
    (by decide)⟩

/-- The same timer is not handed over by a call at 110, although the clock never went back: the guard compares the front deadline the wrong way round. -/
theorem overdue_timer_not_returned :
    ∃ m : TimerManager ℕ, run step (init 100) [.addTimer 0 5 (some 7) false 100] = .next m ∧ m.timers ≠ [] ∧
      m.previouseTime ≤ 110 ∧ m.next 0 ≤ 110 ∧ ¬ ReturnsDue m 110 1 := by
  refine ⟨_, rfl, by decide, by decide, by decide, ?_⟩
  rintro ⟨cbs, m', hcall, hsub, -⟩
  obtain rfl : cbs = [] := by
    cases hcall
    rfl
  have hdue := hsub.subset (List.mem_map_of_mem (List.mem_filter.2 ⟨List.mem_singleton_self 0, by decide⟩))
  simp at hdue

end Awcotn.TimerManager
