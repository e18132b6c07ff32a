import Awcotn.Timer.Expiry

/-!
# Where a callback can be

A callback is given to a timer when the timer is added, and leaves it in two ways: the timer is cancelled, or an expiry call hands it out.
-/

namespace Awcotn.TimerManager

variable {Cb : Type*} {m m' : TimerManager Cb}

theorem cb_store (m : TimerManager Cb) (a : Addr) (t : Timer Cb) : (m.store a t).cb = Function.update m.cb a t.cb := by
  funext b
  by_cases hb : b = a
  · subst hb
    simp [cb]
  · rw [cb_store_of_ne m t hb, Function.update_of_ne hb]

theorem cb_addTimer (m : TimerManager Cb) (a : Addr) (ms : UInt64) (cb : Option Cb) (recurring : Bool) (now : UInt64) :
    (m.addTimer a ms cb recurring now).2.cb = Function.update m.cb a cb := cb_store m a _

theorem heap_addTimer (m : TimerManager Cb) (a : Addr) (ms : UInt64) (cb : Option Cb) (recurring : Bool) (now : UInt64) :
    ∃ t, (m.addTimer a ms cb recurring now).2.heap = Function.update m.heap a (some t) := ⟨_, rfl⟩

@[simp] theorem next_addTimer (m : TimerManager Cb) (a : Addr) (ms : UInt64) (cb : Option Cb) (recurring : Bool)
    (now : UInt64) : (m.addTimer a ms cb recurring now).2.next a = ms + now :=
  next_eq (store_heap_self m a { recurring := recurring, ms := ms, next := ms + now, cb := cb })

theorem isSome_of_cb {a : Addr} {c : Cb} (h : m.cb a = some c) : (m.heap a).isSome := by
  cases ha : m.heap a with
  | none => simp [cb, ha] at h
  | some t => rfl

/-- A timer that still has its callback is in the set. -/
theorem WfUpTo.mem_of_cb (h : Wf m) {a : Addr} {c : Cb} (hcb : m.cb a = some c) : a ∈ m.timers := by
  obtain ⟨t, ha⟩ := Option.isSome_iff_exists.1 (isSome_of_cb hcb)
  exact (h.live a t ha (by rw [← cb_eq ha, hcb]; rfl)).resolve_right (by simp)

/-- `m'` is `m` after some callbacks have left their timers, those in `cbs` handed out. -/
structure HandsOut (m m' : TimerManager Cb) (cbs : List (Option Cb)) : Prop where
  stored : ∀ a, (m.heap a).isSome → (m'.heap a).isSome
  kept : ∀ a c, m.cb a = some c → m'.cb a = some c ∨ some c ∈ cbs
  old : ∀ a c, m'.cb a = some c → m.cb a = some c
  source : ∀ c, some c ∈ cbs → ∃ a, m.cb a = some c

theorem HandsOut.of_heap (h : m'.heap = m.heap) : HandsOut m m' [] := by
  have hcb : m'.cb = m.cb := funext fun a => cb_congr (by rw [h])
  exact ⟨fun a ha => by rwa [h], fun a c hc => .inl (by rwa [hcb]), fun a c hc => by rwa [← hcb], by simp⟩

theorem stored_store {a b : Addr} (t : Timer Cb) (hb : (m.heap b).isSome) : ((m.store a t).heap b).isSome := by
  by_cases hba : b = a
  · subst hba
    simp
  · rwa [store_heap_of_ne m t hba]

/-- A cancelled timer is the only one that loses its callback. -/
theorem cancel_cb {a : Addr} {r : Bool × TimerManager Cb} (h : m.cancel a = some r) :
    r.2.cb = Function.update m.cb a none ∧ ∀ b, (m.heap b).isSome → (r.2.heap b).isSome := by
  simp only [cancel] at h
  split at h
  · cases h
  rename_i t ha
  split at h
  · split at h
    · cases h
      exact ⟨cb_store m a _, fun b hb => stored_store _ hb⟩
    · cases h
  · rename_i hcb
    cases h
    refine ⟨?_, fun b hb => hb⟩
    have hnone : m.cb a = none := by rw [cb_eq ha]; simpa using hcb
    rw [← hnone, Function.update_eq_self]

/-- One more timer whose callback is taken, and possibly cleared. -/
theorem HandsOut.cons {m₁ : TimerManager Cb} {a : Addr} {more : List (Option Cb)}
    (hstored : ∀ b, (m.heap b).isSome → (m₁.heap b).isSome) (hkept : ∀ b, b ≠ a → m₁.cb b = m.cb b)
    (hself : m₁.cb a = m.cb a ∨ m₁.cb a = none) (h : HandsOut m₁ m' more) : HandsOut m m' (m.cb a :: more) := by
  have hold : ∀ b c, m₁.cb b = some c → m.cb b = some c := by
    intro b c hc
    by_cases hb : b = a
    · subst hb
      rcases hself with hself | hself
      · rw [← hself, hc]
      · simp [hself] at hc
    · rw [← hkept b hb, hc]
  refine ⟨fun b hb => h.stored b (hstored b hb), fun b c hc => ?_, fun b c hc => hold b c (h.old b c hc), fun c hc => ?_⟩
  · by_cases hb : b = a
    · subst hb
      exact .inr (by rw [hc]; exact List.mem_cons_self)
    · exact (h.kept b c (by rw [hkept b hb, hc])).imp_right (List.mem_cons_of_mem _)
  · rcases List.mem_cons.1 hc with hc | hc
    · exact ⟨a, hc.symm⟩
    · obtain ⟨b, hb⟩ := h.source c hc
      exact ⟨b, hold b c hb⟩

/-- The loop over the expired timers hands out what it takes. -/
theorem collectExpired_handsOut (now : UInt64) (out : List Addr) (cbs : List (Option Cb)) (m : TimerManager Cb) :
    ∃ more, (collectExpired now out cbs m).1 = cbs ++ more ∧ HandsOut m (collectExpired now out cbs m).2 more := by
  induction out generalizing m cbs with
  | nil => exact ⟨[], by simp [collectExpired], .of_heap rfl⟩
  | cons a out ih =>
      simp only [collectExpired]
      split
      · exact ih cbs m
      · rename_i t ha
        split
        · obtain ⟨more, hmore, hands⟩ := ih (cbs ++ [t.cb]) { m.store a { t with next := now + t.ms } with
            timers := OrderedSet.insert Before (m.store a { t with next := now + t.ms }).key a
              (m.store a { t with next := now + t.ms }).timers }
          have hself : (m.store a { t with next := now + t.ms }).cb a = m.cb a := by
            rw [cb_store, Function.update_self, cb_eq ha]
          have hput : HandsOut (m.store a { t with next := now + t.ms }) _ more :=
            ⟨hands.stored, hands.kept, hands.old, hands.source⟩
          have htaken := hput.cons (fun b hb => stored_store _ hb) (fun b hb => cb_store_of_ne m _ hb) (.inl hself)
          rw [cb_eq ha] at htaken
          exact ⟨t.cb :: more, hmore.trans (List.append_assoc ..), htaken⟩
        · obtain ⟨more, hmore, hands⟩ := ih (cbs ++ [t.cb]) (m.store a { t with cb := none })
          have hself : (m.store a { t with cb := none }).cb a = none := by rw [cb_store, Function.update_self]
          have htaken := hands.cons (fun b hb => stored_store _ hb) (fun b hb => cb_store_of_ne m _ hb) (.inr hself)
          rw [cb_eq ha] at htaken
          exact ⟨t.cb :: more, hmore.trans (List.append_assoc ..), htaken⟩

/-- An expiry call loses no callback: each is still with its timer or handed out. -/
theorem listExpiredCb_handsOut {now : UInt64} {probe : Addr} {r : List (Option Cb) × TimerManager Cb}
    (h : m.listExpiredCb now probe = some r) : HandsOut m r.2 r.1 := by
  rcases m.listExpiredCb_cases now probe with heq | heq | ⟨rollover, heq⟩ <;> rw [heq] at h <;> cases h
  · exact .of_heap rfl
  · exact .of_heap rfl
  · obtain ⟨more, hmore, hands⟩ := collectExpired_handsOut now
      (m.timers.take ((m.clocked now).expiredEnd now probe rollover)) []
      { m.clocked now with timers := m.timers.drop ((m.clocked now).expiredEnd now probe rollover) }
    rw [List.nil_append] at hmore
    have hback : HandsOut m ((m.clocked now).expireFront now probe rollover).2 more :=
      ⟨hands.stored, hands.kept, hands.old, hands.source⟩
    exact hmore ▸ hback

end Awcotn.TimerManager
