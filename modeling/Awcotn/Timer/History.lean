import Awcotn.Timer.Effects
import Mathlib.Data.List.Count

/-!
# What happens to one timer over a run

The manager with a log of what its operations reported. An address may be used again once its timer is destroyed, so the log names a timer by a serial number. A one-shot timer is over once a `cancel` returned true or an expiry call handed out its callback, and a recurring timer once a `cancel` returned true; the link between the callback and the set makes that final.
-/

namespace Awcotn.TimerManager

open Transition

variable {Cb : Type*} {m : TimerManager Cb}

/-- A timer: how many were added before it, and its `m_recurring`, which never changes. -/
structure TimerId where
  serial : ℕ
  recurring : Bool
  deriving DecidableEq

/-- What an operation reports of a timer: the result of a call on it, or that its callback is in the output of `listExpiredCb`. -/
inductive Event
  | cancelled (timer : TimerId) (result : Bool)
  | refreshed (timer : TimerId) (result : Bool)
  | reset (timer : TimerId) (result : Bool)
  | expired (timer : TimerId)
  deriving DecidableEq

/-- A manager, the timers that live at its addresses, how many have been added, and what has been reported, the oldest first. -/
structure History (Cb : Type*) where
  manager : TimerManager Cb
  ident : Addr → TimerId
  count : ℕ
  events : List Event

namespace History

/-- What a step reports. -/
def reports (s : History Cb) : Action Cb → List Event
  | .cancel a => (s.manager.cancel a).toList.map fun r => .cancelled (s.ident a) r.1
  | .refresh a now => (s.manager.refresh a now).toList.map fun r => .refreshed (s.ident a) r.1
  | .reset a ms fromNow now => (s.manager.reset a ms fromNow now).toList.map fun r => .reset (s.ident a) r.1
  | .listExpiredCb now probe =>
    match s.manager.listExpiredCb now probe with
    | some (cbs, _) => (s.manager.expired cbs).map fun a => .expired (s.ident a)
    | none => []
  | _ => []

/-- Which timers live where after a step, and how many have been added. -/
def named (s : History Cb) : Action Cb → (Addr → TimerId) × ℕ
  | .addTimer a _ _ recurring _ => (Function.update s.ident a ⟨s.count, recurring⟩, s.count + 1)
  | _ => (s.ident, s.count)

def step (s : History Cb) (act : Action Cb) : Outcome Unit (History Cb) :=
  match TimerManager.step s.manager act with
  | .next m =>
    .next { manager := m, ident := (s.named act).1, count := (s.named act).2, events := s.events ++ s.reports act }
  | .abort e => .abort e
  | .disabled => .disabled

def init (now : UInt64) : History Cb :=
  { manager := TimerManager.init now, ident := fun _ => ⟨0, false⟩, count := 0, events := [] }

end History

namespace Event

/-- The timer an event is about. -/
def timer : Event → TimerId
  | .cancelled timer _ => timer
  | .refreshed timer _ => timer
  | .reset timer _ => timer
  | .expired timer => timer

/-- After this event the timer is over. -/
def Ends (e : Event) (timer : TimerId) : Prop :=
  e = .cancelled timer true ∨ e = .expired timer ∧ timer.recurring = false

/-- What can happen only to a timer that is not over. -/
def Uses (e : Event) (timer : TimerId) : Prop :=
  e = .cancelled timer true ∨ e = .expired timer ∨ e = .refreshed timer true ∨ e = .reset timer true

theorem timer_of_uses {e : Event} {timer : TimerId} (h : e.Uses timer) : e.timer = timer := by
  rcases h with rfl | rfl | rfl | rfl <;> rfl

theorem uses_of_ends {e : Event} {timer : TimerId} (h : e.Ends timer) : e.Uses timer := by
  rcases h with h | ⟨h, -⟩
  · exact .inl h
  · exact .inr (.inl h)

/-- Nothing that uses a timer comes after an event that ends it. -/
def Before (e e' : Event) : Prop := ∀ timer, e.Ends timer → ¬ e'.Uses timer

end Event

/-! ### The invariant -/

structure History.Inv (s : History Cb) : Prop where
  wf : Wf s.manager
  serial_lt : ∀ a, (s.manager.heap a).isSome → (s.ident a).serial < s.count
  serial_inj : ∀ a b, (s.manager.heap a).isSome → (s.manager.heap b).isSome →
    (s.ident a).serial = (s.ident b).serial → a = b
  recurring : ∀ a t, s.manager.heap a = some t → (s.ident a).recurring = t.recurring
  event_lt : ∀ e ∈ s.events, e.timer.serial < s.count
  ended : ∀ a, (s.manager.heap a).isSome → (∃ e ∈ s.events, e.Ends (s.ident a)) →
    s.manager.cb a = none ∧ a ∉ s.manager.timers
  ordered : s.events.Pairwise Event.Before

theorem History.init_inv (now : UInt64) : (History.init now : History Cb).Inv where
  wf := init_wf now
  serial_lt := by simp [History.init, TimerManager.init]
  serial_inj := by simp [History.init, TimerManager.init]
  recurring := by simp [History.init, TimerManager.init]
  event_lt := by simp [History.init]
  ended := by simp [History.init]
  ordered := List.Pairwise.nil

/-- An operation that adds no timer: no timer is revived, what is reported is about timers that are in the set, and what ends a timer leaves it without a callback and out of the set. -/
theorem History.Inv.extend {s : History Cb} (h : s.Inv) {m' : TimerManager Cb} {new : List Event} (hwf : Wf m')
    (hheap : ∀ b t', m'.heap b = some t' → ∃ t, s.manager.heap b = some t ∧ t'.recurring = t.recurring)
    (htimers : ∀ b ∈ m'.timers, b ∈ s.manager.timers) (hcb : ∀ b, s.manager.cb b = none → m'.cb b = none)
    (hlive : ∀ e ∈ new, ∃ a, (s.manager.heap a).isSome ∧ e.timer = s.ident a)
    (hin : ∀ e ∈ new, ∀ timer, e.Uses timer → ∃ a ∈ s.manager.timers, s.ident a = timer)
    (hnew : new.Pairwise Event.Before)
    (hover : ∀ b ∈ s.manager.timers, (∃ e ∈ new, e.Ends (s.ident b)) → m'.cb b = none ∧ b ∉ m'.timers) :
    Inv { manager := m', ident := s.ident, count := s.count, events := s.events ++ new } := by
  have hstored : ∀ b, (m'.heap b).isSome → (s.manager.heap b).isSome := by
    intro b hb
    obtain ⟨t', ht'⟩ := Option.isSome_iff_exists.1 hb
    obtain ⟨t, ht, -⟩ := hheap b t' ht'
    simp [ht]
  refine ⟨hwf, fun b hb => h.serial_lt b (hstored b hb), fun a b ha hb => h.serial_inj a b (hstored a ha) (hstored b hb),
    fun b t' ht' => ?_, fun e he => ?_, ?_, List.pairwise_append.2 ⟨h.ordered, hnew, ?_⟩⟩
  · obtain ⟨t, ht, hrec⟩ := hheap b t' ht'
    exact (h.recurring b t ht).trans hrec.symm
  · rcases List.mem_append.1 he with he | he
    · exact h.event_lt e he
    · obtain ⟨a, ha, hid⟩ := hlive e he
      exact hid ▸ h.serial_lt a ha
  · rintro b hb ⟨e, he, hends⟩
    rcases List.mem_append.1 he with he | he
    · obtain ⟨hnone, hout⟩ := h.ended b (hstored b hb) ⟨e, he, hends⟩
      exact ⟨hcb b hnone, fun hmem => hout (htimers b hmem)⟩
    · obtain ⟨a, ha, hid⟩ := hin e he _ (Event.uses_of_ends hends)
      obtain rfl : a = b := h.serial_inj a b (h.wf.stored a ha) (hstored b hb) (congrArg TimerId.serial hid)
      exact hover a ha ⟨e, he, hends⟩
  · intro e he e' he' timer hends huses
    obtain ⟨a, ha, rfl⟩ := hin e' he' timer huses
    exact (h.ended a (h.wf.stored a ha) ⟨e, he, hends⟩).2 ha

/-- An operation that reports nothing and at most destroys timers. -/
theorem History.Inv.unreported {s : History Cb} (h : s.Inv) {m' : TimerManager Cb} (hwf : Wf m')
    (hheap : ∀ b t, m'.heap b = some t → s.manager.heap b = some t) (htimers : ∀ b ∈ m'.timers, b ∈ s.manager.timers) :
    Inv { manager := m', ident := s.ident, count := s.count, events := s.events ++ [] } := by
  refine h.extend hwf (fun b t ht => ⟨t, hheap b t ht, rfl⟩) htimers (fun b hb => ?_) (by simp) (by simp)
    List.Pairwise.nil (by simp)
  cases ht : m'.heap b with
  | none => simp [cb, ht]
  | some t => rw [cb_eq ht, ← cb_eq (hheap b t ht), hb]

theorem History.Inv.added {s : History Cb} (h : s.Inv) {a : Addr} (hnew : s.manager.heap a = none) (ms : UInt64)
    (cb : Option Cb) (recurring : Bool) (now : UInt64) :
    Inv { manager := (s.manager.addTimer a ms cb recurring now).2, ident := Function.update s.ident a ⟨s.count, recurring⟩,
          count := s.count + 1, events := s.events } := by
  have hin := addTimer_inserted h.wf hnew ms cb recurring now
  have hident : ∀ b, b ≠ a → Function.update s.ident a ⟨s.count, recurring⟩ b = s.ident b := fun b hb =>
    Function.update_of_ne hb _ _
  have hself : Function.update s.ident a ⟨s.count, recurring⟩ a = ⟨s.count, recurring⟩ := Function.update_self a _ _
  have hother : ∀ b, b ≠ a → (s.manager.addTimer a ms cb recurring now).2.heap b = s.manager.heap b := fun b hb => by
    rw [hin.heap, Function.update_of_ne hb]
  refine ⟨addTimer_wf h.wf hnew ms cb recurring now, fun b hb => ?_, fun b c hb hc heq => ?_, fun b t ht => ?_,
    fun e he => (h.event_lt e he).trans (Nat.lt_succ_self _), ?_, h.ordered⟩
  · by_cases hba : b = a
    · simp [hba]
    · simp only [hident b hba]
      exact (h.serial_lt b (hother b hba ▸ hb)).trans (Nat.lt_succ_self _)
  · by_cases hba : b = a <;> by_cases hca : c = a
    · exact hba.trans hca.symm
    · have hlt := h.serial_lt c (hother c hca ▸ hc)
      simp only [hba, hself, hident c hca] at heq
      omega
    · have hlt := h.serial_lt b (hother b hba ▸ hb)
      simp only [hca, hself, hident b hba] at heq
      omega
    · simp only [hident b hba, hident c hca] at heq
      exact h.serial_inj b c (hother b hba ▸ hb) (hother c hca ▸ hc) heq
  · by_cases hba : b = a
    · subst hba
      have hadded : { recurring := recurring, ms := ms, next := ms + now, cb := cb } = t := by simpa [hin.heap] using ht
      simp [← hadded]
    · simp only [hident b hba]
      exact h.recurring b t (hother b hba ▸ ht)
  · rintro b hb ⟨e, he, hends⟩
    dsimp only at hb he hends ⊢
    by_cases hba : b = a
    · have hlt := h.event_lt e he
      rw [Event.timer_of_uses (Event.uses_of_ends hends), hba, hself] at hlt
      exact absurd hlt (lt_irrefl _)
    · rw [hident b hba] at hends
      obtain ⟨hnone, hout⟩ := h.ended b (hother b hba ▸ hb) ⟨e, he, hends⟩
      exact ⟨(cb_congr (hother b hba)).trans hnone, fun hmem => hout (((hin.timers b).1 hmem).resolve_left hba)⟩

/-- A call that finds nothing to do reports false and changes nothing. -/
theorem History.Inv.refused {s : History Cb} (h : s.Inv) {a : Addr} (ha : (s.manager.heap a).isSome) {e : Event}
    (htimer : e.timer = s.ident a) (he : ∀ timer, ¬ e.Uses timer) :
    Inv { manager := s.manager, ident := s.ident, count := s.count, events := s.events ++ [e] } := by
  refine h.extend h.wf (fun b t ht => ⟨t, ht, rfl⟩) (fun b hb => hb) (fun b hb => hb) ?_ ?_ (List.pairwise_singleton _ _) ?_
  · simpa using ⟨a, ha, htimer⟩
  · intro e' he' timer huses
    exact absurd (List.mem_singleton.1 he' ▸ huses) (he timer)
  · rintro b - ⟨e', he', hends⟩
    exact absurd (List.mem_singleton.1 he' ▸ Event.uses_of_ends hends) (he _)

/-- A timer that has its callback is armed anew. -/
theorem History.Inv.rearmed {s : History Cb} (h : s.Inv) {a : Addr} {t t' : Timer Cb} {r : Bool × TimerManager Cb}
    (hwf : Wf r.2) (ha : s.manager.heap a = some t) (hcb : t.cb.isSome) (hin : Inserted s.manager a t' r)
    (hsame : t'.cb = t.cb ∧ t'.recurring = t.recurring) {e : Event} (htimer : e.timer = s.ident a)
    (hends : ∀ timer, ¬ e.Ends timer) :
    Inv { manager := r.2, ident := s.ident, count := s.count, events := s.events ++ [e] } := by
  have hmem : a ∈ s.manager.timers := (h.wf.live a t ha hcb).resolve_right (by simp)
  have hcbs : r.2.cb = s.manager.cb := by
    funext b
    by_cases hba : b = a
    · simp [cb, hin.heap, hba, ha, hsame.1]
    · exact cb_congr (by rw [hin.heap, Function.update_of_ne hba])
  refine h.extend hwf (fun b u hu => ?_) (fun b hb => ?_) (fun b hb => by rwa [hcbs]) ?_ ?_ (List.pairwise_singleton _ _) ?_
  · rw [hin.heap] at hu
    by_cases hba : b = a
    · subst hba
      rw [Function.update_self] at hu
      exact ⟨t, ha, Option.some.inj hu ▸ hsame.2⟩
    · rw [Function.update_of_ne hba] at hu
      exact ⟨u, hu, rfl⟩
  · rcases (hin.timers b).1 hb with rfl | hb
    · exact hmem
    · exact hb
  · simpa using ⟨a, by simp [ha], htimer⟩
  · intro e' he' timer huses
    obtain rfl := List.mem_singleton.1 he'
    exact ⟨a, hmem, htimer.symm.trans (Event.timer_of_uses huses)⟩
  · rintro b - ⟨e', he', hb⟩
    exact absurd (List.mem_singleton.1 he' ▸ hb) (hends _)

theorem History.Inv.cancelled {s : History Cb} (h : s.Inv) {a : Addr} {r : Bool × TimerManager Cb}
    (hr : s.manager.cancel a = some r) :
    Inv { manager := r.2, ident := s.ident, count := s.count, events := s.events ++ [.cancelled (s.ident a) r.1] } := by
  rcases cancel_effect h.wf hr with rfl | ⟨hdone, t, ha, hcb, hheap, htimers, -⟩
  · have ha : (s.manager.heap a).isSome := by
      cases ha : s.manager.heap a with
      | none => simp [cancel, ha] at hr
      | some t => rfl
    refine h.refused ha rfl fun timer huses => ?_
    rcases huses with huses | huses | huses | huses <;> simp at huses
  · have hmem : a ∈ s.manager.timers := (h.wf.live a t ha hcb).resolve_right (by simp)
    have hcleared : r.2.cb = Function.update s.manager.cb a none := (cancel_cb hr).1
    refine h.extend (cancel_wf h.wf hr) (fun b u hu => ?_) (fun b hb => ((htimers b).1 hb).1) (fun b hb => ?_) ?_ ?_
      (List.pairwise_singleton _ _) ?_
    · rw [hheap] at hu
      by_cases hba : b = a
      · subst hba
        rw [Function.update_self] at hu
        exact ⟨t, ha, by rw [← Option.some.inj hu]⟩
      · rw [Function.update_of_ne hba] at hu
        exact ⟨u, hu, rfl⟩
    · rw [hcleared]
      by_cases hba : b = a
      · rw [hba, Function.update_self]
      · rwa [Function.update_of_ne hba]
    · simpa using ⟨a, by simp [ha], rfl⟩
    · intro e he timer huses
      obtain rfl := List.mem_singleton.1 he
      exact ⟨a, hmem, Event.timer_of_uses huses⟩
    · rintro b hb ⟨e, he, hends⟩
      obtain rfl := List.mem_singleton.1 he
      have hid : s.ident a = s.ident b := Event.timer_of_uses (Event.uses_of_ends hends)
      obtain rfl : a = b := h.serial_inj a b (h.wf.stored a hmem) (h.wf.stored b hb) (congrArg TimerId.serial hid)
      exact ⟨by rw [hcleared, Function.update_self], fun hin => ((htimers a).1 hin).2 rfl⟩

/-- The timers whose callbacks a call hands out were in the set, each of them once; the one-shot ones leave it without their callbacks. -/
theorem History.Inv.expired {s : History Cb} (h : s.Inv) {now : UInt64} {probe : Addr}
    {r : List (Option Cb) × TimerManager Cb} (hr : s.manager.listExpiredCb now probe = some r) :
    Inv { manager := r.2, ident := s.ident, count := s.count,
          events := s.events ++ (s.manager.expired r.1).map fun a => .expired (s.ident a) } := by
  have heffect := listExpiredCb_effect h.wf hr
  have hmem : ∀ a ∈ s.manager.expired r.1, a ∈ s.manager.timers := fun a ha => heffect.sublist.subset ha
  have hafter : ∀ b t', r.2.heap b = some t' → ∃ t, s.manager.heap b = some t ∧
      (t' = t ∨ b ∈ s.manager.expired r.1 ∧ t' = afterExpiry now t) := by
    intro b t' ht'
    by_cases hexp : b ∈ s.manager.expired r.1
    · obtain ⟨t, ht, rfl⟩ := Option.map_eq_some_iff.1 ((heffect.taken b hexp).symm.trans ht')
      exact ⟨t, ht, .inr ⟨hexp, rfl⟩⟩
    · exact ⟨t', heffect.left b hexp ▸ ht', .inl rfl⟩
  refine h.extend (listExpiredCb_wf h.wf hr) (fun b t' ht' => ?_) (fun b hb => ((heffect.timers b).1 hb).1) (fun b hb => ?_)
    ?_ ?_ ?_ ?_
  · obtain ⟨t, ht, rfl | ⟨-, rfl⟩⟩ := hafter b t' ht'
    · exact ⟨t', ht, rfl⟩
    · refine ⟨t, ht, ?_⟩
      unfold afterExpiry
      split_ifs <;> rfl
  · cases hb' : r.2.heap b with
    | none => simp [cb, hb']
    | some t' =>
        rw [cb_eq hb']
        obtain ⟨t, ht, rfl | ⟨-, rfl⟩⟩ := hafter b t' hb'
        · exact (cb_eq ht).symm.trans hb
        · unfold afterExpiry
          split_ifs
          · exact (cb_eq ht).symm.trans hb
          · rfl
  · intro e he
    obtain ⟨a, ha, rfl⟩ := List.mem_map.1 he
    exact ⟨a, h.wf.stored a (hmem a ha), rfl⟩
  · intro e he timer huses
    obtain ⟨a, ha, rfl⟩ := List.mem_map.1 he
    exact ⟨a, hmem a ha, Event.timer_of_uses huses⟩
  · have hnodup : (s.manager.expired r.1).Nodup := heffect.sublist.nodup h.wf.sorted.nodup
    refine List.pairwise_map.2 (List.Pairwise.imp_of_mem (fun {a b} ha hb hne timer hends huses => hne ?_) hnodup)
    have hid : s.ident a = s.ident b :=
      (Event.timer_of_uses (Event.uses_of_ends hends)).trans (Event.timer_of_uses huses).symm
    exact h.serial_inj a b (h.wf.stored a (hmem a ha)) (h.wf.stored b (hmem b hb)) (congrArg TimerId.serial hid)
  · rintro b hb ⟨e, he, hends⟩
    obtain ⟨a, ha, rfl⟩ := List.mem_map.1 he
    have hid : s.ident a = s.ident b := Event.timer_of_uses (Event.uses_of_ends hends)
    obtain rfl : a = b := h.serial_inj a b (h.wf.stored a (hmem a ha)) (h.wf.stored b hb) (congrArg TimerId.serial hid)
    have honce : (s.ident a).recurring = false := by
      rcases hends with hends | ⟨-, honce⟩
      · cases hends
      · exact honce
    obtain ⟨t, ht⟩ := Option.isSome_iff_exists.1 (h.wf.stored a hb)
    have hrec : t.recurring = false := (h.recurring a t ht).symm.trans honce
    refine ⟨?_, fun hin => ?_⟩
    · have htaken := heffect.taken a ha
      rw [ht] at htaken
      rw [cb_eq htaken]
      simp [afterExpiry, hrec]
    · have hrecurs := ((heffect.timers a).1 hin).2 ha
      simp [recurs, ht, hrec] at hrecurs

theorem History.step_inv (s : History Cb) (act : Action Cb) (s' : History Cb) (h : s.Inv)
    (hstep : History.step s act = .next s') : s'.Inv := by
  simp only [History.step] at hstep
  split at hstep <;> cases hstep
  rename_i m' hnext
  cases step_performed hnext with
  | @addTimer a ms cb recurring now hnew =>
      simpa [named, reports] using h.added hnew ms cb recurring now
  | @cancel a r _ hr =>
      simpa [named, reports, hr] using h.cancelled hr
  | @refresh a now r hstored hr =>
      simp only [named, reports, hr, Option.toList_some, List.map_cons, List.map_nil]
      rcases refresh_effect h.wf hr with rfl | ⟨-, t, ha, hcb, hin⟩
      · exact h.refused hstored rfl fun timer huses => by simp [Event.Uses] at huses
      · exact h.rearmed (refresh_wf h.wf hr) ha hcb hin ⟨rfl, rfl⟩ rfl fun timer hends => by simp [Event.Ends] at hends
  | @reset a ms fromNow now r hstored hr =>
      simp only [named, reports, hr, Option.toList_some, List.map_cons, List.map_nil]
      rcases reset_effect h.wf hr with rfl | ⟨-, t, ha, hcb, hin⟩
      · exact h.refused hstored rfl fun timer huses => by simp [Event.Uses] at huses
      · exact h.rearmed (reset_wf h.wf hr) ha hcb hin ⟨rfl, rfl⟩ rfl fun timer hends => by simp [Event.Ends] at hends
  | @getNextTimer now =>
      exact h.unreported (getNextTimer_wf h.wf now) (fun b t ht => getNextTimer_heap s.manager now ▸ ht)
        (fun b hb => getNextTimer_timers s.manager now ▸ hb)
  | @listExpiredCb now probe r _ hr =>
      simpa [named, reports, hr] using h.expired hr
  | @release a hin =>
      exact h.unreported (free_wf h.wf hin) (fun b t ht => heap_of_free ht) fun b hb => hb

/-! ### What a whole log shows -/

/-- An event that ends a one-shot timer. -/
def Event.isLast (timer : TimerId) (e : Event) : Bool := e = .cancelled timer true ∨ e = .expired timer

/-- What the log and the set show of one timer, as long as the run has lasted. -/
structure History.EndsOnce (s : History Cb) (timer : TimerId) : Prop where
  once : timer.recurring = false → s.events.countP (Event.isLast timer) ≤ 1
  refused : timer.recurring = false → ∀ before e after, s.events = before ++ e :: after → e.isLast timer →
    .refreshed timer true ∉ after ∧ .reset timer true ∉ after
  out : timer.recurring = false → s.events.any (Event.isLast timer) → ∀ a, (s.manager.heap a).isSome →
    s.ident a = timer → a ∉ s.manager.timers
  cancelled : timer.recurring = true → s.events.count (.cancelled timer true) ≤ 1
  silent : timer.recurring = true → ∀ before after, s.events = before ++ .cancelled timer true :: after →
    .expired timer ∉ after

/-- Where no two elements of a list satisfy a predicate, at most one does. -/
theorem countP_le_one_of_pairwise {α : Type*} {p : α → Bool} {l : List α}
    (h : l.Pairwise fun x y => p x = true → ¬ p y = true) : l.countP p ≤ 1 := by
  induction l with
  | nil => exact Nat.zero_le 1
  | cons x l ih =>
      obtain ⟨hx, hl⟩ := List.pairwise_cons.1 h
      by_cases hp : p x = true
      · have hnone : l.countP p = 0 := List.countP_eq_zero.2 fun y hy => hx y hy hp
        rw [List.countP_cons_of_pos hp, hnone]
      · rw [List.countP_cons_of_neg hp]
        exact ih hl

theorem Event.ends_of_isLast {timer : TimerId} {e : Event} (honce : timer.recurring = false) (h : e.isLast timer) :
    e.Ends timer := by
  rcases of_decide_eq_true h with h | h
  · exact .inl h
  · exact .inr ⟨h, honce⟩

/-- What follows an event in an ordered log is allowed after it. -/
theorem before_of_split {events before after : List Event} {e e' : Event} (h : events.Pairwise Event.Before)
    (hsplit : events = before ++ e :: after) (he' : e' ∈ after) : Event.Before e e' := by
  subst hsplit
  exact (List.pairwise_cons.1 (List.pairwise_append.1 h).2.1).1 e' he'

theorem History.Inv.endsOnce {s : History Cb} (h : s.Inv) (timer : TimerId) : s.EndsOnce timer where
  once honce := by
    refine countP_le_one_of_pairwise (h.ordered.imp fun {e e'} hbefore he he' => ?_)
    exact hbefore timer (Event.ends_of_isLast honce he) (Event.uses_of_ends (Event.ends_of_isLast honce he'))
  refused honce before e after hsplit he := by
    have hends := Event.ends_of_isLast honce he
    exact ⟨fun hin => before_of_split h.ordered hsplit hin timer hends (.inr (.inr (.inl rfl))),
      fun hin => before_of_split h.ordered hsplit hin timer hends (.inr (.inr (.inr rfl)))⟩
  out honce hover a ha hid := by
    obtain ⟨e, he, hlast⟩ := List.any_eq_true.1 hover
    exact (h.ended a ha ⟨e, he, hid ▸ Event.ends_of_isLast honce hlast⟩).2
  cancelled _ := by
    refine countP_le_one_of_pairwise (h.ordered.imp fun {e e'} hbefore he he' => ?_)
    exact hbefore timer (.inl (eq_of_beq he)) (.inl (eq_of_beq he'))
  silent _ before after hsplit hin := before_of_split h.ordered hsplit hin timer (.inl rfl) (.inr (.inl rfl))

/-- The output of an expiry call is the callbacks of the timers it is reported for. -/
def History.OutputReported (s : History Cb) (act : Action Cb) : Prop :=
  ∀ now probe cbs m', act = .listExpiredCb now probe → s.manager.listExpiredCb now probe = some (cbs, m') →
    ∃ expired : List Addr, cbs = expired.map s.manager.cb ∧
      s.reports act = expired.map fun a => .expired (s.ident a)

/-- Whatever the order of the operations and whatever the clock: a one-shot timer is cancelled or handed out at most once in all and never armed again, and a recurring timer is cancelled at most once and never handed out again. -/
theorem timer_ends_once (now : UInt64) (acts : List (Action Cb)) :
    Throughout History.step (fun s => ∀ timer, s.EndsOnce timer) (History.init now) acts ∧
      Along History.step History.OutputReported (History.init now) acts := by
  have hall := throughout_of_along (P := fun _ _ => True) (fun s act s' h _ => History.step_inv s act s' h)
    (History.init_inv now) (along_of_forall (fun _ (_ : _ ∈ acts) _ => trivial) (History.init now))
  refine ⟨hall.1.mono fun s hs timer => hs.endsOnce timer, hall.2.mono ?_⟩
  rintro s act ⟨hs, -⟩ now probe cbs m' rfl hr
  exact ⟨s.manager.expired cbs, (listExpiredCb_effect hs.wf hr).cbs, by simp only [History.reports, hr]⟩

end Awcotn.TimerManager
