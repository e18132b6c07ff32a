import Awcotn.Timer.Effects

/-!
# Conservation of timers at expiry

An expiry call takes timers from the front of the set while it walks a copy of them, and puts some of them back. Nothing is lost or duplicated by it, whatever ties there are and wherever the probe is allocated: `listExpiredCb_conserves`.
-/

namespace Awcotn.TimerManager

variable {Cb : Type*} {m : TimerManager Cb}

/-- The timers that a call at `now` expires: all of them on a rollover, none if the front deadline is past, and else those whose deadline has come. -/
def expiring (m : TimerManager Cb) (now : UInt64) : List Addr :=
  if (m.delectClockRollover now).1 then m.timers
  else if m.timers.head?.any fun front => m.next front < now then []
  else m.timers.filter fun a => m.next a ≤ now

/-- Nothing is lost or duplicated by a call at `now` that expires the timers in `expired` and ends with `r`. -/
structure Conserved (m : TimerManager Cb) (now : UInt64) (expired : List Addr) (r : List (Option Cb) × TimerManager Cb) :
    Prop where
  ordered : OrderedSet.Sorted Before m.key m.timers
  front : expired <+: m.timers
  all : (m.delectClockRollover now).1 = true → expired = m.timers
  cbs : r.1 = expired.map m.cb
  /-- The others stay as they are. -/
  kept : ∀ a ∈ m.timers, a ∉ expired → a ∈ r.2.timers ∧ r.2.heap a = m.heap a
  /-- A recurring timer is due again after its interval, and keeps its callback. -/
  rearmed : ∀ a ∈ expired, ∀ t, m.heap a = some t → t.recurring = true →
    a ∈ r.2.timers ∧ r.2.heap a = some { t with next := now + t.ms }
  /-- A one-shot timer leaves the set, and its callback is cleared. -/
  gone : ∀ a ∈ expired, ∀ t, m.heap a = some t → t.recurring = false →
    a ∉ r.2.timers ∧ r.2.heap a = some { t with cb := none }
  rest : ∀ a ∈ r.2.timers, a ∈ m.timers
  reordered : OrderedSet.Sorted Before r.2.key r.2.timers

/-- Each timer of an ordered set is in it once, so a conserving call hands out one callback for each. -/
theorem Conserved.nodup {now : UInt64} {expired : List Addr} {r : List (Option Cb) × TimerManager Cb}
    (h : Conserved m now expired r) : expired.Nodup ∧ r.2.timers.Nodup :=
  ⟨h.ordered.nodup.sublist h.front.sublist, h.reordered.nodup⟩

/-- While no deadline wraps, a recurring timer is due exactly its interval after the call. -/
theorem Conserved.next_eq {now : UInt64} {expired : List Addr} {r : List (Option Cb) × TimerManager Cb}
    (h : Conserved m now expired r) {a : Addr} (ha : a ∈ expired) {t : Timer Cb} (ht : m.heap a = some t)
    (hrecurring : t.recurring = true) (hwrap : now.toNat + t.ms.toNat < 2 ^ 64) :
    (r.2.next a).toNat = now.toNat + t.ms.toNat := by
  rw [TimerManager.next_eq (h.rearmed a ha t ht hrecurring).2, UInt64.toNat_add, Nat.mod_eq_of_lt hwrap]

/-- On a rollover the walk over the set goes to its end. -/
theorem take_expiredEnd_rollover (now : UInt64) (probe : Addr) :
    m.timers.take (m.expiredEnd now probe true) = m.timers := by
  have hend : m.timers.length ≤ m.expiredEnd now probe true := Nat.le_add_right _ _
  exact List.take_of_length_le hend

/-- The callbacks that a call hands out are those of the timers it is to expire. -/
theorem expired_eq_expiring (h : Wf m) {now : UInt64} {probe : Addr} {r : List (Option Cb) × TimerManager Cb}
    (hr : m.listExpiredCb now probe = some r) : m.expired r.1 = m.expiring now := by
  cases htimers : m.timers with
  | nil => simp [expired, expiring, htimers]
  | cons front rest =>
      rw [listExpiredCb_cons htimers] at hr
      cases hr
      cases hroll : (m.delectClockRollover now).1 with
      | true =>
          rw [if_pos rfl, expired_expireFront h, expiring, if_pos hroll]
          exact take_expiredEnd_rollover (m := m.clocked now) now probe
      | false =>
          simp only [Bool.false_eq_true, if_false, expiring, hroll, htimers, List.head?_cons, Option.any_some,
            decide_eq_true_eq]
          split_ifs
          · simp [expired]
          · rw [expired_expireFront h, ← htimers]
            exact take_expiredEnd (clocked_wf h now) now probe

theorem expiring_isFront (h : Wf m) (now : UInt64) : m.expiring now <+: m.timers := by
  cases htimers : m.timers with
  | nil => simp [expiring, htimers]
  | cons front rest =>
      rw [← htimers, ← expired_eq_expiring h (listExpiredCb_cons htimers now 0)]
      exact List.take_prefix _ _

/-- For every reachable timer set and every clock reading, a call of `listExpiredCb` conserves the timers. -/
theorem listExpiredCb_conserves (h : Reachable m) (now : UInt64) (probe : Addr) :
    ∃ r, m.listExpiredCb now probe = some r ∧ Conserved m now (m.expiring now) r := by
  have hwf := h.wf
  obtain ⟨r, hr⟩ := m.listExpiredCb_total now probe
  have heffect := listExpiredCb_effect hwf hr
  rw [expired_eq_expiring hwf hr] at heffect
  refine ⟨r, hr, hwf.sorted, expiring_isFront hwf now, fun hroll => if_pos hroll, heffect.cbs, ?_, ?_, ?_, ?_,
    (listExpiredCb_wf hwf hr).sorted⟩
  · exact fun a ha hleft => ⟨(heffect.timers a).2 ⟨ha, fun hexp => absurd hexp hleft⟩, heffect.left a hleft⟩
  · intro a hexp t ht hrecurring
    have hmem : a ∈ m.timers := heffect.sublist.subset hexp
    refine ⟨(heffect.timers a).2 ⟨hmem, fun _ => by simp [recurs, ht, hrecurring]⟩, ?_⟩
    simp [heffect.taken a hexp, ht, afterExpiry, hrecurring]
  · intro a hexp t ht honce
    refine ⟨fun hmem => ?_, ?_⟩
    · have hrecurs := ((heffect.timers a).1 hmem).2 hexp
      simp [recurs, ht, honce] at hrecurs
    · simp [heffect.taken a hexp, ht, afterExpiry, honce]
  · exact fun a hmem => ((heffect.timers a).1 hmem).1

/-- Two timers due at 15, the first of them recurring, and one due later; the probe is allocated between them. -/
def tied : TimerManager ℕ :=
  (((((init 10).addTimer 4 5 (some 7) true 10).2.addTimer 2 5 (some 8) false 10).2).addTimer 6 9 (some 9) true 10).2

theorem listExpiredCb_conserves_tied : ∃ r, tied.listExpiredCb 15 3 = some r ∧ Conserved tied 15 [2, 4] r :=
  listExpiredCb_conserves (m := tied)
    ⟨10, [.addTimer 4 5 (some 7) true 10, .addTimer 2 5 (some 8) false 10, .addTimer 6 9 (some 9) true 10], rfl⟩ 15 3

end Awcotn.TimerManager
