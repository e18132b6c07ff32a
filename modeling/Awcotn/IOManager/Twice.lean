import Awcotn.IOManager.Registration

/-!
# Where an event is registered twice

Only `addEvent` asserts that its event is not registered yet, and the assertion fails exactly where the bit is set.
-/

namespace Awcotn.IOManager

open Transition

variable {F C : Type*} {m : IOManager F C}

theorem triggerEvent_ne_registered (ctx : FdContext F C) (event : Event) :
    ctx.triggerEvent event ≠ .error .addEventRegistered := by
  intro h
  simp only [FdContext.triggerEvent] at h
  split at h
  · split at h
    · rename_i hget
      cases h
      cases event <;> cases hget
    split at h
    · cases h
    split at h <;> cases h
  · cases h

theorem fireIf_ne_registered (m : IOManager F C) (cond : Bool) (fd : ℕ) (event : Event) :
    m.fireIf cond fd event ≠ .error .addEventRegistered := by
  intro h
  cases cond with
  | false => cases h
  | true =>
      simp only [fireIf, if_true, fire] at h
      split at h
      · cases h
      split at h
      · rename_i htrigger
        cases h
        exact triggerEvent_ne_registered _ _ htrigger
      · cases h

theorem cancelEvent_ne_registered (m : IOManager F C) (fd : ℕ) (event : Event) (allow : Bool) :
    m.cancelEvent fd event allow ≠ .error .addEventRegistered := by
  intro h
  simp only [cancelEvent] at h
  split at h
  · cases h
  split at h
  · cases h
  split at h
  · cases h
  split at h
  · rename_i htrigger
    cases h
    exact triggerEvent_ne_registered _ _ htrigger
  · cases h

theorem cancelAll_ne_registered (m : IOManager F C) (fd : ℕ) (allow : Bool) :
    m.cancelAll fd allow ≠ .error .addEventRegistered := by
  intro h
  simp only [cancelAll] at h
  split at h
  · cases h
  split at h
  · cases h
  split at h
  · cases h
  rcases bind_eq_error.1 h with hread | ⟨m₁, hread, h⟩
  · exact fireIf_ne_registered _ _ _ _ hread
  rcases bind_eq_error.1 h with hwrite | ⟨m₂, hwrite, h⟩
  · exact fireIf_ne_registered _ _ _ _ hwrite
  split at h <;> cases h

theorem dispatch_ne_registered (m : IOManager F C) (fd : ℕ) (report : Report) (allow : Bool) :
    m.dispatch fd report allow ≠ .error .addEventRegistered := by
  intro h
  simp only [dispatch] at h
  split at h
  · cases h
  split at h
  · cases h
  split at h
  · cases h
  rcases bind_eq_error.1 h with hread | ⟨m₁, hread, h⟩
  · exact fireIf_ne_registered _ _ _ _ hread
  · exact fireIf_ne_registered _ _ _ _ h

/-- The assertion of `addEvent` fails exactly where the event is registered. -/
theorem Wf.addEvent_eq_registered_iff (hm : Wf m) (fd : ℕ) (event : Event) (cb : Option C) (caller : Caller F)
    (allow : Bool) : m.addEvent fd event cb caller allow = .error .addEventRegistered ↔ (m.cells (fd, event)).1 = true := by
  constructor
  · intro h
    rcases addEvent_eq_error h with ⟨h, -⟩ | ⟨-, hset⟩ | ⟨h, -⟩ | ⟨h, -⟩ | ⟨h, -⟩
    · cases h
    · exact hset
    all_goals cases h
  · intro hset
    obtain ⟨⟨ctx, m₁⟩, hlookup⟩ := hm.lookupGrow_isOk fd
    obtain ⟨hctx, hat, -⟩ := lookupGrow_eq_ok hlookup
    have hold : m.ctxAt fd = ctx := by rw [← hat, ctxAt_of_getElem? hctx]
    have hhas : ctx.events.has event = true := hold ▸ hset
    simp only [IOManager.addEvent, hlookup, hhas, if_true]

end Awcotn.IOManager
