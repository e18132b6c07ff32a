import Mathlib.Data.List.Basic
import Mathlib.Data.List.Count
import Mathlib.Logic.Function.Basic
import Mathlib.Tactic.Common

/-!
# Locks held by stack of calls

Each thread has a stack of calls, the innermost first, and a call may hold a lock. A lock lists the threads that hold it, once for each call. `Accounted` says that lists and stack agree. A thread that acquires or releases a lock does so with one call more or less that holds it, and a lock that nobody holds is held by no call.
-/

namespace Holders

variable {ι κ φ : Type*} [DecidableEq κ] (holds : φ → Option κ)

/-- The calls of a stack that hold a lock. -/
def among (l : κ) (calls : List φ) : ℕ := calls.countP fun call => holds call = some l

@[simp] theorem among_nil (l : κ) : among holds l [] = 0 := rfl

@[simp] theorem among_append (l : κ) (calls calls' : List φ) :
    among holds l (calls ++ calls') = among holds l calls + among holds l calls' := List.countP_append

@[simp] theorem among_cons (l : κ) (call : φ) (calls : List φ) :
    among holds l (call :: calls) = among holds l calls + if holds call = some l then 1 else 0 := by
  simp [among, List.countP_cons]

/-- Calls that hold nothing. -/
theorem among_eq_zero {calls : List φ} (h : ∀ call ∈ calls, holds call = none) (l : κ) : among holds l calls = 0 := by
  rw [among, List.countP_eq_zero]
  intro call hcall
  simp [h call hcall]

variable [DecidableEq ι]

/-- The lists of the locks agree with the stack of the threads. -/
def Accounted (holders : κ → List ι) (stack : ι → List φ) : Prop := ∀ l t, (holders l).count t = among holds l (stack t)

variable {holds} {holders : κ → List ι} {stack : ι → List φ} {t : ι} {calls : List φ}

theorem Accounted.quiet (h : Accounted holds holders stack) (hsame : ∀ l, among holds l calls = among holds l (stack t)) :
    Accounted holds holders (Function.update stack t calls) := by
  intro l u
  rw [h l u]
  by_cases hut : u = t
  · rw [hut, Function.update_self, hsame]
  · rw [Function.update_of_ne hut]

theorem Accounted.acquire (h : Accounted holds holders stack) (l : κ)
    (hmore : ∀ l', among holds l' calls = among holds l' (stack t) + if l = l' then 1 else 0) :
    Accounted holds (Function.update holders l (t :: holders l)) (Function.update stack t calls) := by
  intro l' u
  have hbefore := h l' u
  by_cases hl : l = l'
  · subst hl
    rw [Function.update_self, List.count_cons, hbefore]
    by_cases hut : u = t
    · rw [hut, Function.update_self, hmore]
      simp
    · rw [Function.update_of_ne hut]
      simp [Ne.symm hut]
  · rw [Function.update_of_ne (Ne.symm hl), hbefore]
    by_cases hut : u = t
    · rw [hut, Function.update_self, hmore, if_neg hl, Nat.add_zero]
    · rw [Function.update_of_ne hut]

theorem Accounted.release (h : Accounted holds holders stack) (l : κ)
    (hless : ∀ l', among holds l' (stack t) = among holds l' calls + if l = l' then 1 else 0) :
    Accounted holds (Function.update holders l ((holders l).erase t)) (Function.update stack t calls) := by
  intro l' u
  have hbefore := h l' u
  by_cases hl : l = l'
  · subst hl
    rw [Function.update_self, List.count_erase, hbefore]
    by_cases hut : u = t
    · rw [hut, Function.update_self, hless]
      simp
    · rw [Function.update_of_ne hut]
      simp [Ne.symm hut]
  · rw [Function.update_of_ne (Ne.symm hl), hbefore]
    by_cases hut : u = t
    · rw [hut, Function.update_self, hless, if_neg hl, Nat.add_zero]
    · rw [Function.update_of_ne hut]

/-- A call that holds a lock is on its list. -/
theorem Accounted.mem (h : Accounted holds holders stack) {call : φ} (hcall : call ∈ stack t) {l : κ}
    (hl : holds call = some l) : t ∈ holders l := by
  have hpos : 0 < among holds l (stack t) := List.countP_pos_iff.2 ⟨call, hcall, by simpa using hl⟩
  rw [← h l t] at hpos
  exact List.count_pos_iff.1 hpos

/-- A lock that nobody holds is held by no call. -/
theorem Accounted.free (h : Accounted holds holders stack) {l : κ} (hfree : holders l = []) {call : φ}
    (hcall : call ∈ stack t) : holds call ≠ some l := by
  intro hl
  have hmem := h.mem hcall hl
  rw [hfree] at hmem
  exact absurd hmem List.not_mem_nil

end Holders
