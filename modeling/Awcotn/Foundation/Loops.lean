import Mathlib.Data.List.Forall2

/-!
# Loops that may fail

`List.mapM` in `Option`: a loop that collects what it computes from each element, and stops where a computation fails.
-/

namespace Awcotn

variable {α β γ : Type*}

/-- The results of a loop that does not fail belong to the elements one by one. -/
theorem mapM_eq_some_iff {f : α → Option β} {xs : List α} {ys : List β} :
    xs.mapM f = some ys ↔ List.Forall₂ (fun x y => f x = some y) xs ys := by
  induction xs generalizing ys with
  | nil => simp [eq_comm]
  | cons x xs ih =>
      rw [List.mapM_cons, List.forall₂_cons_left_iff]
      cases hx : f x with
      | none => simp
      | some y =>
          cases hxs : xs.mapM f with
          | none =>
              have hnone : ∀ zs, ¬ List.Forall₂ (fun x y => f x = some y) xs zs := fun zs hzs => by
                rw [← ih, hxs] at hzs
                exact Option.some_ne_none _ hzs.symm
              simp [hnone]
          | some zs =>
              have hsome : ∀ zs', List.Forall₂ (fun x y => f x = some y) xs zs' ↔ zs = zs' := fun zs' => by
                rw [← ih, hxs, Option.some_inj]
              simp [hsome, eq_comm]

theorem mapM_eq_some {f : α → Option β} {g : α → β} {xs : List α} (h : ∀ x ∈ xs, f x = some (g x)) :
    xs.mapM f = some (xs.map g) := by
  rw [mapM_eq_some_iff, List.forall₂_map_right_iff, List.forall₂_same]
  exact h

/-- A loop returns its own elements if and only if it leaves each as it is. -/
theorem mapM_eq_self_iff {f : α → Option α} {xs : List α} : xs.mapM f = some xs ↔ ∀ x ∈ xs, f x = some x := by
  rw [mapM_eq_some_iff, List.forall₂_same]

/-- Every result comes from an element. -/
theorem exists_of_mem_mapM {f : α → Option β} {xs : List α} {ys : List β} (h : xs.mapM f = some ys) {y : β} (hy : y ∈ ys) :
    ∃ x ∈ xs, f x = some y := by
  rw [mapM_eq_some_iff] at h
  induction h with
  | nil => simp at hy
  | cons hhead _ ih =>
      rcases List.mem_cons.1 hy with rfl | hy
      · exact ⟨_, List.mem_cons_self, hhead⟩
      · obtain ⟨x, hx, hfx⟩ := ih hy
        exact ⟨x, List.mem_cons_of_mem _ hx, hfx⟩

/-- Two loops one after the other are one loop. -/
theorem mapM_bind_mapM (f : α → Option β) (g : β → Option γ) (xs : List α) :
    ((xs.mapM f).bind fun ys => ys.mapM g) = xs.mapM fun x => (f x).bind g := by
  induction xs with
  | nil => rfl
  | cons x xs ih =>
      simp only [List.mapM_cons, Option.bind_eq_bind, ← ih]
      cases f x with
      | none => rfl
      | some y => cases xs.mapM f <;> simp [List.mapM_cons]

end Awcotn
