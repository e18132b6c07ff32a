import Mathlib.Algebra.Group.Int.Defs
import Mathlib.Algebra.Group.Nat.Defs
import Mathlib.Data.Int.Notation
import Mathlib.Logic.Function.Basic
import Mathlib.Tactic.Common

/-!
# Vectors of pointers and signed indices

A vector whose elements may be null, with `resize`, and what becomes of a 32-bit `int` on its way into it. The index is compared with the size as an `int`, which is negative for sizes from `2 ^ 31` on, and it is used as a `size_t`, which lies past every such size where the index is negative.
-/

/-- A vector of pointers. What lies past its size is null. -/
structure Slots (α : Type*) where
  size : ℕ
  slot : ℕ → Option α
  past : ∀ i, size ≤ i → slot i = none

namespace Slots

variable {α : Type*}

/-- A vector of null pointers. -/
def nulls (size : ℕ) : Slots α := { size := size, slot := fun _ => none, past := fun _ _ => rfl }

/-- `resize`: what lies past the new size is dropped, and new elements are null. -/
def resize (v : Slots α) (size : ℕ) : Slots α where
  size := size
  slot i := if i < size then v.slot i else none
  past i h := if_neg (by omega)

/-- Assign an element. -/
def set (v : Slots α) (i : ℕ) (hi : i < v.size) (x : Option α) : Slots α where
  size := v.size
  slot := Function.update v.slot i x
  past j h := by
    rw [Function.update_of_ne (by omega)]
    exact v.past j h

/-- `(int)size`, in two's complement. -/
def intSize (size : ℕ) : ℤ := ((size : ℤ) + 2 ^ 31) % 2 ^ 32 - 2 ^ 31

/-- An `int` as an index. -/
def index (fd : Int32) : ℕ := (fd.toInt % 2 ^ 64).toNat

/-! ### Elements -/

@[simp] theorem size_resize (v : Slots α) (size : ℕ) : (v.resize size).size = size := rfl

@[simp] theorem size_set (v : Slots α) {i : ℕ} (hi : i < v.size) (x : Option α) : (v.set i hi x).size = v.size := rfl

@[simp] theorem slot_set_self (v : Slots α) {i : ℕ} (hi : i < v.size) (x : Option α) : (v.set i hi x).slot i = x :=
  Function.update_self ..

theorem slot_set_of_ne (v : Slots α) {i j : ℕ} (hi : i < v.size) (x : Option α) (h : j ≠ i) :
    (v.set i hi x).slot j = v.slot j := Function.update_of_ne h ..

theorem slot_resize_of_some {v : Slots α} {size i : ℕ} {a : α} (h : (v.resize size).slot i = some a) : v.slot i = some a := by
  simp only [resize] at h
  split_ifs at h
  exact h

/-- Resizing keeps an element exactly if it lies before the new size or is null. -/
theorem slot_resize_eq_iff {v : Slots α} {size i : ℕ} : (v.resize size).slot i = v.slot i ↔ (size ≤ i → v.slot i = none) := by
  simp only [resize]
  split_ifs with hi
  · exact iff_of_true rfl fun hle => absurd hi (by omega)
  · exact ⟨fun h _ => h.symm, fun h => (h (by omega)).symm⟩

/-! ### Sizes and indices as machine integers -/

theorem intSize_of_lt {size : ℕ} (h : size < 2 ^ 31) : intSize size = size := by
  simp only [intSize]
  omega

theorem intSize_le (size : ℕ) : intSize size ≤ size := by
  simp only [intSize]
  omega

theorem index_of_nonneg {fd : Int32} (h : 0 ≤ fd.toInt) : index fd = fd.toInt.toNat := by
  have := Int32.toInt_lt fd
  rw [index, Int.emod_eq_of_lt h (by omega)]

/-- A negative index is too large for every table of fewer than `2 ^ 32` elements. -/
theorem index_lt_iff {fd : Int32} {size : ℕ} (hsize : size < 2 ^ 32) : index fd < size ↔ 0 ≤ fd.toInt ∧ fd.toInt < size := by
  have hlower := Int32.le_toInt fd
  have hupper := Int32.toInt_lt fd
  simp only [index]
  omega

theorem index_injective {fd fd' : Int32} (h : 0 ≤ fd.toInt) (h' : 0 ≤ fd'.toInt) (heq : index fd = index fd') : fd = fd' := by
  rw [index_of_nonneg h, index_of_nonneg h'] at heq
  exact Int32.toInt_inj.1 (by omega)

end Slots
