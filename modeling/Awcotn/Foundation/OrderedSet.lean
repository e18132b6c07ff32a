import Mathlib.Data.List.Sort
import Mathlib.Order.RelClasses
import Mathlib.Tactic.Common

/-!
# Ordered sets as sorted lists

An ordered set that keeps its elements by the key a comparator sees is a strictly sorted list, and an iterator into it is a position, with the length of the list as the end. The four operations below are the searching and updating operations of such a set; they look at keys only, so what they do is unchanged when the key function changes away from the elements involved.
-/

namespace OrderedSet

variable {α κ : Type*} (lt : κ → κ → Prop) [DecidableRel lt] (key : α → κ)

/-- The position of the first element whose key is not before `k`. -/
def lowerBound (k : κ) (l : List α) : ℕ :=
  l.findIdx fun x => decide (¬ lt (key x) k)

/-- The position of the element whose key is equivalent to `k`, the end if there is none. -/
def find (k : κ) (l : List α) : ℕ :=
  match l[lowerBound lt key k l]? with
  | some x => if lt k (key x) then l.length else lowerBound lt key k l
  | none => l.length

/-- Insert an element at its place; an element with an equivalent key keeps its place instead. -/
def insert (x : α) : List α → List α
  | [] => [x]
  | y :: ys =>
    if lt (key x) (key y) then x :: y :: ys
    else if lt (key y) (key x) then y :: insert x ys
    else y :: ys

/-- The keys increase strictly along the list. -/
def Sorted (l : List α) : Prop :=
  l.Pairwise fun x y => lt (key x) (key y)

variable {lt key}

/-! ### Searching -/

theorem lowerBound_le_length (k : κ) (l : List α) : lowerBound lt key k l ≤ l.length :=
  List.findIdx_le_length

theorem lt_of_mem_take_lowerBound {k : κ} {l : List α} {x : α}
    (h : x ∈ l.take (lowerBound lt key k l)) : lt (key x) k := by
  obtain ⟨i, hi, rfl⟩ := List.mem_take_iff_getElem.1 h
  have hlt : i < lowerBound lt key k l := by omega
  simpa using List.not_of_lt_findIdx hlt

theorem not_lt_of_mem_drop_lowerBound [IsStrictTotalOrder κ lt] {k : κ} {l : List α} {x : α}
    (hsorted : Sorted lt key l) (h : x ∈ l.drop (lowerBound lt key k l)) : ¬ lt (key x) k := by
  obtain ⟨i, hi, rfl⟩ := List.mem_drop_iff_getElem.1 h
  have hlt : lowerBound lt key k l < l.length := by omega
  have hfirst : ¬ lt (key l[lowerBound lt key k l]) k := by
    have hfound := @List.findIdx_getElem _ (fun x => decide (¬ lt (key x) k)) l hlt
    simpa [lowerBound] using hfound
  rcases Nat.eq_zero_or_pos i with rfl | hpos
  · simpa using hfirst
  · intro hlt
    have hbefore := List.pairwise_iff_getElem.1 hsorted (lowerBound lt key k l)
      (lowerBound lt key k l + i) (by omega) (by omega) (by omega)
    exact hfirst (trans_of lt hbefore hlt)

/-- A search for the key of an element finds that element. -/
theorem getElem?_find [IsStrictTotalOrder κ lt] {l : List α} {x : α} (hsorted : Sorted lt key l) (hx : x ∈ l) :
    l[find lt key (key x) l]? = some x := by
  have hexists : ∃ y ∈ l, decide (¬ lt (key y) (key x)) = true :=
    ⟨x, hx, by simpa using irrefl_of lt (key x)⟩
  have hlt : lowerBound lt key (key x) l < l.length := List.findIdx_lt_length_of_exists hexists
  have hnot : ¬ lt (key l[lowerBound lt key (key x) l]) (key x) := by
    have hfound := @List.findIdx_getElem _ (fun y => decide (¬ lt (key y) (key x))) l hlt
    simpa [lowerBound] using hfound
  have hat : l[lowerBound lt key (key x) l] = x := by
    obtain ⟨i, hi, hxi⟩ := List.getElem_of_mem hx
    rcases Nat.lt_trichotomy (lowerBound lt key (key x) l) i with hbefore | heq | hafter
    · have := List.pairwise_iff_getElem.1 hsorted _ i hlt hi hbefore
      rw [hxi] at this
      exact absurd this hnot
    · subst heq
      exact hxi
    · have := List.not_of_lt_findIdx hafter
      rw [hxi] at this
      simp [irrefl_of lt (key x)] at this
  have hfind : find lt key (key x) l = lowerBound lt key (key x) l := by
    simp only [find, List.getElem?_eq_getElem hlt, hat, if_neg (irrefl_of lt (key x))]
  rw [hfind, List.getElem?_eq_getElem hlt, hat]

theorem find_lt_length [IsStrictTotalOrder κ lt] {l : List α} {x : α} (hsorted : Sorted lt key l)
    (hx : x ∈ l) : find lt key (key x) l < l.length :=
  (List.getElem?_eq_some_iff.1 (getElem?_find hsorted hx)).1

/-- A search that finds something finds an element with an equivalent key. -/
theorem key_of_find_lt_length [IsStrictTotalOrder κ lt] {k : κ} {l : List α}
    (h : find lt key k l < l.length) : ∃ x ∈ l, key x = k := by
  cases hat : l[lowerBound lt key k l]? with
  | none => simp only [find, hat, lt_irrefl] at h
  | some x =>
      simp only [find, hat] at h
      split at h
      · omega
      · rename_i hnot
        have hmem := List.mem_of_getElem? hat
        have hother : ¬ lt (key x) k := by
          have := List.findIdx_of_getElem?_eq_some hat
          simpa using this
        rcases trichotomous_of lt (key x) k with hlt | heq | hgt
        · exact absurd hlt hother
        · exact ⟨x, hmem, heq⟩
        · exact absurd hgt hnot

omit [DecidableRel lt] in
theorem Sorted.nodup [IsStrictTotalOrder κ lt] {l : List α} (h : Sorted lt key l) : l.Nodup :=
  List.Pairwise.imp (fun {a b} (hab : lt (key a) (key b)) heq => by
    subst heq
    exact irrefl_of lt (key a) hab) h

theorem Sorted.key_injective [IsStrictTotalOrder κ lt] {l : List α} (h : Sorted lt key l) {x y : α}
    (hx : x ∈ l) (hy : y ∈ l) (heq : key x = key y) : x = y := by
  have hfx := getElem?_find h hx
  rw [heq, getElem?_find h hy] at hfx
  exact (Option.some.inj hfx).symm

omit [DecidableRel lt] in
theorem sorted_eraseIdx {l : List α} (h : Sorted lt key l) (i : ℕ) : Sorted lt key (l.eraseIdx i) :=
  h.sublist (List.eraseIdx_sublist l i)

/-- Erasing what a search found removes exactly the element searched for. -/
theorem mem_eraseIdx_find [IsStrictTotalOrder κ lt] {l : List α} {x y : α} (hsorted : Sorted lt key l)
    (hx : x ∈ l) : y ∈ l.eraseIdx (find lt key (key x) l) ↔ y ∈ l ∧ y ≠ x := by
  have hat := getElem?_find hsorted hx
  obtain ⟨hlt, hget⟩ := List.getElem?_eq_some_iff.1 hat
  rw [List.mem_eraseIdx_iff_getElem?]
  constructor
  · rintro ⟨i, hne, hi⟩
    refine ⟨List.mem_of_getElem? hi, ?_⟩
    rintro rfl
    obtain ⟨hi', hgi⟩ := List.getElem?_eq_some_iff.1 hi
    exact hne ((List.Nodup.getElem_inj_iff hsorted.nodup).1 (hgi.trans hget.symm))
  · rintro ⟨hy, hne⟩
    obtain ⟨i, hi, rfl⟩ := List.getElem_of_mem hy
    refine ⟨i, ?_, List.getElem?_eq_getElem hi⟩
    rintro rfl
    exact hne hget

/-! ### Inserting -/

theorem mem_insert_imp {x y : α} {l : List α} (h : y ∈ insert lt key x l) : y = x ∨ y ∈ l := by
  induction l with
  | nil => simpa [insert] using h
  | cons z zs ih =>
      simp only [insert] at h
      split_ifs at h
      · simpa using h
      · rcases List.mem_cons.1 h with rfl | h
        · simp
        · rcases ih h with rfl | h <;> simp [*]
      · exact .inr h

/-- Inserting a new key adds one element. -/
theorem insert_perm [IsStrictTotalOrder κ lt] {x : α} {l : List α} (hnew : ∀ y ∈ l, key y ≠ key x) :
    (insert lt key x l).Perm (x :: l) := by
  induction l with
  | nil => exact .refl _
  | cons z zs ih =>
      simp only [insert]
      split_ifs with hxz hzx
      · exact .refl _
      · exact ((ih fun y hy => hnew y (List.mem_cons_of_mem _ hy)).cons z).trans (.swap x z zs)
      · rcases trichotomous_of lt (key x) (key z) with h | h | h
        · exact absurd h hxz
        · exact absurd h.symm (hnew z List.mem_cons_self)
        · exact absurd h hzx

theorem mem_insert [IsStrictTotalOrder κ lt] {x y : α} {l : List α} (hnew : ∀ y ∈ l, key y ≠ key x) :
    y ∈ insert lt key x l ↔ y = x ∨ y ∈ l := by
  rw [(insert_perm hnew).mem_iff, List.mem_cons]

theorem sorted_insert [IsStrictTotalOrder κ lt] {x : α} {l : List α} (h : Sorted lt key l) :
    Sorted lt key (insert lt key x l) := by
  induction l with
  | nil => simp [insert, Sorted]
  | cons z zs ih =>
      obtain ⟨hz, hzs⟩ := List.pairwise_cons.1 h
      simp only [insert]
      split_ifs with hxz hzx
      · refine List.pairwise_cons.2 ⟨fun y hy => ?_, h⟩
        rcases List.mem_cons.1 hy with rfl | hy
        · exact hxz
        · exact trans_of lt hxz (hz y hy)
      · refine List.pairwise_cons.2 ⟨fun y hy => ?_, ih hzs⟩
        rcases mem_insert_imp hy with rfl | hy
        · exact hzx
        · exact hz y hy
      · exact h

/-- An element behind all others goes to the end. -/
theorem insert_of_last [IsStrictTotalOrder κ lt] {x : α} {l : List α} (h : ∀ y ∈ l, lt (key y) (key x)) :
    insert lt key x l = l ++ [x] := by
  induction l with
  | nil => rfl
  | cons z zs ih =>
      have hz := h z List.mem_cons_self
      have hnot : ¬ lt (key x) (key z) := fun hxz => irrefl_of lt (key x) (trans_of lt hxz hz)
      rw [insert, if_neg hnot, if_pos hz, ih fun y hy => h y (List.mem_cons_of_mem z hy), List.cons_append]

/-- Elements that are inserted in their order, behind all others, are appended. -/
theorem foldl_insert_of_sorted [IsStrictTotalOrder κ lt] {xs l : List α} (h : Sorted lt key (l ++ xs)) :
    xs.foldl (fun l x => insert lt key x l) l = l ++ xs := by
  induction xs generalizing l with
  | nil => simp
  | cons x xs ih =>
      have hlast : ∀ y ∈ l, lt (key y) (key x) := fun y hy => (List.pairwise_append.1 h).2.2 y hy x List.mem_cons_self
      rw [List.foldl_cons, insert_of_last hlast, ih (by simpa using h), List.append_assoc, List.singleton_append]

/-- The elements of a list with distinct keys, inserted one after another, are the same elements in order. -/
theorem foldr_insert_perm [IsStrictTotalOrder κ lt] {l : List α} (hnodup : (l.map key).Nodup) :
    (l.foldr (insert lt key) []).Perm l := by
  induction l with
  | nil => exact .refl _
  | cons x l ih =>
      obtain ⟨hx, hnodup⟩ := List.nodup_cons.1 hnodup
      have hperm := ih hnodup
      refine (insert_perm fun y hy heq => ?_).trans (hperm.cons x)
      exact hx (heq ▸ List.mem_map_of_mem (hperm.mem_iff.1 hy))

theorem sorted_foldr_insert [IsStrictTotalOrder κ lt] (l : List α) : Sorted lt key (l.foldr (insert lt key) []) := by
  induction l with
  | nil => exact List.Pairwise.nil
  | cons x l ih => exact sorted_insert ih

/-! ### Changing keys away from the set -/

omit [DecidableRel lt] in
theorem sorted_congr {key' : α → κ} {l : List α} (hkey : ∀ x ∈ l, key' x = key x) :
    Sorted lt key' l ↔ Sorted lt key l := by
  constructor
  · exact fun h => h.imp_of_mem fun {x y} hx hy hxy => by rwa [hkey x hx, hkey y hy] at hxy
  · exact fun h => h.imp_of_mem fun {x y} hx hy hxy => by rwa [hkey x hx, hkey y hy]

end OrderedSet
