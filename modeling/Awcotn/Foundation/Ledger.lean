import Mathlib.Data.List.Basic
import Mathlib.Logic.Function.Basic
import Mathlib.Tactic.Common

/-!
# Ledgers of parked items

A store parks items under keys, one item a key at a time. Later an item is dropped, or it is delivered, which appends it to an outgoing list. The ledger keeps one record for each item ever parked and numbers items by their place in it. A store is balanced with its ledger if it holds exactly the pending items and its outgoing list has each delivered item once and no other. `Balanced.park`, `Balanced.drop` and `Balanced.deliver` say that the three operations keep the balance, so a system whose steps are made of them delivers every item at most once.
-/

namespace Ledger

/-- What has become of a parked item. -/
inductive Fate
  | pending
  | dropped
  | delivered
  deriving DecidableEq

structure Record (κ τ : Type*) where
  key : κ
  item : τ
  fate : Fate
  deriving DecidableEq

variable {κ τ : Type*}

/-- The records after the pending items of some keys have met a fate. -/
def settle (gone : κ → Bool) (fate : Fate) (records : List (Record κ τ)) : List (Record κ τ) :=
  records.map fun r => if r.fate = .pending ∧ gone r.key then { r with fate := fate } else r

/-- What the outgoing list must have of an item. -/
def owed (id : ℕ) : Option (Record κ τ) → List (ℕ × τ)
  | some ⟨_, item, .delivered⟩ => [(id, item)]
  | _ => []

/-- The store holds the pending items and has sent out each delivered item once. -/
structure Balanced (records : List (Record κ τ)) (held : κ → Option (ℕ × τ)) (out : List (ℕ × τ)) : Prop where
  held_iff : ∀ k id item, held k = some (id, item) ↔ records[id]? = some ⟨k, item, .pending⟩
  out_eq : ∀ id, (out.filter fun entry => entry.1 = id) = owed id records[id]?

/-! ### Records -/

theorem getElem?_settle (gone : κ → Bool) (fate : Fate) (records : List (Record κ τ)) (id : ℕ) :
    (settle gone fate records)[id]? =
      records[id]?.map fun r => if r.fate = .pending ∧ gone r.key then { r with fate := fate } else r :=
  List.getElem?_map ..

theorem settle_settle {gone gone' : κ → Bool} {fate : Fate} (hfate : fate ≠ .pending) (records : List (Record κ τ)) :
    settle gone' fate (settle gone fate records) = settle (fun k => gone k || gone' k) fate records := by
  simp only [settle, List.map_map]
  refine List.map_congr_left fun r _ => ?_
  by_cases hpending : r.fate = .pending <;> by_cases hgone : gone r.key <;> simp [hpending, hgone, hfate]

/-- Only the keys under which an item is pending matter. -/
theorem settle_congr {gone g : κ → Bool} {fate : Fate} {records : List (Record κ τ)}
    (h : ∀ r ∈ records, r.fate = .pending → gone r.key = g r.key) :
    settle gone fate records = settle g fate records := by
  refine List.map_congr_left fun r hr => ?_
  by_cases hpending : r.fate = .pending
  · rw [h r hr hpending]
  · simp [hpending]

theorem settle_eq_self {gone : κ → Bool} {fate : Fate} {records : List (Record κ τ)}
    (h : ∀ r ∈ records, r.fate = .pending → gone r.key = false) : settle gone fate records = records := by
  conv_rhs => rw [← List.map_id records]
  refine List.map_congr_left fun r hr => ?_
  by_cases hpending : r.fate = .pending
  · simp [h r hr hpending]
  · simp [hpending]

/-! ### Operations on a balanced store -/

variable {records : List (Record κ τ)} {held : κ → Option (ℕ × τ)} {out : List (ℕ × τ)}

theorem Balanced.empty : Balanced ([] : List (Record κ τ)) (fun _ => none) [] :=
  ⟨by simp, by simp [owed]⟩

/-- The key of a pending record holds something. -/
theorem Balanced.isSome_held (h : Balanced records held out) {r : Record κ τ} (hr : r ∈ records)
    (hpending : r.fate = .pending) : (held r.key).isSome := by
  obtain ⟨id, hid⟩ := List.mem_iff_getElem?.1 hr
  obtain ⟨k, item, fate⟩ := r
  obtain rfl : fate = .pending := hpending
  rw [(h.held_iff k id item).2 hid]
  rfl

variable [DecidableEq κ]

/-- Park an item under a free key. -/
theorem Balanced.park (h : Balanced records held out) {k : κ} (hfree : held k = none) (item : τ) :
    Balanced (records ++ [⟨k, item, .pending⟩]) (Function.update held k (some (records.length, item))) out := by
  have hold : ∀ id, id ≠ records.length → (records ++ [⟨k, item, .pending⟩])[id]? = records[id]? := by
    intro id hne
    rcases Nat.lt_or_gt_of_ne hne with hlt | hgt
    · exact List.getElem?_append_left hlt
    · have hlength : (records ++ [(⟨k, item, .pending⟩ : Record κ τ)]).length = records.length + 1 := by simp
      rw [List.getElem?_eq_none (by omega), List.getElem?_eq_none (by omega)]
  have hnew : (records ++ [(⟨k, item, .pending⟩ : Record κ τ)])[records.length]? = some ⟨k, item, .pending⟩ := by simp
  have hend : records[records.length]? = none := List.getElem?_eq_none (Nat.le_refl _)
  refine ⟨fun k' id item' => ?_, fun id => ?_⟩
  · by_cases hid : id = records.length
    · subst hid
      rw [hnew]
      by_cases hk : k' = k
      · subst hk
        simp
      · have := h.held_iff k' records.length item'
        rw [hend] at this
        rw [Function.update_of_ne hk, this]
        simp [Ne.symm hk]
    · rw [hold id hid, ← h.held_iff]
      by_cases hk : k' = k
      · subst hk
        rw [Function.update_self, hfree]
        simp [Ne.symm hid]
      · rw [Function.update_of_ne hk]
  · rw [h.out_eq]
    by_cases hid : id = records.length
    · subst hid
      rw [hnew, hend]
      rfl
    · rw [hold id hid]

/-- Settling the item under one key changes at most one record. -/
private theorem getElem?_settle_key (h : Balanced records held out) (k : κ) (fate : Fate) (id : ℕ) :
    (settle (fun k' => decide (k' = k)) fate records)[id]? = match held k with
      | some (id', item) => if id = id' then some ⟨k, item, fate⟩ else records[id]?
      | none => records[id]? := by
  have hothers : ∀ item, records[id]? = some ⟨k, item, .pending⟩ ↔ held k = some (id, item) :=
    fun item => (h.held_iff k id item).symm
  rw [getElem?_settle]
  cases hrecord : records[id]? with
  | none =>
      cases hheld : held k with
      | none => rfl
      | some entry =>
          have hne : id ≠ entry.1 := by
            rintro rfl
            rw [(h.held_iff k entry.1 entry.2).1 hheld] at hrecord
            cases hrecord
          simp [hne]
  | some r =>
      obtain ⟨k', item, fate'⟩ := r
      by_cases hmatch : fate' = .pending ∧ k' = k
      · obtain ⟨rfl, rfl⟩ := hmatch
        simp [(hothers item).1 hrecord]
      · have hunchanged : ¬ (fate' = .pending ∧ decide (k' = k) = true) := by simpa using hmatch
        simp only [Option.map_some, if_neg hunchanged]
        cases hheld : held k with
        | none => rfl
        | some entry =>
            have hne : id ≠ entry.1 := by
              rintro rfl
              have := (h.held_iff k entry.1 entry.2).1 hheld
              rw [hrecord] at this
              cases this
              exact hmatch ⟨rfl, rfl⟩
            simp [hne]

private theorem held_iff_settle (h : Balanced records held out) (k : κ) {fate : Fate} (hfate : fate ≠ .pending)
    (k' : κ) (id : ℕ) (item : τ) : Function.update held k none k' = some (id, item) ↔
      (settle (fun k' => decide (k' = k)) fate records)[id]? = some ⟨k', item, .pending⟩ := by
  rw [getElem?_settle_key h]
  by_cases hk : k' = k
  · subst hk
    rw [Function.update_self]
    cases hheld : held k' with
    | none => rw [← h.held_iff, hheld]
    | some entry =>
        by_cases hid : id = entry.1
        · simp [hid, hfate]
        · simp only [if_neg hid, ← h.held_iff, hheld, Option.some.injEq, false_iff, reduceCtorEq]
          rintro rfl
          exact hid rfl
  · rw [Function.update_of_ne hk, h.held_iff]
    cases hheld : held k with
    | none => rfl
    | some entry =>
        by_cases hid : id = entry.1
        · have := (h.held_iff k entry.1 entry.2).1 hheld
          simp [hid, this, Ne.symm hk]
        · simp only [if_neg hid]

/-- Drop what is parked under a key. -/
theorem Balanced.drop (h : Balanced records held out) (k : κ) :
    Balanced (settle (fun k' => decide (k' = k)) .dropped records) (Function.update held k none) out := by
  refine ⟨held_iff_settle h k (by simp), fun id => ?_⟩
  rw [getElem?_settle_key h, h.out_eq]
  cases hheld : held k with
  | none => rfl
  | some entry =>
      by_cases hid : id = entry.1
      · simp [hid, owed, (h.held_iff k entry.1 entry.2).1 hheld]
      · simp only [if_neg hid]

/-- Deliver what is parked under a key. -/
theorem Balanced.deliver (h : Balanced records held out) (k : κ) :
    Balanced (settle (fun k' => decide (k' = k)) .delivered records) (Function.update held k none)
      (out ++ (held k).toList) := by
  refine ⟨held_iff_settle h k (by simp), fun id => ?_⟩
  rw [getElem?_settle_key h, List.filter_append, h.out_eq]
  cases hheld : held k with
  | none => simp
  | some entry =>
      by_cases hid : id = entry.1
      · simp [hid, owed, (h.held_iff k entry.1 entry.2).1 hheld]
      · simp [hid, Ne.symm hid]

end Ledger
