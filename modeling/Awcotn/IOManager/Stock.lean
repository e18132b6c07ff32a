import Awcotn.IOManager.Handover
import Mathlib.Algebra.BigOperators.Group.Finset.Basic
import Mathlib.Algebra.Order.Group.Multiset
import Mathlib.Tactic.Abel

/-!
# The tasks in the event table

What the registered events hold, counted with multiplicity, and what each operation puts in and takes out.
-/

namespace Awcotn.IOManager

open Finset

variable {F C : Type*} {m m' : IOManager F C}

/-- The task of a cell whose bit is set. -/
def cellTask (cell : Bool × EventContext F C) : Multiset (Task F C) := if cell.1 then (cell.2.task.toList : List _) else 0

/-- The tasks of the registered events. -/
def stock (m : IOManager F C) : Multiset (Task F C) :=
  ∑ fd ∈ range m.fdContexts.length, (cellTask (m.cells (fd, .READ)) + cellTask (m.cells (fd, .WRITE)))

/-- What the run queues have been given. -/
def outbox (m : IOManager F C) : Multiset (Task F C) := (m.scheduled.map Prod.snd : List _)

/-- Where the table does not reach, nothing is registered. -/
theorem stock_eq_sum {n : ℕ} (h : m.fdContexts.length ≤ n) :
    m.stock = ∑ fd ∈ range n, (cellTask (m.cells (fd, .READ)) + cellTask (m.cells (fd, .WRITE))) := by
  refine sum_subset (range_subset_range.2 h) fun fd _ hfd => ?_
  have hout : m.fdContexts[fd]? = none := List.getElem?_eq_none (by simpa using hfd)
  simp [cellTask, cells, ctxAt, hout, FdContext.new, Events.has_empty]

theorem stock_of_cells (h : m'.cells = m.cells) : m'.stock = m.stock := by
  rw [stock_eq_sum (le_max_left m'.fdContexts.length m.fdContexts.length),
    stock_eq_sum (le_max_right m'.fdContexts.length m.fdContexts.length), h]

/-- One cell is replaced. -/
theorem stock_update {fd : ℕ} {event : Event} {cell : Bool × EventContext F C} (hne : event ≠ .NONE)
    (h : m'.cells = Function.update m.cells (fd, event) cell) :
    m'.stock + cellTask (m.cells (fd, event)) = m.stock + cellTask cell := by
  set n := max (max m.fdContexts.length m'.fdContexts.length) (fd + 1) with hn
  have hfd : fd ∈ range n := mem_range.2 (by omega)
  have hothers : ∀ other ∈ (range n).erase fd,
      cellTask (m'.cells (other, .READ)) + cellTask (m'.cells (other, .WRITE)) =
        cellTask (m.cells (other, .READ)) + cellTask (m.cells (other, .WRITE)) := by
    intro other hother
    have hdiff : ∀ e, (other, e) ≠ (fd, event) := fun e heq => ne_of_mem_erase hother (congrArg Prod.fst heq)
    rw [h, Function.update_of_ne (hdiff _), Function.update_of_ne (hdiff _)]
  have hself : cellTask (m'.cells (fd, .READ)) + cellTask (m'.cells (fd, .WRITE)) + cellTask (m.cells (fd, event)) =
      cellTask (m.cells (fd, .READ)) + cellTask (m.cells (fd, .WRITE)) + cellTask cell := by
    rw [h]
    cases event with
    | NONE => exact absurd rfl hne
    | READ =>
        rw [Function.update_self, Function.update_of_ne (by simp)]
        abel
    | WRITE =>
        rw [Function.update_self, Function.update_of_ne (by simp)]
        abel
  rw [stock_eq_sum (n := n) (by omega), stock_eq_sum (m := m) (n := n) (by omega), ← sum_erase_add _ _ hfd,
    ← sum_erase_add _ _ hfd, sum_congr rfl hothers, add_assoc, hself, ← add_assoc]

theorem outbox_append {entries : List (SchedulerId × Task F C)} (h : m'.scheduled = m.scheduled ++ entries) :
    m'.outbox = m.outbox + (entries.map Prod.snd : List _) := by
  rw [outbox, outbox, h, List.map_append, Multiset.coe_add]

/-- Whoever takes a registration hands its task over. -/
theorem Takes.stock {fd : ℕ} {event : Event} (h : Takes m m' fd event) :
    m'.stock + m'.outbox = m.stock + m.outbox := by
  obtain ⟨hhas, scheduler, -, hmoves⟩ := h
  have hupdate := stock_update (Events.ne_none_of_has hhas) hmoves.cells
  have hcell : cellTask (m.cells (fd, event)) = (((m.ctxAt fd).slot event).task.toList : List _) := by
    rw [cellTask, IOManager.cells, if_pos hhas]
  rw [hcell, cellTask, if_neg Bool.false_ne_true, add_zero] at hupdate
  rw [outbox_append hmoves.scheduled, List.map_map, ← hupdate]
  have hmap : ∀ l : List (Task F C), l.map (Prod.snd ∘ Prod.mk scheduler) = l := fun l => List.map_id l
  rw [hmap]
  abel

/-- Taking registrations moves their tasks into the run queues. -/
theorem Sheds.stock (h : Sheds m m') : m'.stock + m'.outbox = m.stock + m.outbox := by
  induction h with
  | same hcells hscheduled => rw [stock_of_cells hcells, outbox, outbox, hscheduled]
  | takes _ htakes ih => rw [htakes.stock, ih]

/-- A successful `addEvent` brings the caller's task. -/
theorem addEvent_stock {fd : ℕ} {event : Event} {cb : Option C} {caller : Caller F} {allow : Bool}
    {r : ℤ × IOManager F C} (h : m.addEvent fd event cb caller allow = .ok r) :
    r.2.stock = m.stock + (if r.1 = 0 then cellTask (true, filled cb caller) else 0) := by
  rcases addEvent_eq_ok h with ⟨hr, hsame, -⟩ | ⟨hr, hne, hempty, -, -, hmoves⟩
  · rw [if_neg (by omega), add_zero, stock_of_cells hsame.cells]
  · have hupdate := stock_update hne hmoves.cells
    rw [hempty, cellTask, if_neg Bool.false_ne_true, add_zero] at hupdate
    rw [if_pos hr]
    exact hupdate

/-- A successful `delEvent` throws the task of its event away. -/
theorem delEvent_stock {fd : ℕ} {event : Event} {allow : Bool} {r : Bool × IOManager F C}
    (h : m.delEvent fd event allow = .ok r) :
    r.2.stock + (if (r.2.cells (fd, event)).1 then 0 else cellTask (m.cells (fd, event))) = m.stock := by
  rcases delEvent_eq_ok h with ⟨rfl, -⟩ | ⟨-, hhas, -, hmoves⟩
  · rw [cellTask]
    split <;> exact add_zero _
  · have hupdate := stock_update (Events.ne_none_of_has hhas) hmoves.cells
    have hbit : (r.2.cells (fd, event)).1 = false := by rw [hmoves.cells, Function.update_self]
    rw [if_neg (by simp [hbit])]
    exact hupdate.trans (add_zero _)

/-- Nothing is held where nothing is registered. -/
theorem stock_eq_zero (h : ∀ fd event, (m.ctxAt fd).events.has event = false) : m.stock = 0 := by
  refine sum_eq_zero fun fd _ => ?_
  have hempty : ∀ event, cellTask (m.cells (fd, event)) = 0 := fun event => if_neg (by simp [IOManager.cells, h])
  rw [hempty, hempty, add_zero]

end Awcotn.IOManager
