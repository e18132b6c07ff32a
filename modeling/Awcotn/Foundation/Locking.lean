import Awcotn.Foundation.Run
import Mathlib.Computability.RegularExpressions
import Mathlib.Algebra.BigOperators.Group.Finset.Basic
import Mathlib.Algebra.Order.BigOperators.Group.Finset
import Mathlib.Data.List.Basic
import Mathlib.Logic.Function.Basic
import Mathlib.Tactic.Common

/-!
# Locks in an order

Threads that acquire and release locks, each along a trace of its own. A lock is held by any number of threads that share it or by one thread alone. If a thread only asks for locks that come after all it holds, in some order of the locks with bounded ranks, no set of threads ever waits in a circle: `free_of_run` says that where some thread is not done, one of those that are not has its next lock to itself or is about to release one. It does not need to share, so it also holds where a lock makes readers wait for a waiting writer.

What a function does with locks is a regular expression over these events: which way a branch goes and how often a loop is taken is left open. A function holds a lock for the length of a block, so that its expression is put together with `block`, and `Orderly` is what it has to show: `Orderly.block`, `Orderly.mul`, `Orderly.add` and `Orderly.star` put functions together.
-/

namespace Locking

open Transition

/-- Whether a lock is held together with others. -/
inductive Mode
  | shared
  | exclusive
  deriving DecidableEq

/-- An event of a thread. -/
inductive Event (K : Type*)
  | acquire (k : K) (mode : Mode)
  | release (k : K)
  deriving DecidableEq

/-- The trace of a function. -/
abbrev Trace (K : Type*) := List (Event K)

/-- What each thread holds, the latest first, and what is left of its trace. -/
structure State (T K : Type*) where
  held : T → List (K × Mode)
  rest : T → Trace K

variable {T K : Type*}

/-- A lock around a block. -/
def block (k : K) (mode : Mode) (inner : RegularExpression (Event K)) : RegularExpression (Event K) :=
  .char (.acquire k mode) * inner * .char (.release k)

/-- Functions called one after another. -/
def seq : List (RegularExpression (Event K)) → RegularExpression (Event K)
  | [] => 1
  | e :: es => e * seq es

/-- The threads before they have begun. -/
def start (traces : T → Trace K) : State T K := { held := fun _ => [], rest := traces }

/-- A thread may have the lock: nobody else holds it, or only together with others. -/
def Admits (s : State T K) (t : T) (k : K) (mode : Mode) : Prop :=
  ∀ u, u ≠ t → ∀ mode', (k, mode') ∈ s.held u → mode = .shared ∧ mode' = .shared

open scoped Classical in
/-- The next event of a thread. -/
noncomputable def step (s : State T K) (t : T) : Outcome Empty (State T K) :=
  match s.rest t with
  | [] => .disabled
  | .acquire k mode :: rest =>
    if Admits s t k mode then
      .next { held := Function.update s.held t ((k, mode) :: s.held t), rest := Function.update s.rest t rest }
    else .disabled
  | .release k :: rest =>
    .next { held := Function.update s.held t ((s.held t).eraseP fun h => h.1 = k), rest := Function.update s.rest t rest }

section

variable (rank : K → ℕ)

/-- A trace that asks for locks after those held and ends with none. -/
def Ordered : List (K × Mode) → Trace K → Prop
  | held, [] => held = []
  | held, .acquire k mode :: rest => (∀ h ∈ held, rank h.1 < rank k) ∧ Ordered ((k, mode) :: held) rest
  | [], .release _ :: _ => False
  | h :: held, .release k :: rest => h.1 = k ∧ Ordered held rest

/-- A trace that releases what it acquires, and acquires only locks of a rank above `r`. -/
def Above (r : ℕ) (trace : Trace K) : Prop :=
  ∀ held rest, (∀ h ∈ held, rank h.1 ≤ r) → Ordered rank held rest → Ordered rank held (trace ++ rest)

/-- A function all of whose traces are such. -/
def Orderly (r : ℕ) (e : RegularExpression (Event K)) : Prop := ∀ trace ∈ e.matches', Above rank r trace

end

variable {rank : K → ℕ}

/-! ### Functions -/

namespace Above

variable {r : ℕ} {trace trace' : Trace K}

theorem nil (r : ℕ) : Above rank r ([] : Trace K) := fun _ _ _ h => h

theorem append (h : Above rank r trace) (h' : Above rank r trace') : Above rank r (trace ++ trace') := by
  intro held rest hheld hrest
  rw [List.append_assoc]
  exact h held _ hheld (h' held rest hheld hrest)

/-- A block in which only later locks are taken. -/
theorem block {k : K} (h : Above rank (rank k) trace) (hr : r < rank k) (mode : Mode) :
    Above rank r (.acquire k mode :: (trace ++ [.release k])) := by
  intro held rest hheld hrest
  have hlt : ∀ l ∈ held, rank l.1 < rank k := fun l hl => (hheld l hl).trans_lt hr
  refine ⟨hlt, ?_⟩
  change Ordered rank ((k, mode) :: held) (trace ++ [.release k] ++ rest)
  rw [List.append_assoc]
  refine h _ _ (fun l hl => ?_) ⟨rfl, hrest⟩
  rcases List.mem_cons.1 hl with rfl | hl
  · exact le_rfl
  · exact (hlt l hl).le

theorem flatten {traces : List (Trace K)} (h : ∀ trace ∈ traces, Above rank r trace) : Above rank r traces.flatten := by
  induction traces with
  | nil => exact nil r
  | cons trace traces ih =>
      rw [List.flatten_cons]
      exact (h trace List.mem_cons_self).append (ih fun trace' ht => h trace' (List.mem_cons_of_mem _ ht))

end Above

namespace Orderly

variable {r : ℕ} {e e' : RegularExpression (Event K)}

theorem one (r : ℕ) : Orderly rank r (1 : RegularExpression (Event K)) := by
  intro trace htrace
  obtain rfl : trace = [] := htrace
  exact Above.nil r

theorem add (h : Orderly rank r e) (h' : Orderly rank r e') : Orderly rank r (e + e') := by
  intro trace htrace
  rcases htrace with htrace | htrace
  · exact h trace htrace
  · exact h' trace htrace

theorem opt (h : Orderly rank r e) : Orderly rank r (1 + e) := (one r).add h

theorem mul (h : Orderly rank r e) (h' : Orderly rank r e') : Orderly rank r (e * e') := by
  intro trace htrace
  obtain ⟨a, ha, b, hb, rfl⟩ := Language.mem_mul.1 htrace
  exact (h a ha).append (h' b hb)

theorem star (h : Orderly rank r e) : Orderly rank r e.star := by
  intro trace htrace
  obtain ⟨traces, rfl, htraces⟩ := Language.mem_kstar.1 htrace
  exact Above.flatten fun trace' ht => h trace' (htraces trace' ht)

theorem block {k : K} (h : Orderly rank (rank k) e) (hr : r < rank k) (mode : Mode) : Orderly rank r (Locking.block k mode e) := by
  intro trace htrace
  obtain ⟨a, ha, c, hc, rfl⟩ := Language.mem_mul.1 htrace
  obtain ⟨a', ha', b, hb, rfl⟩ := Language.mem_mul.1 ha
  obtain rfl : a' = [.acquire k mode] := ha'
  obtain rfl : c = [.release k] := hc
  exact (h b hb).block hr mode

/-- A block in which no lock is taken. -/
theorem leaf {k : K} (hr : r < rank k) (mode : Mode) : Orderly rank r (Locking.block k mode 1) := (one _).block hr mode

theorem seq {es : List (RegularExpression (Event K))} (h : ∀ e ∈ es, Orderly rank r e) : Orderly rank r (Locking.seq es) := by
  induction es with
  | nil => exact one r
  | cons e es ih => exact (h e List.mem_cons_self).mul (ih fun e' he => h e' (List.mem_cons_of_mem _ he))

/-- The same function for each member of a list, one after another. -/
theorem seq_map {α : Type*} {f : α → RegularExpression (Event K)} {xs : List α} (h : ∀ x ∈ xs, Orderly rank r (f x)) :
    Orderly rank r (Locking.seq (xs.map f)) := by
  refine seq fun e he => ?_
  obtain ⟨x, hx, rfl⟩ := List.mem_map.1 he
  exact h x hx

end Orderly

/-! ### Threads -/

/-- Every thread has an ordered trace before it. -/
def AllOrdered (rank : K → ℕ) (s : State T K) : Prop := ∀ t, Ordered rank (s.held t) (s.rest t)

theorem start_ordered {traces : T → Trace K} {r : ℕ} (h : ∀ t, Above rank r (traces t)) : AllOrdered rank (start traces) := by
  intro t
  have hall := h t [] [] (by simp) rfl
  rwa [List.append_nil] at hall

theorem step_ordered {s s' : State T K} {t : T} (hs : AllOrdered rank s) (hstep : step s t = .next s') : AllOrdered rank s' := by
  have ht := hs t
  simp only [step] at hstep
  split at hstep
  · cases hstep
  · rename_i k mode rest hrest
    split_ifs at hstep with hadmits
    cases hstep
    rw [hrest] at ht
    intro u
    by_cases hu : u = t
    · subst hu
      simpa using ht.2
    · simpa [hu] using hs u
  · rename_i k rest hrest
    cases hstep
    rw [hrest] at ht
    intro u
    by_cases hu : u = t
    · subst hu
      cases hheld : s.held u with
      | nil =>
          rw [hheld] at ht
          exact ht.elim
      | cons h held =>
          rw [hheld] at ht
          simpa [hheld, ht.1] using ht.2
    · simpa [hu] using hs u

/-- Nobody else has the next lock of a thread, or the thread is about to release one. -/
def Free (s : State T K) (t : T) : Prop :=
  match s.rest t with
  | [] => False
  | .acquire k _ :: _ => ∀ u, u ≠ t → ∀ mode, (k, mode) ∉ s.held u
  | .release _ :: _ => True

theorem exists_step_of_free {s : State T K} {t : T} (h : Free s t) : ∃ s', step s t = .next s' := by
  simp only [Free] at h
  simp only [step]
  split at h
  · exact h.elim
  · rename_i k mode rest hrest
    have hadmits : Admits s t k mode := fun u hu mode' hmem => absurd hmem (h u hu mode')
    simp only [if_pos hadmits]
    exact ⟨_, rfl⟩
  · exact ⟨_, rfl⟩

/-- The rank a thread waits at, when it is not free. -/
theorem waits_below {s : State T K} (hs : AllOrdered rank s) {t : T} (hne : s.rest t ≠ []) (hfree : ¬ Free s t) :
    ∃ k mode rest u, s.rest t = .acquire k mode :: rest ∧ s.rest u ≠ [] ∧ ∃ mode', (k, mode') ∈ s.held u := by
  simp only [Free] at hfree
  split at hfree
  · rename_i hnil
    exact absurd hnil hne
  · rename_i k mode rest hrest
    simp only [not_forall, not_not] at hfree
    obtain ⟨u, -, mode', hmem⟩ := hfree
    refine ⟨k, mode, rest, u, hrest, ?_, mode', hmem⟩
    intro hnil
    have hu := hs u
    rw [hnil] at hu
    have hempty : s.held u = [] := hu
    rw [hempty] at hmem
    cases hmem
  · exact absurd trivial hfree

/-- Among threads in order that are not done, one that waits for a lock of the highest rank cannot wait for another that waits. -/
theorem exists_free {s : State T K} (hs : AllOrdered rank s) {bound : ℕ} (hbound : ∀ k, rank k ≤ bound) {t : T}
    (hne : s.rest t ≠ []) : ∃ u, s.rest u ≠ [] ∧ Free s u := by
  by_contra hnone
  have hnone : ∀ u, s.rest u ≠ [] → ¬ Free s u := fun u hu hfree => hnone ⟨u, hu, hfree⟩
  -- from a thread that waits at some rank, one that waits at a higher rank is reached
  have hclimb : ∀ n, ∃ u k mode rest, s.rest u = .acquire k mode :: rest ∧ n ≤ rank k := by
    intro n
    induction n with
    | zero =>
        obtain ⟨k, mode, rest, -, hrest, -⟩ := waits_below hs hne (hnone t hne)
        exact ⟨t, k, mode, rest, hrest, Nat.zero_le _⟩
    | succ n ih =>
        obtain ⟨u, k, mode, rest, hrest, hle⟩ := ih
        have hu : s.rest u ≠ [] := by simp [hrest]
        obtain ⟨k', mode', rest', v, hrest', hv, mode'', hmem⟩ := waits_below hs hu (hnone u hu)
        rw [hrest] at hrest'
        cases hrest'
        obtain ⟨l, lmode, lrest, -, hlrest, -⟩ := waits_below hs hv (hnone v hv)
        have hord := hs v
        rw [hlrest] at hord
        exact ⟨v, l, lmode, lrest, hlrest, Nat.lt_of_le_of_lt hle (hord.1 _ hmem)⟩
  obtain ⟨u, k, mode, rest, -, hle⟩ := hclimb (bound + 1)
  have hk := hbound k
  omega

/-- What is left of the traces is shorter after a step. -/
theorem step_rest {s s' : State T K} {t : T} (hstep : step s t = .next s') :
    (∀ u, (s'.rest u).length ≤ (s.rest u).length) ∧ (s'.rest t).length < (s.rest t).length := by
  classical
  have hrest : ∃ event rest, s.rest t = event :: rest ∧ s'.rest = Function.update s.rest t rest := by
    simp only [step] at hstep
    split at hstep
    · cases hstep
    · rename_i k mode rest hrest
      split_ifs at hstep
      cases hstep
      exact ⟨_, rest, hrest, rfl⟩
    · rename_i k rest hrest
      cases hstep
      exact ⟨_, rest, hrest, rfl⟩
  obtain ⟨event, rest, hrest, hrest'⟩ := hrest
  refine ⟨fun u => ?_, by simp [hrest, hrest']⟩
  rw [hrest']
  by_cases hu : u = t
  · subst hu
    simp [hrest]
  · simp [hu]

/-- Finitely many threads can always all be brought to their ends, where they hold nothing. -/
theorem exists_completion [Fintype T] {s : State T K} (hs : AllOrdered rank s) {bound : ℕ} (hbound : ∀ k, rank k ≤ bound) :
    ∃ acts s', run step s acts = .next s' ∧ ∀ t, s'.rest t = [] ∧ s'.held t = [] := by
  induction hn : ∑ t, (s.rest t).length using Nat.strong_induction_on generalizing s with
  | _ n ih =>
      by_cases hdone : ∀ t, s.rest t = []
      · refine ⟨[], s, rfl, fun t => ⟨hdone t, ?_⟩⟩
        have ht := hs t
        rw [hdone t] at ht
        exact ht
      · obtain ⟨t, hne⟩ := not_forall.1 hdone
        obtain ⟨u, -, hfree⟩ := exists_free hs hbound hne
        obtain ⟨s', hstep⟩ := exists_step_of_free hfree
        obtain ⟨hle, hlt⟩ := step_rest hstep
        have hsum : ∑ t, (s'.rest t).length < n := by
          rw [← hn]
          exact Finset.sum_lt_sum (fun v _ => hle v) ⟨u, Finset.mem_univ u, hlt⟩
        obtain ⟨acts, s'', hrun, hend⟩ := ih _ hsum (step_ordered hs hstep) rfl
        exact ⟨u :: acts, s'', by rw [run_cons_of_next acts hstep, hrun], hend⟩

section

variable {traces : T → Trace K} {r bound : ℕ}

theorem run_ordered (h : ∀ t, Above rank r (traces t)) (acts : List T) : Throughout step (AllOrdered rank) (start traces) acts :=
  throughout_of_step (fun _ _ _ hs hstep => step_ordered hs hstep) (start_ordered h) acts

/-- Threads whose traces are in order never wait for each other in a circle: in every state of every run in which some thread is not done, one that is not done can take its next step, and does not even have to share a lock for it. So they can all be brought to their ends. -/
theorem free_of_run [Fintype T] (h : ∀ t, Above rank r (traces t)) (hbound : ∀ k, rank k ≤ bound) (acts : List T) :
    Throughout step (fun s => ((∃ t, s.rest t ≠ []) → ∃ t, s.rest t ≠ [] ∧ Free s t) ∧
      ∃ more s', run step s more = .next s' ∧ ∀ t, s'.rest t = [] ∧ s'.held t = []) (start traces) acts := by
  refine (run_ordered h acts).mono fun s hs => ⟨?_, exists_completion hs hbound⟩
  rintro ⟨t, hne⟩
  exact exists_free hs hbound hne

end

end Locking
