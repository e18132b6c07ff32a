import Mathlib.Data.List.Infix
import Mathlib.Tactic.Common

/-!
# Runs of a step function

A system is a step function from a state and an action to an outcome. The action carries every choice the environment makes, so the step itself is a function and a concrete run can be evaluated. A step has three outcomes: the next state, an abort that ends the process for a reason of type `ε`, or a refusal because the action is not enabled.

A claim about a system is usually one of two shapes: something holds in every state of a run, or something relates any two moments of it. `Throughout` and `Along` state the first, of states and of steps, and `along_iff_between` reduces the second to single steps. `throughout_of_along` is the induction every invariant goes through, under a condition on the steps taken.
-/

namespace Transition

/-- What one step comes to. -/
inductive Outcome (ε σ : Type*)
  | next (state : σ)
  | abort (reason : ε)
  | disabled
  deriving DecidableEq

/-- An enabled call that returns or aborts. -/
def Outcome.ofExcept {ε σ : Type*} : Except ε σ → Outcome ε σ
  | .ok s => .next s
  | .error e => .abort e

@[simp] theorem Outcome.ofExcept_ok {ε σ : Type*} (s : σ) :
    Outcome.ofExcept (.ok s : Except ε σ) = .next s := rfl

@[simp] theorem Outcome.ofExcept_error {ε σ : Type*} (e : ε) :
    Outcome.ofExcept (.error e : Except ε σ) = .abort e := rfl

theorem Outcome.ofExcept_eq_next {ε σ : Type*} {r : Except ε σ} {s : σ} :
    Outcome.ofExcept r = .next s ↔ r = .ok s := by
  cases r <;> simp [Outcome.ofExcept]

/-- The outcome of a step with its state replaced, as where a record is kept beside the state. -/
def Outcome.map {ε σ τ : Type*} (f : σ → τ) : Outcome ε σ → Outcome ε τ
  | .next s => .next (f s)
  | .abort e => .abort e
  | .disabled => .disabled

theorem Outcome.map_eq_next {ε σ τ : Type*} {f : σ → τ} {r : Outcome ε σ} {t : τ} :
    r.map f = .next t ↔ ∃ s, r = .next s ∧ f s = t := by
  cases r <;> simp [Outcome.map]

/-- The reason of an abort. It can be decided also where the states cannot be compared. -/
def Outcome.reason? {ε σ : Type*} : Outcome ε σ → Option ε
  | .abort e => some e
  | _ => none

theorem Outcome.reason?_eq_some {ε σ : Type*} {r : Outcome ε σ} {e : ε} : r.reason? = some e ↔ r = .abort e := by
  cases r <;> simp [Outcome.reason?]

/-! ### Computations that return or abort -/

theorem bind_eq_ok {ε : Type*} {σ τ : Type*} {x : Except ε σ} {f : σ → Except ε τ} {r : τ} :
    (x.bind f) = .ok r ↔ ∃ s, x = .ok s ∧ f s = .ok r := by
  cases x <;> simp [Except.bind]

theorem map_eq_ok {ε : Type*} {σ τ : Type*} {x : Except ε σ} {f : σ → τ} {r : τ} (h : x.map f = .ok r) :
    ∃ s, x = .ok s ∧ f s = r := by
  cases x with
  | error e => cases h
  | ok s => exact ⟨s, rfl, Except.ok.inj h⟩

theorem bind_eq_error {ε : Type*} {σ τ : Type*} {x : Except ε σ} {f : σ → Except ε τ} {e : ε} :
    (x.bind f) = .error e ↔ x = .error e ∨ ∃ s, x = .ok s ∧ f s = .error e := by
  cases x <;> simp [Except.bind]

/-! ### Runs -/

theorem ofExcept_map_eq_abort {ε : Type*} {σ τ : Type*} {x : Except ε σ} {f : σ → τ} {e : ε} :
    Outcome.ofExcept (x.map f) = .abort e ↔ x = .error e := by
  cases x <;> simp [Except.map, Outcome.ofExcept]

variable {ε σ α : Type*} (step : σ → α → Outcome ε σ)

/-- The outcome of performing the actions of a list one after another. -/
def run : σ → List α → Outcome ε σ
  | s, [] => .next s
  | s, a :: as =>
    match step s a with
    | .next t => run t as
    | .abort e => .abort e
    | .disabled => .disabled

/-- Every step of the run is taken from a state in which `P` allows the action. -/
def Along (P : σ → α → Prop) : σ → List α → Prop
  | _, [] => True
  | s, a :: as => P s a ∧
    match step s a with
    | .next t => Along P t as
    | _ => True

/-- Every state of the run satisfies `Q`, the first and the last included. -/
def Throughout (Q : σ → Prop) : σ → List α → Prop
  | s, [] => Q s
  | s, a :: as => Q s ∧
    match step s a with
    | .next t => Throughout Q t as
    | _ => True

instance decidableAlong (P : σ → α → Prop) [∀ s a, Decidable (P s a)] :
    (s : σ) → (as : List α) → Decidable (Along step P s as)
  | _, [] => .isTrue trivial
  | s, a :: as => by
    unfold Along
    have : Decidable (match step s a with | .next t => Along step P t as | _ => True) :=
      match step s a with
      | .next t => decidableAlong P t as
      | .abort _ => .isTrue trivial
      | .disabled => .isTrue trivial
    infer_instance

variable {step}

/-! ### Single steps and concatenation -/

@[simp] theorem run_nil (s : σ) : run step s [] = .next s := rfl

theorem run_cons_of_next {s t : σ} {a : α} (as : List α) (h : step s a = .next t) :
    run step s (a :: as) = run step t as := by
  simp only [run, h]

theorem run_append_of_next {s t : σ} {as : List α} (bs : List α) (h : run step s as = .next t) :
    run step s (as ++ bs) = run step t bs := by
  induction as generalizing s with
  | nil =>
      cases h
      rfl
  | cons a as ih =>
      simp only [run, List.cons_append] at h ⊢
      split at h
      · exact ih h
      · cases h
      · cases h

theorem run_cons_eq_next {s u : σ} {a : α} {as : List α} :
    run step s (a :: as) = .next u ↔ ∃ t, step s a = .next t ∧ run step t as = .next u := by
  cases h : step s a <;> simp [run, h]

theorem along_cons_of_next {P : σ → α → Prop} {s t : σ} {a : α} {as : List α}
    (h : step s a = .next t) : Along step P s (a :: as) ↔ P s a ∧ Along step P t as := by
  simp only [Along, h]

theorem along_cons_of_forall {P : σ → α → Prop} {s : σ} {a : α} {as : List α} (h : P s a)
    (hrest : ∀ t, step s a = .next t → Along step P t as) : Along step P s (a :: as) := by
  cases hstep : step s a with
  | next t => exact (along_cons_of_next hstep).2 ⟨h, hrest t hstep⟩
  | abort e => simp [Along, hstep, h]
  | disabled => simp [Along, hstep, h]

theorem throughout_cons_of_next {Q : σ → Prop} {s t : σ} {a : α} {as : List α}
    (h : step s a = .next t) : Throughout step Q s (a :: as) ↔ Q s ∧ Throughout step Q t as := by
  simp only [Throughout, h]

@[simp] theorem along_singleton {P : σ → α → Prop} {s : σ} {a : α} : Along step P s [a] ↔ P s a := by
  cases h : step s a <;> simp [Along, h]

theorem Throughout.first {Q : σ → Prop} {s : σ} {as : List α} (h : Throughout step Q s as) : Q s := by
  cases as with
  | nil => exact h
  | cons a as => exact h.1

theorem Throughout.last {Q : σ → Prop} {s u : σ} {as : List α} (h : Throughout step Q s as)
    (hrun : run step s as = .next u) : Q u := by
  induction as generalizing s with
  | nil =>
      obtain rfl : s = u := by simpa using hrun
      exact h
  | cons a as ih =>
      obtain ⟨t, hstep, hrest⟩ := run_cons_eq_next.1 hrun
      exact ih ((throughout_cons_of_next hstep).1 h).2 hrest

theorem Throughout.mono {Q Q' : σ → Prop} (himp : ∀ s, Q s → Q' s) {s : σ} {as : List α}
    (h : Throughout step Q s as) : Throughout step Q' s as := by
  induction as generalizing s with
  | nil => exact himp s h
  | cons a as ih =>
      refine ⟨himp s h.1, ?_⟩
      have hrest := h.2
      cases hstep : step s a with
      | next t =>
          rw [hstep] at hrest
          exact ih hrest
      | abort e => trivial
      | disabled => trivial

theorem along_append {P : σ → α → Prop} {s t : σ} {as bs : List α} (h : run step s as = .next t) :
    Along step P s (as ++ bs) ↔ Along step P s as ∧ Along step P t bs := by
  induction as generalizing s with
  | nil =>
      obtain rfl : s = t := by simpa using h
      simp [Along]
  | cons a as ih =>
      obtain ⟨m, hstep, hrest⟩ := run_cons_eq_next.1 h
      rw [List.cons_append, along_cons_of_next hstep, along_cons_of_next hstep, ih hrest, and_assoc]

theorem Along.mono {P P' : σ → α → Prop} (himp : ∀ s a, P s a → P' s a) {s : σ} {as : List α}
    (h : Along step P s as) : Along step P' s as := by
  induction as generalizing s with
  | nil => trivial
  | cons a as ih =>
      refine ⟨himp s a h.1, ?_⟩
      have hrest := h.2
      cases hstep : step s a with
      | next t =>
          rw [hstep] at hrest
          exact ih hrest
      | abort e => trivial
      | disabled => trivial

theorem Along.and {P P' : σ → α → Prop} {s : σ} {as : List α} (h : Along step P s as) (h' : Along step P' s as) :
    Along step (fun s a => P s a ∧ P' s a) s as := by
  induction as generalizing s with
  | nil => trivial
  | cons a as ih =>
      refine along_cons_of_forall ⟨h.1, h'.1⟩ fun t hstep => ?_
      exact ih ((along_cons_of_next hstep).1 h).2 ((along_cons_of_next hstep).1 h').2

/-! ### Invariants -/

/-- An invariant that every allowed step keeps holds throughout a run of allowed steps, and every step of the run is allowed from a state that satisfies it. -/
theorem throughout_of_along {I : σ → Prop} {P : σ → α → Prop}
    (hstep : ∀ s a t, I s → P s a → step s a = .next t → I t) {s : σ} {as : List α}
    (hinit : I s) (h : Along step P s as) :
    Throughout step I s as ∧ Along step (fun s a => I s ∧ P s a) s as := by
  induction as generalizing s with
  | nil => exact ⟨hinit, trivial⟩
  | cons a as ih =>
      simp only [Throughout, Along] at h ⊢
      cases ha : step s a with
      | next t =>
          rw [ha] at h
          obtain ⟨hall, halong⟩ := ih (hstep s a t hinit h.1 ha) h.2
          exact ⟨⟨hinit, hall⟩, ⟨hinit, h.1⟩, halong⟩
      | abort e => exact ⟨⟨hinit, trivial⟩, ⟨hinit, h.1⟩, trivial⟩
      | disabled => exact ⟨⟨hinit, trivial⟩, ⟨hinit, h.1⟩, trivial⟩

theorem along_of_forall {P : σ → α → Prop} {as : List α} (h : ∀ a ∈ as, ∀ s, P s a) (s : σ) : Along step P s as := by
  induction as generalizing s with
  | nil => trivial
  | cons a as ih =>
      refine ⟨h a List.mem_cons_self s, ?_⟩
      cases step s a with
      | next t => exact ih (fun b hb => h b (List.mem_cons_of_mem a hb)) t
      | abort e => trivial
      | disabled => trivial

/-- An invariant that every step keeps holds throughout every run. -/
theorem throughout_of_step {I : σ → Prop}
    (hstep : ∀ s a t, I s → step s a = .next t → I t) {s : σ} (hinit : I s) (as : List α) :
    Throughout step I s as :=
  (throughout_of_along (P := fun _ _ => True) (fun s a t hi _ h => hstep s a t hi h) hinit
    (along_of_forall (fun _ _ _ => trivial) s)).1

/-- An invariant that every step keeps holds where a run ends. -/
theorem invariant_of_run {I : σ → Prop}
    (hstep : ∀ s a t, I s → step s a = .next t → I t) {s u : σ} {as : List α} (hinit : I s)
    (hrun : run step s as = .next u) : I u :=
  (throughout_of_step hstep hinit as).last hrun

/-- Conditions that agree under an invariant are met along the same runs, also where only the steps that meet them keep the invariant. -/
theorem along_congr_of_along {I : σ → Prop} {P P' : σ → α → Prop}
    (hinv : ∀ s a t, I s → P s a → step s a = .next t → I t) (hiff : ∀ s a, I s → (P s a ↔ P' s a)) {s : σ}
    (hinit : I s) (as : List α) : Along step P s as ↔ Along step P' s as := by
  induction as generalizing s with
  | nil => rfl
  | cons a as ih =>
      simp only [Along, ← hiff s a hinit]
      refine and_congr_right fun ha => ?_
      cases hstep : step s a with
      | next t => exact ih (hinv s a t hinit ha hstep)
      | abort e => rfl
      | disabled => rfl

/-- Under an invariant, conditions that agree where it holds are met along the same runs. -/
theorem along_congr {I : σ → Prop} {P P' : σ → α → Prop} (hinv : ∀ s a t, I s → step s a = .next t → I t)
    (hiff : ∀ s a, I s → (P s a ↔ P' s a)) {s : σ} (hinit : I s) (as : List α) :
    Along step P s as ↔ Along step P' s as :=
  along_congr_of_along (fun s a t hs _ h => hinv s a t hs h) hiff hinit as

theorem throughout_congr {I Q Q' : σ → Prop} (hinv : ∀ s a t, I s → step s a = .next t → I t)
    (hiff : ∀ s, I s → (Q s ↔ Q' s)) {s : σ} (hinit : I s) (as : List α) :
    Throughout step Q s as ↔ Throughout step Q' s as := by
  induction as generalizing s with
  | nil => exact hiff s hinit
  | cons a as ih =>
      simp only [Throughout, hiff s hinit]
      cases hstep : step s a with
      | next t => simp only [ih (hinv s a t hinit hstep)]
      | abort e => rfl
      | disabled => rfl

/-- A condition that every step meets into a state with some property, and that is met where there is no step, is met along a run through such states. -/
theorem along_of_throughout {Q : σ → Prop} {P : σ → α → Prop} (hstep : ∀ s a t, step s a = .next t → Q t → P s a)
    (hstuck : ∀ s a, (∀ t, step s a ≠ .next t) → P s a) {s : σ} {as : List α} (h : Throughout step Q s as) :
    Along step P s as := by
  induction as generalizing s with
  | nil => trivial
  | cons a as ih =>
      cases ha : step s a with
      | next t =>
          have hrest := ((throughout_cons_of_next ha).1 h).2
          exact (along_cons_of_next ha).2 ⟨hstep s a t ha hrest.first, ih hrest⟩
      | abort e => exact along_cons_of_forall (hstuck s a (by simp [ha])) (by simp [ha])
      | disabled => exact along_cons_of_forall (hstuck s a (by simp [ha])) (by simp [ha])

/-! ### Exact conditions -/

/-- Where, under an invariant, a step aborts for one of some reasons exactly when the action is not allowed, so does a run. -/
theorem run_ne_abort_iff_along_of_reasons {I : σ → Prop} (hinv : ∀ s a t, I s → step s a = .next t → I t)
    {E : ε → Prop} {P : σ → α → Prop} (hP : ∀ s a, I s → ((∃ e, E e ∧ step s a = .abort e) ↔ ¬ P s a)) {s : σ}
    (hinit : I s) (as : List α) : (∀ e, E e → run step s as ≠ .abort e) ↔ Along step P s as := by
  induction as generalizing s with
  | nil => simp [Along]
  | cons a as ih =>
      have hallowed := hP s a hinit
      simp only [run, Along]
      cases hstep : step s a with
      | next t =>
          have hok : P s a := by simpa [hstep] using hallowed
          simp only [ih (hinv s a t hinit hstep), hok, true_and]
      | abort reason =>
          have hreason : P s a ↔ ¬ E reason := by
            rw [← not_iff_not, not_not, ← hallowed]
            simp [hstep]
          rw [and_true, hreason]
          exact ⟨fun h hE => h reason hE rfl, fun h e hE heq => h (Outcome.abort.inj heq ▸ hE)⟩
      | disabled =>
          have hok : P s a := by simpa [hstep] using hallowed
          simp [hok]

/-- Where, under an invariant, a step aborts for a given reason exactly when the action is not allowed, so does a run. -/
theorem run_ne_abort_iff_along_of_invariant {I : σ → Prop} (hinv : ∀ s a t, I s → step s a = .next t → I t) {e : ε}
    {P : σ → α → Prop} (hP : ∀ s a, I s → (step s a = .abort e ↔ ¬ P s a)) {s : σ} (hinit : I s) (as : List α) :
    run step s as ≠ .abort e ↔ Along step P s as := by
  rw [← run_ne_abort_iff_along_of_reasons (E := (· = e)) hinv (by simpa using hP) hinit as]
  simp

/-- Where a step aborts for a given reason exactly when the action is not allowed, so does a run. -/
theorem run_ne_abort_iff_along {e : ε} {P : σ → α → Prop} (hP : ∀ s a, step s a = .abort e ↔ ¬ P s a)
    (s : σ) (as : List α) : run step s as ≠ .abort e ↔ Along step P s as :=
  run_ne_abort_iff_along_of_invariant (I := fun _ => True) (fun _ _ _ _ _ => trivial) (fun s a _ => hP s a) trivial as

/-- Where a step keeps a property exactly when the action is allowed, the property holds throughout the runs of allowed actions and no others. -/
theorem throughout_iff_along {I Q : σ → Prop} {P : σ → α → Prop} (hinv : ∀ s a t, I s → step s a = .next t → I t)
    (hiff : ∀ s a t, I s → Q s → step s a = .next t → (Q t ↔ P s a))
    (hstuck : ∀ s a, I s → (∀ t, step s a ≠ .next t) → P s a) {s : σ} (hinit : I s) (hfirst : Q s) (as : List α) :
    Throughout step Q s as ↔ Along step P s as := by
  induction as generalizing s with
  | nil => exact ⟨fun _ => trivial, fun _ => hfirst⟩
  | cons a as ih =>
      cases hstep : step s a with
      | next t =>
          have hI := hinv s a t hinit hstep
          have hQ := hiff s a t hinit hfirst hstep
          rw [throughout_cons_of_next hstep, along_cons_of_next hstep]
          constructor
          · rintro ⟨_, hall⟩
            exact ⟨hQ.1 hall.first, (ih hI hall.first).1 hall⟩
          · rintro ⟨ha, halong⟩
            exact ⟨hfirst, (ih hI (hQ.2 ha)).2 halong⟩
      | abort e => simp [Throughout, Along, hstep, hfirst, hstuck s a hinit (by simp [hstep])]
      | disabled => simp [Throughout, Along, hstep, hfirst, hstuck s a hinit (by simp [hstep])]

/-- A gauge that starts at zero, rises by one at the bad steps and stands still at the others is zero throughout a run exactly when the run has no bad step. -/
theorem throughout_zero_iff_along {I : σ → Prop} {g : σ → ℕ} {bad : σ → α → Prop}
    (hinv : ∀ s a t, I s → step s a = .next t → I t)
    (hbad : ∀ s a, I s → bad s a → ∃ t, step s a = .next t ∧ g t = g s + 1)
    (hgood : ∀ s a t, I s → step s a = .next t → ¬ bad s a → g t = g s)
    {s : σ} (hinit : I s) (hzero : g s = 0) (as : List α) :
    Throughout step (fun t => g t = 0) s as ↔ Along step (fun s a => ¬ bad s a) s as := by
  induction as generalizing s with
  | nil => exact ⟨fun _ => trivial, fun _ => hzero⟩
  | cons a as ih =>
      by_cases hb : bad s a
      · obtain ⟨t, hstep, hrise⟩ := hbad s a hinit hb
        rw [throughout_cons_of_next hstep, along_cons_of_next hstep]
        constructor
        · rintro ⟨_, hall⟩
          have := hall.first
          omega
        · rintro ⟨hnot, _⟩
          exact absurd hb hnot
      · simp only [Throughout, Along, hzero, hb, not_false_eq_true, true_and]
        cases hstep : step s a with
        | next t => exact ih (hinv s a t hinit hstep) ((hgood s a t hinit hstep hb).trans hzero)
        | abort e => rfl
        | disabled => rfl

/-- A reflexive and transitive relation holds between any two moments of a run exactly when it holds across each of its steps. -/
theorem along_iff_between {R : σ → σ → Prop} (hrefl : ∀ s, R s s)
    (htrans : ∀ s t u, R s t → R t u → R s u) (s : σ) (as : List α) :
    Along step (fun s a => ∀ t, step s a = .next t → R s t) s as ↔
      ∀ before between after, as = before ++ between ++ after →
        ∀ t v, run step s before = .next t → run step t between = .next v → R t v := by
  have chain : ∀ (as : List α) (s v : σ), run step s as = .next v →
      Along step (fun s a => ∀ t, step s a = .next t → R s t) s as → R s v := by
    intro as
    induction as with
    | nil =>
        intro s v hrun _
        obtain rfl : s = v := by simpa using hrun
        exact hrefl s
    | cons a as ih =>
        intro s v hrun h
        obtain ⟨t, hstep, hrest⟩ := run_cons_eq_next.1 hrun
        rw [along_cons_of_next hstep] at h
        exact htrans s t v (h.1 t hstep) (ih t v hrest h.2)
  constructor
  · rintro h before between after rfl t v hbefore hbetween
    rw [List.append_assoc, along_append hbefore, along_append hbetween] at h
    exact chain between t v hbetween h.2.1
  · intro h
    induction as generalizing s with
    | nil => trivial
    | cons a as ih =>
        refine ⟨fun v hv => h [] [a] as rfl s v rfl (by rw [run_cons_of_next _ hv, run_nil]), ?_⟩
        cases hstep : step s a with
        | next t =>
            refine ih t ?_
            rintro before between after rfl m v hbefore hbetween
            exact h (a :: before) between after rfl m v (by rw [run_cons_of_next _ hstep]; exact hbefore) hbetween
        | abort e => trivial
        | disabled => trivial

end Transition
