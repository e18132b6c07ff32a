import Awcotn.Config.Variable
import Mathlib.Data.List.Basic

/-!
# Listeners that refuse a value

A listener may throw. `ConfigVar::setValue` passes the exception on before it has assigned, and `ConfigVar::fromString` catches it and returns false, as where the conversion throws. Here a call is one step and its listeners may throw; `run_fromString` connects it with the calls of `ConfigVar` that are taken apart. `untouched_iff` says which calls that return false have left nothing behind.
-/

namespace Awcotn

/-- A `ConfigVar` outside of its calls. `told` has the calls of listeners that have returned, the oldest first, each with the old and the new value; a listener that throws has refused the new value. -/
structure Listened (T L : Type*) where
  val : T
  told : List (L × T × T)

namespace Listened

open Transition

variable {T L : Type*} [DecidableEq T]

/-- The listeners' calls of one change, up to the first that throws, and whether one has. -/
def notify (throws : L → T → T → Bool) (old_value new_value : T) : List L → List (L × T × T) × Bool
  | [] => ([], false)
  | i :: cbs =>
    if throws i old_value new_value then ([], true)
    else
      let rest := notify throws old_value new_value cbs
      ((i, old_value, new_value) :: rest.1, rest.2)

section

variable (throws : L → T → T → Bool) (m_cbs : List L) (FromStr : String → Option T)

/-- `ConfigVar::setValue`, and whether it has returned. -/
def setValue (v : Listened T L) (val : T) : Bool × Listened T L :=
  if val = v.val then (true, v)
  else
    let (calls, threw) := notify throws v.val val m_cbs
    if threw then (false, { v with told := v.told ++ calls }) else (true, { val := val, told := v.told ++ calls })

/-- `ConfigVar::fromString`. `FromStr` returns nothing where the conversion throws. -/
def fromString (v : Listened T L) (val : String) : Bool × Listened T L :=
  match FromStr val with
  | some val => v.setValue throws m_cbs val
  | none => (false, v)

/-- If the call returns false, the value is what it was and no listener has been told another. -/
def Untouched (v : Listened T L) (val : String) : Prop :=
  (v.fromString throws m_cbs FromStr val).1 = false → (v.fromString throws m_cbs FromStr val).2 = v

/-- If any listener refuses the value that the text converts to, the first does. -/
def FirstRefuses (v : Listened T L) (val : String) : Prop :=
  ∀ new_value, FromStr val = some new_value → new_value ≠ v.val → ∀ i cbs, m_cbs = i :: cbs →
    (∃ j ∈ cbs, throws j v.val new_value = true) → throws i v.val new_value = true

end

variable {throws : L → T → T → Bool} {m_cbs : List L} {FromStr : String → Option T} {v : Listened T L}

/-! ### One call -/

omit [DecidableEq T] in
theorem notify_threw_iff (throws : L → T → T → Bool) (old_value new_value : T) (cbs : List L) :
    (notify throws old_value new_value cbs).2 = true ↔ ∃ i ∈ cbs, throws i old_value new_value = true := by
  induction cbs with
  | nil => simp [notify]
  | cons i cbs ih =>
      simp only [notify, List.exists_mem_cons_iff]
      split_ifs with hthrows
      · simp [hthrows]
      · simp [hthrows, ih]

omit [DecidableEq T] in
/-- Where no listener throws, each is told. -/
theorem notify_of_quiet {old_value new_value : T} {cbs : List L} (h : ∀ i ∈ cbs, throws i old_value new_value = false) :
    notify throws old_value new_value cbs = (cbs.map fun i => (i, old_value, new_value), false) := by
  induction cbs with
  | nil => rfl
  | cons i cbs ih =>
      have hrest := ih fun j hj => h j (List.mem_cons_of_mem _ hj)
      simp [notify, h i List.mem_cons_self, hrest]

omit [DecidableEq T] in
/-- Nobody has been told before a listener throws exactly if that is the first. -/
theorem notify_silent_iff (throws : L → T → T → Bool) (old_value new_value : T) (cbs : List L) :
    ((notify throws old_value new_value cbs).2 = true → (notify throws old_value new_value cbs).1 = []) ↔
      ∀ i rest, cbs = i :: rest → (∃ j ∈ rest, throws j old_value new_value = true) →
        throws i old_value new_value = true := by
  cases cbs with
  | nil => simp [notify]
  | cons i rest =>
      have hrest := notify_threw_iff throws old_value new_value rest
      cases hthrows : throws i old_value new_value with
      | true => simp [notify, hthrows]
      | false => simp [notify, hthrows, hrest]

/-- What a call comes to: the conversion throws, the value is in place already, a listener refuses it, or it is assigned. -/
theorem fromString_cases (throws : L → T → T → Bool) (m_cbs : List L) (FromStr : String → Option T) (v : Listened T L)
    (val : String) : FromStr val = none ∧ v.fromString throws m_cbs FromStr val = (false, v) ∨
      FromStr val = some v.val ∧ v.fromString throws m_cbs FromStr val = (true, v) ∨
      ∃ new_value, FromStr val = some new_value ∧ new_value ≠ v.val ∧
        v.fromString throws m_cbs FromStr val =
          (!(notify throws v.val new_value m_cbs).2,
            { val := if (notify throws v.val new_value m_cbs).2 then v.val else new_value
              told := v.told ++ (notify throws v.val new_value m_cbs).1 }) := by
  simp only [fromString]
  cases hconvert : FromStr val with
  | none => exact .inl ⟨rfl, rfl⟩
  | some new_value =>
      simp only [setValue]
      by_cases hsame : new_value = v.val
      · exact .inr (.inl ⟨by rw [hsame], by rw [if_pos hsame]⟩)
      · refine .inr (.inr ⟨new_value, rfl, hsame, ?_⟩)
        rw [if_neg hsame]
        cases (notify throws v.val new_value m_cbs).2 <;> rfl

/-- The value changes only where the call returns true, and then it is that of the text. -/
theorem fromString_val (v : Listened T L) (val : String) :
    ((v.fromString throws m_cbs FromStr val).1 = true → FromStr val = some (v.fromString throws m_cbs FromStr val).2.val) ∧
      ((v.fromString throws m_cbs FromStr val).1 = false → (v.fromString throws m_cbs FromStr val).2.val = v.val) := by
  rcases fromString_cases throws m_cbs FromStr v val with ⟨-, heq⟩ | ⟨hconvert, heq⟩ | ⟨new_value, hconvert, -, heq⟩
  · simp [heq]
  · simp [heq, hconvert]
  · cases hthrew : (notify throws v.val new_value m_cbs).2 <;> simp [heq, hconvert, hthrew]

omit [DecidableEq T] in
theorem told_append_eq_self (v : Listened T L) (calls : List (L × T × T)) :
    { val := v.val, told := v.told ++ calls } = v ↔ calls = [] := by
  cases v
  simp

/-- A call that returns false has left nothing behind exactly if no listener has accepted the value before another refused it. -/
theorem untouched_iff (throws : L → T → T → Bool) (m_cbs : List L) (FromStr : String → Option T) (v : Listened T L)
    (val : String) : v.Untouched throws m_cbs FromStr val ↔ v.FirstRefuses throws m_cbs FromStr val := by
  rw [Untouched, FirstRefuses]
  rcases fromString_cases throws m_cbs FromStr v val with ⟨hconvert, heq⟩ | ⟨hconvert, heq⟩ | ⟨new_value, hconvert, hne, heq⟩
  · simp [heq, hconvert]
  · simp [heq, hconvert]
  · have hsilent := notify_silent_iff throws v.val new_value m_cbs
    simp only [hconvert, Option.some.injEq, forall_eq', forall_prop_of_true hne, ← hsilent, heq]
    cases hthrew : (notify throws v.val new_value m_cbs).2 <;> simp [told_append_eq_self]

/-- Two listeners: the second refuses 5 when the first has accepted it. -/
theorem refused_value_told :
    ¬ (Listened.mk 0 [] : Listened ℕ ℕ).Untouched (fun i _ _ => i = 1) [0, 1] (fun _ => some 5) "5" := by
  intro h
  exact absurd (congrArg told (h (by decide))) (by decide)

/-! ### Calls that are taken apart

Listeners that never throw, and a thread that is alone with the variable.
-/

section

variable {Th : Type*} [DecidableEq L] [DecidableEq Th] {w : ConfigVar T L Th} {t : Th}

/-- The last call of each listener. -/
def received (told : List (L × T × T)) : L → Option (T × T) :=
  told.foldl (fun last call => Function.update last call.1 (some call.2)) fun _ => none

/-- The variable outside of its calls. -/
def Same (w : ConfigVar T L Th) (v : Listened T L) : Prop :=
  w.val = v.val ∧ w.received = received v.told ∧ w.readers = ∅

omit [DecidableEq T] in
theorem received_append (told : List (L × T × T)) (call : L × T × T) :
    received (told ++ [call]) = Function.update (received told) call.1 (some call.2) := by
  rw [received, List.foldl_append]
  rfl

/-- The thread goes through the listeners. -/
theorem run_notifying (m_cbs : List L) (FromStr : String → Option T) {val : T} {cbs : List L}
    (hpc : w.pc t = .notifying val cbs) {told : List (L × T × T)} (htold : w.received = received told) :
    run (ConfigVar.step m_cbs FromStr) w (List.replicate cbs.length (.run t)) =
      .next { w.setPc t (.notifying val []) with received := received (told ++ cbs.map fun i => (i, w.val, val)) } := by
  induction cbs generalizing w told with
  | nil =>
      have hsame : w.setPc t (.notifying val []) = w := by
        rw [ConfigVar.setPc, ← hpc, Function.update_eq_self]
      rw [hsame, List.map_nil, List.append_nil, ← htold]
      rfl
  | cons i cbs ih =>
      set u := { w with received := Function.update w.received i (some (w.val, val)) }.setPc t (.notifying val cbs) with hu
      have hstep : ConfigVar.step m_cbs FromStr w (.run t) = .next u := by
        simp [ConfigVar.step, ConfigVar.advance, hpc, hu]
      have hreceived : u.received = received (told ++ [(i, w.val, val)]) := by
        rw [received_append, ← htold]
        rfl
      rw [List.length_cons, List.replicate_succ, run_cons_of_next _ hstep, ih (by simp [hu, ConfigVar.setPc]) hreceived]
      simp [hu, ConfigVar.setPc]

/-- A call of a thread that finds the variable as in `v` leaves it as `fromString` does. -/
theorem run_fromString {v : Listened T L} (hsame : Same w v) (hidle : w.pc t = .idle) (m_cbs : List L)
    (FromStr : String → Option T) (val : String) :
    ∃ acts u, run (ConfigVar.step m_cbs FromStr) w (.fromString t val :: acts) = .next u ∧ u.pc = w.pc ∧
      Same u (v.fromString (fun _ _ _ => false) m_cbs FromStr val).2 := by
  obtain ⟨hval, htold, hreaders⟩ := hsame
  cases hconvert : FromStr val with
  | none =>
      refine ⟨[], w, ?_, rfl, ?_⟩
      · simp [run, ConfigVar.step, hidle, hconvert]
      · simp [fromString, hconvert, Same, hval, htold, hreaders]
  | some new_value =>
      have hback : Function.update w.pc t .idle = w.pc := by rw [← hidle, Function.update_eq_self]
      by_cases heq : new_value = w.val
      · refine ⟨[.run t, .run t], { w with readers := w.readers.erase t }, ?_, rfl, ?_⟩
        · simp [run, ConfigVar.step, ConfigVar.advance, ConfigVar.setPc, hidle, hconvert, heq, hback]
        · simp [fromString, setValue, hconvert, heq, hval, Same, htold, hreaders]
      · -- the comparison, the listeners one by one, and the assignment
        set u := { w with readers := insert t w.readers }.setPc t (.notifying new_value m_cbs) with hu
        have hbegin : run (ConfigVar.step m_cbs FromStr) w [.fromString t val, .run t, .run t] = .next u := by
          simp [run, ConfigVar.step, ConfigVar.advance, ConfigVar.setPc, hidle, hconvert, heq, hu]
        have hpc : u.pc t = .notifying new_value m_cbs := by simp [hu, ConfigVar.setPc]
        have hreceived : u.received = received v.told := htold
        have hlisteners := run_notifying m_cbs FromStr hpc hreceived
        refine ⟨[.run t, .run t] ++ (List.replicate m_cbs.length (.run t) ++ [.run t, .run t]),
          { w with val := new_value, received := received (v.told ++ m_cbs.map fun i => (i, v.val, new_value)) }, ?_, rfl, ?_⟩
        · rw [← List.cons_append, run_append_of_next _ hbegin, run_append_of_next _ hlisteners]
          simp [run, ConfigVar.step, ConfigVar.advance, ConfigVar.setPc, hu, hback, hval, hreaders]
        · rw [hval] at heq
          simp [fromString, setValue, hconvert, heq, notify_of_quiet, Same, hreaders]

end

end Listened

end Awcotn
