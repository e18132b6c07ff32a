import Awcotn.Foundation.Halting
import Awcotn.Log.Pattern
import Mathlib.Data.Int.Notation

/-!
# The loops of `init`, step by step

In `outerLoop` and `innerLoop` Lean has been shown why the loops end, and `substr` refuses what the source must not ask for. Here `init` is a machine that knows neither: a step is the test of a loop with the body behind it, and `substr` does what `std::string::substr` does. It throws past the end of the string, and a length below zero becomes a `size_t` larger than any string. The machine records its calls of `substr`, the one of the error message included, and the indices with which the outer loop has begun an iteration.
-/

namespace Awcotn.LogFormatter.Scan

open Halting

/-- A call of `m_pattern.substr`. The length is the value of the source's expression before it becomes a `size_t`; with one argument it is what is left of the pattern. -/
structure Call where
  pos : ℕ
  len : ℤ
  deriving DecidableEq

/-- `m_pattern.substr(pos, stop - pos)`. -/
def Call.upTo (pos stop : ℕ) : Call := ⟨pos, (stop : ℤ) - pos⟩

/-- What `substr` returns, unless it throws. -/
def Call.text (m_pattern : List Char) (call : Call) : Option (List Char) :=
  if m_pattern.length < call.pos then none
  else if call.len < 0 then some (m_pattern.drop call.pos)
  else some ((m_pattern.drop call.pos).take call.len.toNat)

/-- The start is within the pattern and the length is not negative. -/
def Call.InRange (m_pattern : List Char) (call : Call) : Prop := call.pos ≤ m_pattern.length ∧ 0 ≤ call.len

inductive Pc
  /-- At the test of the outer loop. -/
  | outer
  /-- At the test of the inner loop. -/
  | inner (s : Inner)
  /-- Behind the inner loop. -/
  | after (s : Inner)
  /-- Behind the outer loop. -/
  | done
  /-- `substr` has thrown. -/
  | thrown
  deriving DecidableEq

structure State where
  pc : Pc
  loop : Outer
  heads : List ℕ
  calls : List Call
  deriving DecidableEq

def State.goto (s : State) (pc : Pc) : State := { s with pc := pc }

/-- Call `substr` and go on with what it returns. -/
def State.substr (m_pattern : List Char) (s : State) (call : Call) (k : List Char → State → State) : State :=
  let s := { s with calls := s.calls ++ [call] }
  match call.text m_pattern with
  | some str => k str s
  | none => s.goto .thrown

/-- The end of the body of the inner loop. -/
def advance (m_pattern : List Char) (s : State) (t : Inner) : State :=
  let t := { t with n := t.n + 1 }
  if t.n = m_pattern.length ∧ t.str = [] then
    s.substr m_pattern (.upTo (s.loop.i + 1) m_pattern.length) fun str s => s.goto (.inner { t with str := str })
  else s.goto (.inner t)

/-- The body of the inner loop. -/
def innerBody (m_pattern : List Char) (s : State) (t : Inner) (c : Char) : State :=
  if t.fmt_status = 0 ∧ isalpha c = false ∧ c ≠ '{' ∧ c ≠ '}' then
    s.substr m_pattern (.upTo (s.loop.i + 1) t.n) fun str s => s.goto (.after { t with str := str })
  else if t.fmt_status = 0 ∧ c = '{' then
    s.substr m_pattern (.upTo (s.loop.i + 1) t.n) fun str s =>
      s.goto (.inner { t with str := str, fmt_status := 1, fmt_begin := t.n, n := t.n + 1 })
  else if t.fmt_status = 1 ∧ c = '}' then
    s.substr m_pattern (.upTo (t.fmt_begin + 1) t.n) fun fmt s =>
      s.goto (.after { t with fmt := fmt, fmt_status := 0, n := t.n + 1 })
  else advance m_pattern s t

/-- The body of the outer loop up to the inner one. -/
def outerBody (m_pattern : List Char) (s : State) (c : Char) : State :=
  let s := { s with heads := s.heads ++ [s.loop.i] }
  if c ≠ '%' then { s with loop := { s.loop with i := s.loop.i + 1, nstr := s.loop.nstr ++ [c] } }
  else if m_pattern[s.loop.i + 1]? = some '%' then
    { s with loop := { s.loop with i := s.loop.i + 1, nstr := s.loop.nstr ++ ['%'] } }
  else s.goto (.inner { n := s.loop.i + 1, fmt_status := 0, fmt_begin := 0, fmt := [], str := [] })

/-- What the rest of the body makes of the variables, with the `i++` at its end. -/
def finish (s : Outer) (t : Inner) : Outer :=
  if t.fmt_status = 0 then
    { s with i := t.n - 1 + 1, nstr := [], vec := s.vec ++ literal s.nstr ++ [(t.str, t.fmt, 1)] }
  else if t.fmt_status = 1 then { s with i := s.i + 1, vec := s.vec ++ [(patternError, t.fmt, 0)], m_error := true }
  else { s with i := s.i + 1 }

/-- The body of the outer loop behind the inner one. The message about an error shows the pattern from `i` on. -/
def afterBody (m_pattern : List Char) (s : State) (t : Inner) : State :=
  let next := fun s : State => { s with pc := .outer, loop := finish s.loop t }
  if t.fmt_status = 1 then s.substr m_pattern (.upTo s.loop.i m_pattern.length) fun _ s => next s else next s

def step (m_pattern : List Char) (s : State) : Option State :=
  match s.pc with
  | .outer =>
    match m_pattern[s.loop.i]? with
    | some c => some (outerBody m_pattern s c)
    | none => some (s.goto .done)
  | .inner t =>
    match m_pattern[t.n]? with
    | some c => some (innerBody m_pattern s t c)
    | none => some (s.goto (.after t))
  | .after t => some (afterBody m_pattern s t)
  | .done | .thrown => none

/-- `m_items` and `m_error`, from what the loops have read. -/
def items (s : Outer) : List FormatItem × Bool :=
  let vec := s.vec ++ literal s.nstr
  (vec.map fun i => (formatItem i).1, s.m_error || vec.any fun i => (formatItem i).2)

def start : State := { pc := .outer, loop := { i := 0, nstr := [], vec := [], m_error := false }, heads := [], calls := [] }

/-! ### The bodies under the invariant -/

section

variable {m_pattern : List Char} {s : State} {t : Inner} {c : Char}

/-- What holds of the inner variables in an iteration of the outer loop at `i`. -/
structure Scanning (m_pattern : List Char) (i : ℕ) (t : Inner) : Prop where
  lower : i + 1 ≤ t.n
  upper : t.n ≤ m_pattern.length
  status : t.fmt_status = 0 ∨ t.fmt_status = 1
  begin_ : t.fmt_status = 1 → t.fmt_begin < t.n

theorem Scanning.index (h : Scanning m_pattern s.loop.i t) : s.loop.i + 1 ≤ m_pattern.length :=
  Nat.le_trans h.lower h.upper

/-- A call in range returns what `LogFormatter.substr` returns. -/
theorem substr_upTo (m_pattern : List Char) {start stop : ℕ} (hstart : start ≤ m_pattern.length) (hstop : start ≤ stop) :
    ∃ str, LogFormatter.substr m_pattern start stop = some str ∧ (Call.upTo start stop).InRange m_pattern ∧
      ∀ (s : State) (k : List Char → State → State),
        s.substr m_pattern (.upTo start stop) k = k str { s with calls := s.calls ++ [.upTo start stop] } := by
  have hlen : (Call.upTo start stop).len = ((stop - start : ℕ) : ℤ) := by
    simp only [Call.upTo]
    omega
  have htext : (Call.upTo start stop).text m_pattern = some ((m_pattern.drop start).take (stop - start)) := by
    have hpos : (Call.upTo start stop).pos = start := rfl
    rw [Call.text, hlen, hpos, if_neg (by omega), if_neg (by omega), Int.toNat_natCast]
  refine ⟨_, if_pos ⟨hstart, hstop⟩, ⟨hstart, by omega⟩, fun s k => ?_⟩
  simp only [State.substr, htext]

/-- What a step of the machine adds to its record. -/
structure Records (m_pattern : List Char) (s s' : State) : Prop where
  heads : s'.heads = s.heads
  loop : s'.loop = s.loop
  calls : ∀ call ∈ s'.calls, call ∈ s.calls ∨ call.InRange m_pattern

theorem Records.goto (s : State) (pc : Pc) : Records m_pattern s (s.goto pc) :=
  ⟨rfl, rfl, fun _ hcall => .inl hcall⟩

theorem Records.called {call : Call} (h : call.InRange m_pattern) (pc : Pc) :
    Records m_pattern s ({ s with calls := s.calls ++ [call] }.goto pc) := by
  refine ⟨rfl, rfl, fun other hother => ?_⟩
  rcases List.mem_append.1 hother with hold | hnew
  · exact .inl hold
  · exact .inr (List.mem_singleton.1 hnew ▸ h)

theorem advance_eq (h : Scanning m_pattern s.loop.i t) (hn : t.n < m_pattern.length) :
    ∃ t', LogFormatter.advance m_pattern s.loop.i t = some t' ∧ (advance m_pattern s t).pc = .inner t' ∧
      Records m_pattern s (advance m_pattern s t) ∧ Scanning m_pattern s.loop.i t' ∧ t'.n = t.n + 1 := by
  have hnext : ∀ str, Scanning m_pattern s.loop.i { t with n := t.n + 1, str := str } := fun str =>
    ⟨Nat.le_succ_of_le h.lower, hn, h.status, fun hstatus => Nat.lt_succ_of_lt (h.begin_ hstatus)⟩
  simp only [LogFormatter.advance, advance]
  split_ifs
  · obtain ⟨str, hsubstr, hrange, hcall⟩ := substr_upTo m_pattern h.index h.index
    rw [hsubstr, hcall]
    exact ⟨_, rfl, rfl, .called hrange _, hnext str, rfl⟩
  · exact ⟨_, rfl, rfl, .goto s _, hnext t.str, rfl⟩

/-- An iteration of the inner loop does what `innerStep` says, and asks for nothing that is not there. -/
theorem innerBody_eq (h : Scanning m_pattern s.loop.i t) (hn : t.n < m_pattern.length) (c : Char) :
    ∃ brk t', innerStep m_pattern s.loop.i t c = some (brk, t') ∧
      (innerBody m_pattern s t c).pc = (if brk then .after t' else .inner t') ∧
      Records m_pattern s (innerBody m_pattern s t c) ∧ Scanning m_pattern s.loop.i t' ∧ (brk = false → t'.n = t.n + 1) := by
  obtain ⟨str, hstr, hstrRange, hstrCall⟩ := substr_upTo m_pattern h.index h.lower
  by_cases hbreak : t.fmt_status = 0 ∧ isalpha c = false ∧ c ≠ '{' ∧ c ≠ '}'
  · refine ⟨true, { t with str := str }, by simp [innerStep, hbreak, hstr], ?_, ?_, ?_, by simp⟩
    · simp [innerBody, hbreak, hstrCall, State.goto]
    · rw [innerBody, if_pos hbreak, hstrCall]
      exact .called hstrRange _
    · exact ⟨h.lower, h.upper, h.status, h.begin_⟩
  by_cases hopen : t.fmt_status = 0 ∧ c = '{'
  · have hbody : innerBody m_pattern s t c = _ := (if_neg hbreak).trans (if_pos hopen)
    rw [hbody, hstrCall]
    refine ⟨false, _, ?_, rfl, .called hstrRange _, ⟨?_, hn, .inr rfl, fun _ => Nat.lt_succ_self _⟩, fun _ => rfl⟩
    · rw [innerStep, if_neg hbreak, if_pos hopen.1, if_pos hopen.2, hstr]
      rfl
    · exact Nat.le_succ_of_le h.lower
  by_cases hclose : t.fmt_status = 1 ∧ c = '}'
  · have hlt : t.fmt_begin + 1 ≤ t.n := h.begin_ hclose.1
    obtain ⟨fmt, hfmt, hrange, hcall⟩ := substr_upTo m_pattern (Nat.le_trans hlt h.upper) hlt
    have hbody : innerBody m_pattern s t c = _ := (if_neg hbreak).trans ((if_neg hopen).trans (if_pos hclose))
    rw [hbody, hcall]
    refine ⟨true, _, ?_, rfl, .called hrange _, ⟨?_, hn, .inl rfl, by simp⟩, by simp⟩
    · have hzero : t.fmt_status ≠ 0 := by omega
      rw [innerStep, if_neg hbreak, if_neg hzero, if_pos hclose, hfmt]
      rfl
    · exact Nat.le_succ_of_le h.lower
  · have hbody : innerBody m_pattern s t c = _ := (if_neg hbreak).trans ((if_neg hopen).trans (if_neg hclose))
    obtain ⟨t', hadvance, hpc, hrecords, hscanning, hn'⟩ := advance_eq (s := s) h hn
    rw [hbody]
    refine ⟨false, t', ?_, hpc, hrecords, hscanning, fun _ => hn'⟩
    simp only [innerStep, if_neg hbreak]
    by_cases hzero : t.fmt_status = 0
    · have hc : c ≠ '{' := fun hc => hopen ⟨hzero, hc⟩
      rw [if_pos hzero, if_neg hc, hadvance]
      rfl
    · rw [if_neg hzero, if_neg hclose, hadvance]
      rfl

/-! ### The invariant and the measure -/

/-- What the functions of `Formatter.lean` say of the rest of the run. -/
def rest (m_pattern : List Char) (s : State) : Option Outer :=
  match s.pc with
  | .outer => outerLoop m_pattern s.loop
  | .inner t => ((innerLoop m_pattern s.loop.i t).map (finish s.loop)).bind (outerLoop m_pattern)
  | .after t => outerLoop m_pattern (finish s.loop t)
  | .done => some s.loop
  | .thrown => none

/-- The iteration of the outer loop in which the machine stands, if it stands in one, began with the last of the recorded indices. -/
def AtPoint (m_pattern : List Char) (s : State) : Prop :=
  match s.pc with
  | .outer | .done => ∀ i ∈ s.heads, i < s.loop.i
  | .inner t | .after t => Scanning m_pattern s.loop.i t ∧ ∀ i ∈ s.heads, i ≤ s.loop.i
  | .thrown => False

structure Inv (m_pattern : List Char) (s : State) : Prop where
  index : s.loop.i ≤ m_pattern.length
  calls : ∀ call ∈ s.calls, call.InRange m_pattern
  heads : s.heads.Pairwise (· < ·)
  point : AtPoint m_pattern s
  rest : rest m_pattern s = outerLoop m_pattern start.loop

/-- The steps that are left: those of the iterations of the outer loop to come, less the ones of the inner loop behind. -/
def measure (m_pattern : List Char) (s : State) : ℕ :=
  let whole := (m_pattern.length + 1 - s.loop.i) * (m_pattern.length + 3)
  match s.pc with
  | .outer => whole
  | .inner t => whole - (t.n - s.loop.i)
  | .after _ => whole - (m_pattern.length + 1)
  | .done | .thrown => 0

theorem start_inv (m_pattern : List Char) : Inv m_pattern start where
  index := Nat.zero_le _
  calls := nofun
  heads := .nil
  point := nofun
  rest := rfl

/-- An iteration of the outer loop is worth more than its inner loop can take. -/
theorem whole_pos {i length : ℕ} (h : i ≤ length) : length + 3 ≤ (length + 1 - i) * (length + 3) :=
  Nat.le_mul_of_pos_left _ (by omega)

theorem whole_lt {i j length : ℕ} (hj : j ≤ length) (h : i < j) :
    (length + 1 - j) * (length + 3) + (length + 3) ≤ (length + 1 - i) * (length + 3) := by
  rw [← Nat.succ_mul]
  exact Nat.mul_le_mul_right _ (by omega)

/-- The next index is behind the present one. -/
theorem finish_index {i : Outer} (h : Scanning m_pattern i.i t) :
    i.i < (finish i t).i ∧ (finish i t).i ≤ m_pattern.length := by
  have hlower := h.lower
  have hupper := h.upper
  simp only [finish]
  split_ifs
  · simp only
    omega
  · simp only
    omega
  · simp only
    omega

/-- A step of the machine keeps the invariant and is one of the steps that were left. -/
structure Advances (m_pattern : List Char) (s s' : State) : Prop where
  inv : Inv m_pattern s'
  lt : measure m_pattern s' < measure m_pattern s

theorem outerLoop_of_lt {loop : Outer} (hi : loop.i < m_pattern.length) :
    outerLoop m_pattern loop = (outerStep m_pattern loop m_pattern[loop.i]).bind (outerLoop m_pattern) := by
  cases hstep : outerStep m_pattern loop m_pattern[loop.i] with
  | none =>
      rw [outerLoop, dif_pos hi]
      split
      · rfl
      · rename_i hsome
        rw [hstep] at hsome
        cases hsome
  | some next => rw [outerLoop_continue hi hstep, Option.bind_some]

theorem advances_outerBody (h : Inv m_pattern s) (hpc : s.pc = .outer) (hi : s.loop.i < m_pattern.length) :
    Advances m_pattern s (outerBody m_pattern s m_pattern[s.loop.i]) := by
  have hpoint := h.point
  have hrest := h.rest
  simp only [AtPoint, hpc] at hpoint
  simp only [rest, hpc] at hrest
  have hheads : (s.heads ++ [s.loop.i]).Pairwise (· < ·) := by
    refine List.pairwise_append.2 ⟨h.heads, List.pairwise_singleton _ _, fun i hmem j hj => ?_⟩
    rw [List.mem_singleton.1 hj]
    exact hpoint i hmem
  have hlater : ∀ i ∈ s.heads ++ [s.loop.i], i ≤ s.loop.i := by
    intro i hmem
    rcases List.mem_append.1 hmem with hmem | hmem
    · exact Nat.le_of_lt (hpoint i hmem)
    · exact Nat.le_of_eq (List.mem_singleton.1 hmem)
  have hwhole := whole_lt (j := s.loop.i + 1) hi (Nat.lt_succ_self s.loop.i)
  -- a character that is copied to `nstr`
  have hcopy : ∀ c', outerStep m_pattern s.loop m_pattern[s.loop.i] =
      some { s.loop with i := s.loop.i + 1, nstr := s.loop.nstr ++ [c'] } →
      Advances m_pattern s { s with
        heads := s.heads ++ [s.loop.i]
        loop := { s.loop with i := s.loop.i + 1, nstr := s.loop.nstr ++ [c'] } } := by
    intro c' hstep
    refine ⟨⟨hi, h.calls, hheads, ?_, ?_⟩, ?_⟩
    · simp only [AtPoint, hpc]
      exact fun i hmem => Nat.lt_succ_of_le (hlater i hmem)
    · simp only [rest, hpc]
      rw [← hrest, outerLoop_continue hi hstep]
    · simp only [measure, hpc]
      omega
  simp only [outerBody]
  split_ifs with hc hdouble
  · exact hcopy _ (by rw [outerStep, if_pos hc])
  · exact hcopy '%' (by rw [outerStep, if_neg hc, if_pos hdouble])
  · refine ⟨⟨h.index, h.calls, hheads, ⟨⟨Nat.le_refl _, hi, .inl rfl, by simp⟩, hlater⟩, ?_⟩, ?_⟩
    · rw [← hrest, outerLoop_of_lt hi, outerStep, if_neg hc, if_neg hdouble]
      rfl
    · have := whole_pos h.index
      simp only [measure, State.goto, hpc]
      omega

theorem advances_innerBody (h : Inv m_pattern s) (hpc : s.pc = .inner t) (hn : t.n < m_pattern.length) :
    Advances m_pattern s (innerBody m_pattern s t m_pattern[t.n]) := by
  have hpoint := h.point
  have hrest := h.rest
  simp only [AtPoint, hpc] at hpoint
  simp only [rest, hpc] at hrest
  obtain ⟨hscanning, hheads⟩ := hpoint
  obtain ⟨brk, t', hstep, hpc', hrecords, hscanning', hcontinue⟩ := innerBody_eq hscanning hn m_pattern[t.n]
  have hwhole := whole_pos h.index
  have hupper := hscanning'.upper
  have hlower := hscanning.lower
  refine ⟨⟨hrecords.loop ▸ h.index, fun call hcall => ?_, hrecords.heads ▸ h.heads, ?_, ?_⟩, ?_⟩
  · exact (hrecords.calls call hcall).elim (h.calls call) id
  · cases brk <;> simp only [AtPoint, hpc', if_true, Bool.false_eq_true, if_false, hrecords.loop, hrecords.heads] <;>
      exact ⟨hscanning', hheads⟩
  · rw [← hrest]
    cases brk with
    | true =>
        rw [innerLoop_break hn hstep]
        simp [rest, hpc', hrecords.loop]
    | false =>
        rw [innerLoop_continue hn hstep]
        simp [rest, hpc', hrecords.loop]
  · cases brk with
    | true =>
        simp only [measure, hpc, hpc', if_true, hrecords.loop]
        omega
    | false =>
        have hn' := hcontinue rfl
        simp only [measure, hpc, hpc', Bool.false_eq_true, if_false, hrecords.loop]
        omega

theorem advances_after (h : Inv m_pattern s) (hpc : s.pc = .after t) : Advances m_pattern s (afterBody m_pattern s t) := by
  have hpoint := h.point
  have hrest := h.rest
  simp only [AtPoint, hpc] at hpoint
  simp only [rest, hpc] at hrest
  obtain ⟨hscanning, hheads⟩ := hpoint
  obtain ⟨hlt, hle⟩ := finish_index hscanning
  have hwhole := whole_lt hle hlt
  have hnext : ∀ calls, (∀ call ∈ calls, call.InRange m_pattern) →
      Advances m_pattern s { s with pc := .outer, loop := finish s.loop t, calls := calls } := by
    intro calls hcalls
    refine ⟨⟨hle, hcalls, h.heads, fun i hi => Nat.lt_of_le_of_lt (hheads i hi) hlt, hrest⟩, ?_⟩
    simp only [measure, hpc]
    omega
  simp only [afterBody]
  split_ifs
  · obtain ⟨str, -, hrange, hcall⟩ := substr_upTo m_pattern h.index h.index
    rw [hcall]
    refine hnext _ fun call hmem => ?_
    rcases List.mem_append.1 hmem with hold | hnew
    · exact h.calls call hold
    · exact List.mem_singleton.1 hnew ▸ hrange
  · exact hnext s.calls h.calls

theorem step_advances {s' : State} (h : Inv m_pattern s) (hstep : step m_pattern s = some s') : Advances m_pattern s s' := by
  cases hpc : s.pc with
  | outer =>
      simp only [step, hpc] at hstep
      by_cases hi : s.loop.i < m_pattern.length
      · rw [List.getElem?_eq_getElem hi] at hstep
        cases hstep
        exact advances_outerBody h hpc hi
      · rw [List.getElem?_eq_none (Nat.le_of_not_lt hi)] at hstep
        cases hstep
        have hwhole := whole_pos h.index
        have hpoint := h.point
        have hrest := h.rest
        simp only [AtPoint, hpc] at hpoint
        simp only [rest, hpc] at hrest
        refine ⟨⟨h.index, h.calls, h.heads, hpoint, ?_⟩, ?_⟩
        · rw [← hrest, outerLoop, dif_neg hi]
          rfl
        · simp only [measure, State.goto, hpc]
          omega
  | inner t =>
      simp only [step, hpc] at hstep
      by_cases hn : t.n < m_pattern.length
      · rw [List.getElem?_eq_getElem hn] at hstep
        cases hstep
        exact advances_innerBody h hpc hn
      · rw [List.getElem?_eq_none (Nat.le_of_not_lt hn)] at hstep
        cases hstep
        have hwhole := whole_pos h.index
        have hpoint := h.point
        have hrest := h.rest
        simp only [AtPoint, hpc] at hpoint
        simp only [rest, hpc] at hrest
        have hupper := hpoint.1.upper
        refine ⟨⟨h.index, h.calls, h.heads, hpoint, ?_⟩, ?_⟩
        · rw [← hrest, innerLoop, dif_neg hn]
          rfl
        · simp only [measure, State.goto, hpc]
          omega
  | after t =>
      simp only [step, hpc] at hstep
      cases hstep
      exact advances_after h hpc
  | done | thrown =>
      simp only [step, hpc] at hstep
      cases hstep

/-! ### Every pattern -/

/-- `init` reads every pattern to its end: both loops end within so many steps, no call of `substr` is out of range, the outer loop begins each iteration further on than the one before, and the items are made of what it has read. -/
theorem init_terminates (m_pattern : List Char) :
    ∃ t, HaltsIn (step m_pattern) start ((m_pattern.length + 1) * (m_pattern.length + 3)) t ∧ t.pc = .done ∧
      (∀ call ∈ t.calls, call.InRange m_pattern) ∧ t.heads.Pairwise (· < ·) ∧
      init m_pattern = some (items t.loop) := by
  obtain ⟨t, hhalts, ht⟩ := halts_of_measure (fun s s' hs hstep => (step_advances hs hstep).inv)
    (fun s s' hs hstep => (step_advances hs hstep).lt) (start_inv m_pattern)
  have hdone : t.pc = .done := by
    have hhalted := hhalts.2
    have hpoint := ht.point
    simp only [step] at hhalted
    split at hhalted
    · split at hhalted <;> cases hhalted
    · split at hhalted <;> cases hhalted
    · cases hhalted
    · assumption
    · rename_i hthrown
      simp only [AtPoint, hthrown] at hpoint
  have hread : outerLoop m_pattern start.loop = some t.loop := by rw [← ht.rest, rest, hdone]
  exact ⟨t, hhalts, hdone, ht.calls, ht.heads, congrArg (Option.map items) hread⟩

end

end Awcotn.LogFormatter.Scan
