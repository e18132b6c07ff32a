import Mathlib.Data.List.Basic
import Mathlib.Tactic.Common

/-!
# Log patterns

`LogFormatter::init` of `log.cc`: two nested loops over the positions of the pattern, and the table of the format items. Strings are lists of characters. `substr` returns nothing where the source would throw or where the length it computes would wrap around.
-/

namespace Awcotn

/-- The classes of the table `s_format_items`. -/
inductive FormatClass
  | MessageFormatItem
  | LevelFormatItem
  | ElapseFormatItem
  | NameFormatItem
  | ThreadFormatItem
  | NewLineFormatItem
  | DateTimeFormatItem
  | FilenameFormatItem
  | LineFormatItem
  | TabFormatItem
  | FiberFormatItem
  | ThreadNameFormatItem
  deriving DecidableEq

/-- A `FormatItem`: a literal text, or an object of a class of the table constructed with an argument. -/
inductive FormatItem
  | StringFormatItem (str : List Char)
  | item (class_ : FormatClass) (fmt : List Char)
  deriving DecidableEq

namespace LogFormatter

/-- The table from keys to classes. -/
def s_format_items : List (Char × FormatClass) :=
  [('m', .MessageFormatItem), ('p', .LevelFormatItem), ('r', .ElapseFormatItem), ('c', .NameFormatItem),
    ('t', .ThreadFormatItem), ('n', .NewLineFormatItem), ('d', .DateTimeFormatItem), ('f', .FilenameFormatItem),
    ('l', .LineFormatItem), ('T', .TabFormatItem), ('F', .FiberFormatItem), ('N', .ThreadNameFormatItem)]

/-- The lookup in the table; every key has one character. -/
def findItem (str : List Char) : Option FormatClass :=
  (s_format_items.find? fun entry => [entry.1] == str).map Prod.snd

def isalpha (c : Char) : Bool := c.isAlpha

/-- `m_pattern.substr(start, stop - start)`. -/
def substr (m_pattern : List Char) (start stop : ℕ) : Option (List Char) :=
  if start ≤ m_pattern.length ∧ start ≤ stop then some ((m_pattern.drop start).take (stop - start)) else none

/-- An element of `vec`: the text or key, the argument, and 1 for a key. -/
abbrev Entry := List Char × List Char × ℕ

/-- The variables of the inner loop. -/
structure Inner where
  n : ℕ
  fmt_status : ℕ
  fmt_begin : ℕ
  fmt : List Char
  str : List Char
  deriving DecidableEq

/-- The end of an iteration of the inner loop that neither breaks nor continues. -/
def advance (m_pattern : List Char) (i : ℕ) (s : Inner) : Option Inner :=
  if s.n + 1 = m_pattern.length ∧ s.str = [] then
    (substr m_pattern (i + 1) m_pattern.length).map fun str => { s with n := s.n + 1, str := str }
  else some { s with n := s.n + 1 }

/-- One iteration of the inner loop; the flag says that it breaks. -/
def innerStep (m_pattern : List Char) (i : ℕ) (s : Inner) (c : Char) : Option (Bool × Inner) :=
  if s.fmt_status = 0 ∧ isalpha c = false ∧ c ≠ '{' ∧ c ≠ '}' then
    (substr m_pattern (i + 1) s.n).map fun str => (true, { s with str := str })
  else if s.fmt_status = 0 then
    if c = '{' then
      (substr m_pattern (i + 1) s.n).map fun str =>
        (false, { s with str := str, fmt_status := 1, fmt_begin := s.n, n := s.n + 1 })
    else (advance m_pattern i s).map fun s => (false, s)
  else if s.fmt_status = 1 ∧ c = '}' then
    (substr m_pattern (s.fmt_begin + 1) s.n).map fun fmt => (true, { s with fmt := fmt, fmt_status := 0, n := s.n + 1 })
  else (advance m_pattern i s).map fun s => (false, s)

theorem lt_of_advance {m_pattern : List Char} {i : ℕ} {s s' : Inner} (h : advance m_pattern i s = some s') :
    s'.n = s.n + 1 := by
  simp only [advance] at h
  split_ifs at h
  · obtain ⟨str, -, rfl⟩ := Option.map_eq_some_iff.1 h
    rfl
  · cases h
    rfl

/-- An iteration that does not break goes on with the next character. -/
theorem n_of_innerStep {m_pattern : List Char} {i : ℕ} {s s' : Inner} {c : Char}
    (h : innerStep m_pattern i s c = some (false, s')) : s'.n = s.n + 1 := by
  simp only [innerStep] at h
  split_ifs at h
  · obtain ⟨str, -, h⟩ := Option.map_eq_some_iff.1 h
    cases h
  · obtain ⟨str, -, h⟩ := Option.map_eq_some_iff.1 h
    cases h
    rfl
  · obtain ⟨t, ht, h⟩ := Option.map_eq_some_iff.1 h
    cases h
    exact lt_of_advance ht
  · obtain ⟨str, -, h⟩ := Option.map_eq_some_iff.1 h
    cases h
  · obtain ⟨t, ht, h⟩ := Option.map_eq_some_iff.1 h
    cases h
    exact lt_of_advance ht

/-- The inner loop, from the character after the percent sign at `i`. -/
def innerLoop (m_pattern : List Char) (i : ℕ) (s : Inner) : Option Inner :=
  if hn : s.n < m_pattern.length then
    match hstep : innerStep m_pattern i s m_pattern[s.n] with
    | none => none
    | some (true, s') => some s'
    | some (false, s') => innerLoop m_pattern i s'
  else some s
termination_by m_pattern.length - s.n
decreasing_by
  have := n_of_innerStep hstep
  omega

/-- The variables of the outer loop. -/
structure Outer where
  i : ℕ
  nstr : List Char
  vec : List Entry
  m_error : Bool
  deriving DecidableEq

/-- `nstr` as an element of `vec`, unless it is empty. -/
def literal (nstr : List Char) : List Entry := if nstr = [] then [] else [(nstr, [], 0)]

def patternError : List Char := "<<pattern_error>>".toList

def errorFormat (str : List Char) : List Char := "<<error_format %".toList ++ str ++ ">>".toList

/-- One iteration of the outer loop, with the `i++` at its end. -/
def outerStep (m_pattern : List Char) (s : Outer) (c : Char) : Option Outer :=
  if c ≠ '%' then some { s with i := s.i + 1, nstr := s.nstr ++ [c] }
  else if m_pattern[s.i + 1]? = some '%' then some { s with i := s.i + 1, nstr := s.nstr ++ ['%'] }
  else
    (innerLoop m_pattern s.i { n := s.i + 1, fmt_status := 0, fmt_begin := 0, fmt := [], str := [] }).map fun t =>
      if t.fmt_status = 0 then
        { s with i := t.n - 1 + 1, nstr := [], vec := s.vec ++ literal s.nstr ++ [(t.str, t.fmt, 1)] }
      else if t.fmt_status = 1 then
        { s with i := s.i + 1, vec := s.vec ++ [(patternError, t.fmt, 0)], m_error := true }
      else { s with i := s.i + 1 }

theorem le_of_innerLoop {m_pattern : List Char} {i : ℕ} {s s' : Inner} (h : innerLoop m_pattern i s = some s') :
    s.n ≤ s'.n := by
  fun_induction innerLoop m_pattern i s with
  | case1 s hn hnone => cases h
  | case2 s hn t hstep =>
      cases h
      simp only [innerStep] at hstep
      split_ifs at hstep
      · obtain ⟨str, -, hstep⟩ := Option.map_eq_some_iff.1 hstep
        cases hstep
        exact Nat.le_refl _
      · obtain ⟨str, -, hstep⟩ := Option.map_eq_some_iff.1 hstep
        cases hstep
      · obtain ⟨t, -, hstep⟩ := Option.map_eq_some_iff.1 hstep
        cases hstep
      · obtain ⟨str, -, hstep⟩ := Option.map_eq_some_iff.1 hstep
        cases hstep
        exact Nat.le_succ _
      · obtain ⟨t, -, hstep⟩ := Option.map_eq_some_iff.1 hstep
        cases hstep
  | case3 s hn t hstep ih =>
      have := n_of_innerStep hstep
      have := ih h
      omega
  | case4 s hn =>
      cases h
      exact Nat.le_refl _

/-- The index of the outer loop increases in every iteration, also where it is set back to `n - 1`. -/
theorem lt_of_outerStep {m_pattern : List Char} {s s' : Outer} {c : Char} (h : outerStep m_pattern s c = some s') :
    s.i < s'.i := by
  simp only [outerStep] at h
  split_ifs at h
  · cases h
    exact Nat.lt_succ_self _
  · cases h
    exact Nat.lt_succ_self _
  · obtain ⟨t, ht, rfl⟩ := Option.map_eq_some_iff.1 h
    have hle := le_of_innerLoop ht
    simp only at hle
    split_ifs
    · show s.i < t.n - 1 + 1
      omega
    · exact Nat.lt_succ_self _
    · exact Nat.lt_succ_self _

/-- The outer loop. -/
def outerLoop (m_pattern : List Char) (s : Outer) : Option Outer :=
  if hi : s.i < m_pattern.length then
    match hstep : outerStep m_pattern s m_pattern[s.i] with
    | none => none
    | some s' => outerLoop m_pattern s'
  else some s
termination_by m_pattern.length - s.i
decreasing_by
  have := lt_of_outerStep hstep
  omega

/-- The item of an element of `vec`, and whether it is an error. -/
def formatItem : Entry → FormatItem × Bool
  | (str, fmt, type) =>
    if type = 0 then (.StringFormatItem str, false)
    else
      match findItem str with
      | none => (.StringFormatItem (errorFormat str), true)
      | some class_ => (.item class_ fmt, false)

/-- `LogFormatter::init`: `m_items` and `m_error`. -/
def init (m_pattern : List Char) : Option (List FormatItem × Bool) :=
  (outerLoop m_pattern { i := 0, nstr := [], vec := [], m_error := false }).map fun s =>
    let vec := s.vec ++ literal s.nstr
    (vec.map fun i => (formatItem i).1, s.m_error || vec.any fun i => (formatItem i).2)

end LogFormatter

end Awcotn
