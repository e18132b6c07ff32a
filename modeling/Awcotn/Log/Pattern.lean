import Awcotn.Log.Formatter

/-!
# The grammar of log patterns

A pattern is written from a list of tokens, with the percent signs of literal texts doubled. What `LogFormatter::init` reads from a pattern is first restated without positions, as a scanner of the characters that are left; it reads back what was written exactly if no literal has a percent sign, because a doubled percent sign is looked at twice.
-/

namespace Awcotn.LogFormatter

/-! ### The scanner without positions -/

/-- The argument of a specifier up to the closing brace, and what follows it. -/
def argument : List Char → List Char → Option (List Char × List Char)
  | _, [] => none
  | fmt, c :: rest => if c = '}' then some (fmt, rest) else argument (fmt ++ [c]) rest

/-- The key and the argument of a specifier, and what follows them; nothing where a brace is not closed. -/
def specifier : List Char → List Char → Option (List Char × List Char × List Char)
  | str, [] => some (str, [], [])
  | str, c :: rest =>
    if isalpha c = false ∧ c ≠ '{' ∧ c ≠ '}' then some (str, [], c :: rest)
    else if c = '{' then (argument [] rest).map fun (fmt, rest) => (str, fmt, rest)
    else specifier (str ++ [c]) rest

theorem length_argument {fmt rest fmt' rest' : List Char} (h : argument fmt rest = some (fmt', rest')) :
    rest'.length ≤ rest.length := by
  induction rest generalizing fmt with
  | nil => cases h
  | cons c rest ih =>
      simp only [argument] at h
      split_ifs at h
      · cases h
        exact Nat.le_succ _
      · exact Nat.le_trans (ih h) (Nat.le_succ _)

theorem length_specifier {str rest str' fmt rest' : List Char} (h : specifier str rest = some (str', fmt, rest')) :
    rest'.length ≤ rest.length := by
  induction rest generalizing str with
  | nil =>
      cases h
      exact Nat.le_refl _
  | cons c rest ih =>
      simp only [specifier] at h
      split_ifs at h
      · cases h
        exact Nat.le_refl _
      · obtain ⟨⟨fmt', rest''⟩, harg, heq⟩ := Option.map_eq_some_iff.1 h
        cases heq
        exact Nat.le_trans (length_argument harg) (Nat.le_succ _)
      · exact Nat.le_trans (ih h) (Nat.le_succ _)

/-- The elements of `vec` still to come, and whether an error is still to come. -/
def scan (nstr : List Char) : List Char → List Entry × Bool
  | [] => (literal nstr, false)
  | c :: rest =>
    if c ≠ '%' then scan (nstr ++ [c]) rest
    else if rest.head? = some '%' then scan (nstr ++ ['%']) rest
    else
      match _h : specifier [] rest with
      | some (str, fmt, rest') =>
        (literal nstr ++ (str, fmt, 1) :: (scan [] rest').1, (scan [] rest').2)
      | none => ((patternError, [], 0) :: (scan nstr rest).1, true)
termination_by rest => rest.length
decreasing_by
  all_goals simp only [List.length_cons]
  · omega
  · omega
  · have := length_specifier _h
    omega
  · omega

/-! ### The loops are the scanner -/

/-- The characters of a pattern from one position up to another. -/
def slice (m_pattern : List Char) (start stop : ℕ) : List Char := (m_pattern.drop start).take (stop - start)

theorem substr_eq (m_pattern : List Char) {start stop : ℕ} (hstart : start ≤ m_pattern.length) (hstop : start ≤ stop) :
    substr m_pattern start stop = some (slice m_pattern start stop) := if_pos ⟨hstart, hstop⟩

theorem slice_self (m_pattern : List Char) (start : ℕ) : slice m_pattern start start = [] := by
  simp [slice]

theorem slice_length (m_pattern : List Char) (start : ℕ) :
    slice m_pattern start m_pattern.length = m_pattern.drop start := by
  rw [slice, List.take_of_length_le (by simp)]

/-- What is left of a pattern begins with the character at its position. -/
theorem of_drop_eq_cons {m_pattern : List Char} {n : ℕ} {c : Char} {rest : List Char}
    (h : m_pattern.drop n = c :: rest) :
    ∃ hn : n < m_pattern.length, m_pattern[n] = c ∧ m_pattern.drop (n + 1) = rest := by
  have hn : n < m_pattern.length := by
    by_contra hn
    rw [List.drop_of_length_le (by omega)] at h
    cases h
  rw [List.drop_eq_getElem_cons hn, List.cons.injEq] at h
  exact ⟨hn, h⟩

theorem slice_succ {m_pattern : List Char} {start n : ℕ} (hstart : start ≤ n) (hn : n < m_pattern.length) :
    slice m_pattern start (n + 1) = slice m_pattern start n ++ [m_pattern[n]] := by
  have hlen : n - start < (m_pattern.drop start).length := by
    rw [List.length_drop]
    omega
  rw [slice, slice, show n + 1 - start = n - start + 1 by omega, List.take_succ_eq_append_getElem hlen,
    List.getElem_drop]
  simp only [show start + (n - start) = n by omega]

theorem innerLoop_end {m_pattern : List Char} {i : ℕ} {s : Inner} (h : m_pattern.drop s.n = []) :
    innerLoop m_pattern i s = some s := by
  rw [innerLoop, dif_neg (by simpa using h)]

/-- One round of the inner loop. -/
theorem innerLoop_of_lt {m_pattern : List Char} {i : ℕ} {s : Inner} (hn : s.n < m_pattern.length) :
    innerLoop m_pattern i s = (innerStep m_pattern i s m_pattern[s.n]).bind fun r =>
      if r.1 then some r.2 else innerLoop m_pattern i r.2 := by
  rw [innerLoop, dif_pos hn]
  split <;> next heq => simp [heq]

theorem innerLoop_break {m_pattern : List Char} {i : ℕ} {s t : Inner} (hn : s.n < m_pattern.length)
    (hstep : innerStep m_pattern i s m_pattern[s.n] = some (true, t)) : innerLoop m_pattern i s = some t := by
  rw [innerLoop_of_lt hn, hstep, Option.bind_some, if_pos rfl]

theorem innerLoop_continue {m_pattern : List Char} {i : ℕ} {s t : Inner} (hn : s.n < m_pattern.length)
    (hstep : innerStep m_pattern i s m_pattern[s.n] = some (false, t)) :
    innerLoop m_pattern i s = innerLoop m_pattern i t := by
  rw [innerLoop_of_lt hn, hstep, Option.bind_some, if_neg Bool.false_ne_true]

theorem advance_eq {m_pattern : List Char} {i : ℕ} (hi : i < m_pattern.length) (s : Inner) :
    ∃ str, advance m_pattern i s = some { s with n := s.n + 1, str := str } ∧
      (s.n + 1 < m_pattern.length → str = s.str) ∧
      (s.n + 1 = m_pattern.length → s.str = [] → str = m_pattern.drop (i + 1)) := by
  by_cases hlast : s.n + 1 = m_pattern.length ∧ s.str = []
  · refine ⟨m_pattern.drop (i + 1), ?_, fun h => absurd hlast.1 (by omega), fun _ _ => rfl⟩
    simp [advance, if_pos hlast, substr_eq m_pattern hi hi, slice_length]
  · exact ⟨s.str, if_neg hlast, fun _ => rfl, fun h hstr => absurd ⟨h, hstr⟩ hlast⟩

/-- Inside braces the inner loop looks for the closing one. -/
theorem innerLoop_argument {m_pattern : List Char} {i : ℕ} (rest : List Char) {s : Inner} (hstatus : s.fmt_status = 1)
    (hfmt : s.fmt = []) (hbegin : s.fmt_begin < s.n) (hi : i < m_pattern.length) (hrest : m_pattern.drop s.n = rest) :
    ∃ t, innerLoop m_pattern i s = some t ∧
      match argument (slice m_pattern (s.fmt_begin + 1) s.n) rest with
      | some (fmt, rest') => t.fmt_status = 0 ∧ t.str = s.str ∧ t.fmt = fmt ∧ m_pattern.drop t.n = rest'
      | none => t.fmt_status = 1 ∧ t.fmt = [] := by
  induction rest generalizing s with
  | nil => exact ⟨s, innerLoop_end hrest, hstatus, hfmt⟩
  | cons c rest ih =>
      obtain ⟨hn, hc, hrest'⟩ := of_drop_eq_cons hrest
      simp only [argument]
      split_ifs with hclose
      · have hslice := substr_eq m_pattern (show s.fmt_begin + 1 ≤ m_pattern.length by omega) (show s.fmt_begin + 1 ≤ s.n by omega)
        refine ⟨_, innerLoop_break hn (t := { s with
          fmt := slice m_pattern (s.fmt_begin + 1) s.n, fmt_status := 0, n := s.n + 1 }) ?_, rfl, rfl, rfl, hrest'⟩
        simp [innerStep, hstatus, hc, hclose, hslice]
      · obtain ⟨str, hadvance, hkept, -⟩ := advance_eq hi s
        have hstep : innerStep m_pattern i s m_pattern[s.n] = some (false, { s with n := s.n + 1, str := str }) := by
          simp [innerStep, hstatus, hc, hclose, hadvance]
        rw [innerLoop_continue hn hstep, ← hc, ← slice_succ (by omega) hn]
        obtain ⟨t, ht, hresult⟩ := ih (s := { s with n := s.n + 1, str := str }) hstatus hfmt (by simp only; omega) hrest'
        refine ⟨t, ht, ?_⟩
        split at hresult
        · rename_i fmt rest'' harg
          simp only [harg]
          have hmore : s.n + 1 < m_pattern.length := by
            by_contra hlast
            rw [List.drop_of_length_le (by omega)] at hrest'
            simp [← hrest', argument] at harg
          exact ⟨hresult.1, hresult.2.1.trans (hkept hmore), hresult.2.2⟩
        · rename_i harg
          simp only [harg]
          exact hresult

/-- Before a brace the inner loop reads the key. -/
theorem innerLoop_specifier (m_pattern : List Char) (i : ℕ) (rest : List Char) {s : Inner} (hstatus : s.fmt_status = 0)
    (hfmt : s.fmt = []) (hbegin : i < s.n) (hle : s.n ≤ m_pattern.length) (hrest : m_pattern.drop s.n = rest)
    (hstr : s.str = if s.n = m_pattern.length then slice m_pattern (i + 1) s.n else []) :
    ∃ t, innerLoop m_pattern i s = some t ∧
      match specifier (slice m_pattern (i + 1) s.n) rest with
      | some (str, fmt, rest') => t.fmt_status = 0 ∧ t.str = str ∧ t.fmt = fmt ∧ m_pattern.drop t.n = rest'
      | none => t.fmt_status = 1 ∧ t.fmt = [] := by
  induction rest generalizing s with
  | nil =>
      have hend : s.n = m_pattern.length := Nat.le_antisymm hle (by simpa using hrest)
      exact ⟨s, innerLoop_end hrest, hstatus, hstr.trans (if_pos hend), hfmt, hrest⟩
  | cons c rest ih =>
      obtain ⟨hn, hc, hrest'⟩ := of_drop_eq_cons hrest
      have hi : i < m_pattern.length := by omega
      have hslice := substr_eq m_pattern (show i + 1 ≤ m_pattern.length from hi) hbegin
      simp only [specifier]
      split_ifs with hother hopen
      · refine ⟨_, innerLoop_break hn (t := { s with str := slice m_pattern (i + 1) s.n }) ?_, hstatus, rfl, hfmt, hrest⟩
        simp [innerStep, hstatus, hc, hother, hslice]
      · have hstep : innerStep m_pattern i s m_pattern[s.n] = some (false, { s with
            str := slice m_pattern (i + 1) s.n, fmt_status := 1, fmt_begin := s.n, n := s.n + 1 }) := by
          simp [innerStep, hstatus, hc, hopen, hslice]
        rw [innerLoop_continue hn hstep]
        obtain ⟨t, ht, hresult⟩ := innerLoop_argument rest (i := i) (s := { s with
            str := slice m_pattern (i + 1) s.n, fmt_status := 1, fmt_begin := s.n, n := s.n + 1 }) rfl hfmt
          (Nat.lt_succ_self _) hi hrest'
        refine ⟨t, ht, ?_⟩
        simp only [slice_self] at hresult
        cases harg : argument [] rest with
        | none => simpa [harg] using hresult
        | some r => simpa [harg] using hresult
      · obtain ⟨str, hadvance, hkept, hlast⟩ := advance_eq hi s
        have hstep : innerStep m_pattern i s m_pattern[s.n] = some (false, { s with n := s.n + 1, str := str }) := by
          have hkey : isalpha c = false → c = '}' := fun halpha => by_contra fun hclose => hother ⟨halpha, hopen, hclose⟩
          simpa [innerStep, hstatus, hc, hopen, hadvance] using hkey
        rw [innerLoop_continue hn hstep, ← hc, ← slice_succ (by omega) hn]
        refine ih (s := { s with n := s.n + 1, str := str }) hstatus hfmt (Nat.lt_succ_of_lt hbegin) hn hrest' ?_
        have hempty : s.str = [] := by rw [hstr, if_neg (by omega)]
        split_ifs with hend
        · simp only at hend ⊢
          rw [hlast hend hempty, hend, slice_length]
        · simp only at hend ⊢
          rw [hkept (by omega), hempty]

theorem outerLoop_continue {m_pattern : List Char} {s t : Outer} (hi : s.i < m_pattern.length)
    (hstep : outerStep m_pattern s m_pattern[s.i] = some t) : outerLoop m_pattern s = outerLoop m_pattern t := by
  rw [outerLoop, dif_pos hi]
  split <;> next heq => simp_all

/-- At a percent sign that no other follows, the inner loop reads a specifier. -/
theorem innerLoop_start {m_pattern : List Char} {s : Outer} {rest : List Char} (hi : s.i < m_pattern.length)
    (hrest : m_pattern.drop (s.i + 1) = rest) :
    ∃ t, innerLoop m_pattern s.i { n := s.i + 1, fmt_status := 0, fmt_begin := 0, fmt := [], str := [] } = some t ∧
      s.i < t.n ∧
      match specifier [] rest with
      | some (str, fmt, rest') => t.fmt_status = 0 ∧ t.str = str ∧ t.fmt = fmt ∧ m_pattern.drop t.n = rest'
      | none => t.fmt_status = 1 ∧ t.fmt = [] := by
  obtain ⟨t, ht, hresult⟩ := innerLoop_specifier m_pattern s.i rest
    (s := { n := s.i + 1, fmt_status := 0, fmt_begin := 0, fmt := [], str := [] }) rfl rfl (Nat.lt_succ_self _) hi hrest
    (by simp [slice_self])
  rw [slice_self] at hresult
  exact ⟨t, ht, le_of_innerLoop ht, hresult⟩

/-- The outer loop collects what the scanner yields. -/
theorem outerLoop_eq (m_pattern nstr rest : List Char) {s : Outer} (hnstr : s.nstr = nstr)
    (hrest : m_pattern.drop s.i = rest) :
    ∃ t, outerLoop m_pattern s = some t ∧ t.vec ++ literal t.nstr = s.vec ++ (scan nstr rest).1 ∧
      t.m_error = (s.m_error || (scan nstr rest).2) := by
  fun_induction scan nstr rest generalizing s with
  | case1 nstr =>
      refine ⟨s, ?_, by rw [hnstr], (Bool.or_false _).symm⟩
      rw [outerLoop, dif_neg (by simpa using hrest)]
  | case2 nstr c rest hc ih =>
      obtain ⟨hi, hat, hrest'⟩ := of_drop_eq_cons hrest
      rw [outerLoop_continue hi (t := { s with i := s.i + 1, nstr := s.nstr ++ [c] }) (by simp [outerStep, hat, hc])]
      exact ih (by simp [hnstr]) hrest'
  | case3 nstr c rest hc hhead ih =>
      obtain ⟨hi, hat, hrest'⟩ := of_drop_eq_cons hrest
      have hnext : m_pattern[s.i + 1]? = some '%' := by rw [← List.head?_drop, hrest', hhead]
      rw [outerLoop_continue hi (t := { s with i := s.i + 1, nstr := s.nstr ++ ['%'] })
        (by simp [outerStep, hat, hc, hnext])]
      exact ih (by simp [hnstr]) hrest'
  | case4 nstr c rest hc hhead str fmt rest' hspec ih =>
      obtain ⟨hi, hat, hrest'⟩ := of_drop_eq_cons hrest
      have hnext : m_pattern[s.i + 1]? ≠ some '%' := by rwa [← List.head?_drop, hrest']
      obtain ⟨t, ht, hlt, hresult⟩ := innerLoop_start hi hrest'
      simp only [hspec] at hresult
      obtain ⟨hstatus, rfl, rfl, hdrop⟩ := hresult
      have hback : t.n - 1 + 1 = t.n := by omega
      have hstep : outerStep m_pattern s m_pattern[s.i] = some
          { s with i := t.n, nstr := [], vec := s.vec ++ literal s.nstr ++ [(t.str, t.fmt, 1)] } := by
        simp [outerStep, hat, hc, hnext, ht, hstatus, hback]
      rw [outerLoop_continue hi hstep]
      obtain ⟨u, hu, hvec, herror⟩ := ih (s := { s with
        i := t.n, nstr := [], vec := s.vec ++ literal s.nstr ++ [(t.str, t.fmt, 1)] }) rfl hdrop
      exact ⟨u, hu, by simpa [hnstr] using hvec, herror⟩
  | case5 nstr c rest hc hhead hspec ih =>
      obtain ⟨hi, hat, hrest'⟩ := of_drop_eq_cons hrest
      have hnext : m_pattern[s.i + 1]? ≠ some '%' := by rwa [← List.head?_drop, hrest']
      obtain ⟨t, ht, -, hresult⟩ := innerLoop_start hi hrest'
      simp only [hspec] at hresult
      obtain ⟨hstatus, hfmt⟩ := hresult
      have hstep : outerStep m_pattern s m_pattern[s.i] = some
          { s with i := s.i + 1, vec := s.vec ++ [(patternError, [], 0)], m_error := true } := by
        simp [outerStep, hat, hc, hnext, ht, hstatus, hfmt]
      rw [outerLoop_continue hi hstep]
      obtain ⟨u, hu, hvec, herror⟩ := ih (s := { s with
        i := s.i + 1, vec := s.vec ++ [(patternError, [], 0)], m_error := true }) hnstr hrest'
      exact ⟨u, hu, by simpa using hvec, by simpa using herror⟩

/-- `init` builds the items of what the scanner yields, and it never fails. -/
theorem init_eq (m_pattern : List Char) : init m_pattern = some
    ((scan [] m_pattern).1.map fun i => (formatItem i).1,
      (scan [] m_pattern).2 || (scan [] m_pattern).1.any fun i => (formatItem i).2) := by
  obtain ⟨t, ht, hvec, herror⟩ := outerLoop_eq m_pattern [] m_pattern
    (s := { i := 0, nstr := [], vec := [], m_error := false }) rfl rfl
  simp only [List.nil_append, Bool.false_or] at hvec herror
  simp only [init, ht, Option.map_some, hvec, herror]

end Awcotn.LogFormatter
