import Awcotn.Log.Pattern

/-!
# What the log pattern grammar promises

Patterns as lists of tokens: literal texts and specifiers with or without an argument. `init_write_iff` says for which token lists the pattern written from them is read back as the same items: those whose literals have no percent sign.
-/

namespace Awcotn.LogFormatter

/-- A literal text, or a specifier `%k` or `%k{arg}`. -/
inductive Token
  | literal (text : List Char)
  | specifier (key : FormatClass) (arg : Option (List Char))
  deriving DecidableEq

/-- The key of a class in the table. -/
def letter : FormatClass → Char
  | .MessageFormatItem => 'm'
  | .LevelFormatItem => 'p'
  | .ElapseFormatItem => 'r'
  | .NameFormatItem => 'c'
  | .ThreadFormatItem => 't'
  | .NewLineFormatItem => 'n'
  | .DateTimeFormatItem => 'd'
  | .FilenameFormatItem => 'f'
  | .LineFormatItem => 'l'
  | .TabFormatItem => 'T'
  | .FiberFormatItem => 'F'
  | .ThreadNameFormatItem => 'N'

theorem findItem_letter (key : FormatClass) : findItem [letter key] = some key := by
  cases key <;> rfl

theorem isalpha_letter (key : FormatClass) : isalpha (letter key) = true := by
  cases key <;> rfl

/-- Double every percent sign. -/
def escape (text : List Char) : List Char := text.flatMap fun c => if c = '%' then ['%', '%'] else [c]

def Token.write : Token → List Char
  | .literal text => escape text
  | .specifier key none => ['%', letter key]
  | .specifier key (some arg) => '%' :: letter key :: '{' :: arg ++ ['}']

/-- The pattern of a token list. -/
def write (tokens : List Token) : List Char := tokens.flatMap Token.write

/-- A text that does not continue the key of a specifier before it. -/
def Separated : List Token → Prop
  | .literal (c :: _) :: _ => isalpha c = false ∧ c ≠ '{' ∧ c ≠ '}'
  | _ => True

/-- The token lists of the grammar: literals are not empty, arguments have no closing brace, and a specifier without an argument is not followed by a text that would continue its key. -/
def Valid : List Token → Prop
  | [] => True
  | .literal text :: tokens => text ≠ [] ∧ Valid tokens
  | .specifier _ none :: tokens => Separated tokens ∧ Valid tokens
  | .specifier _ (some arg) :: tokens => '}' ∉ arg ∧ Valid tokens

/-- The text collected so far as an item, unless it is empty. -/
def text (nstr : List Char) : List FormatItem := if nstr = [] then [] else [.StringFormatItem nstr]

/-- The items of a token list, after a text that has been collected already; adjacent literals are merged. -/
def itemsFrom (nstr : List Char) : List Token → List FormatItem
  | [] => text nstr
  | .literal t :: tokens => itemsFrom (nstr ++ t) tokens
  | .specifier key arg :: tokens => text nstr ++ .item key (arg.getD []) :: itemsFrom [] tokens

def items (tokens : List Token) : List FormatItem := itemsFrom [] tokens

/-! ### Steps of the scanner -/

theorem scan_char (nstr rest : List Char) {c : Char} (h : c ≠ '%') : scan nstr (c :: rest) = scan (nstr ++ [c]) rest := by
  rw [scan, if_pos h]

theorem scan_double (nstr rest : List Char) : scan nstr ('%' :: '%' :: rest) = scan (nstr ++ ['%']) ('%' :: rest) := by
  rw [scan]
  simp

theorem scan_some {nstr rest str fmt rest' : List Char} (hhead : rest.head? ≠ some '%')
    (h : specifier [] rest = some (str, fmt, rest')) :
    scan nstr ('%' :: rest) = (literal nstr ++ (str, fmt, 1) :: (scan [] rest').1, (scan [] rest').2) := by
  rw [scan, if_neg (by simp), if_neg hhead]
  split
  · rename_i heq
    rw [h] at heq
    cases heq
    rfl
  · rename_i heq
    rw [h] at heq
    cases heq

theorem scan_none {nstr rest : List Char} (hhead : rest.head? ≠ some '%') (h : specifier [] rest = none) :
    (scan nstr ('%' :: rest)).2 = true := by
  rw [scan, if_neg (by simp), if_neg hhead]
  split
  · rename_i heq
    rw [h] at heq
    cases heq
  · rfl

theorem scan_literal (nstr rest : List Char) {t : List Char} (h : '%' ∉ t) : scan nstr (t ++ rest) = scan (nstr ++ t) rest := by
  induction t generalizing nstr with
  | nil => simp
  | cons c t ih =>
      simp only [List.mem_cons, not_or] at h
      rw [List.cons_append, scan_char _ _ (Ne.symm h.1), ih _ h.2, List.append_assoc, List.singleton_append]

/-- Of a run of percent signs each is taken as a text that another follows. -/
theorem scan_percents (nstr rest : List Char) (n : ℕ) :
    scan nstr (List.replicate n '%' ++ '%' :: rest) = scan (nstr ++ List.replicate n '%') ('%' :: rest) := by
  induction n generalizing nstr with
  | zero => simp
  | succ n ih =>
      have hnext : List.replicate n '%' ++ '%' :: rest = '%' :: (List.replicate n '%' ++ rest) := by
        rw [← List.singleton_append, ← List.append_assoc, ← List.replicate_succ', List.replicate_succ, List.cons_append]
      rw [List.replicate_succ, List.cons_append, hnext, scan_double, ← hnext, ih, List.append_assoc, List.singleton_append]

theorem escape_append (t u : List Char) : escape (t ++ u) = escape t ++ escape u := List.flatMap_append

theorem escape_of_not_mem {t : List Char} (h : '%' ∉ t) : escape t = t := by
  induction t with
  | nil => rfl
  | cons c t ih =>
      simp only [List.mem_cons, not_or] at h
      rw [escape, List.flatMap_cons, if_neg (Ne.symm h.1), List.singleton_append]
      exact congrArg _ (ih h.2)

theorem escape_replicate (n : ℕ) : escape (List.replicate n '%') = List.replicate (2 * n) '%' := by
  induction n with
  | zero => rfl
  | succ n ih =>
      rw [List.replicate_succ, escape, List.flatMap_cons, if_pos rfl]
      show '%' :: '%' :: escape (List.replicate n '%') = _
      rw [ih, show 2 * (n + 1) = 2 * n + 1 + 1 by omega, List.replicate_succ, List.replicate_succ]

theorem argument_append (fmt rest : List Char) {arg : List Char} (h : '}' ∉ arg) :
    argument fmt (arg ++ '}' :: rest) = some (fmt ++ arg, rest) := by
  induction arg generalizing fmt with
  | nil => simp [argument]
  | cons c arg ih =>
      simp only [List.mem_cons, not_or] at h
      rw [List.cons_append, argument, if_neg (Ne.symm h.1), ih _ h.2, List.append_assoc, List.singleton_append]

/-- What is written after a specifier without an argument does not continue its key. -/
theorem specifier_end (key : FormatClass) (rest : List Char)
    (h : ∀ c, rest.head? = some c → isalpha c = false ∧ c ≠ '{' ∧ c ≠ '}') :
    specifier [] (letter key :: rest) = some ([letter key], [], rest) := by
  have hletter : ¬ (isalpha (letter key) = false ∧ letter key ≠ '{' ∧ letter key ≠ '}') := by simp [isalpha_letter]
  have hopen : letter key ≠ '{' := by cases key <;> decide
  rw [specifier, if_neg hletter, if_neg hopen]
  cases rest with
  | nil => rfl
  | cons c rest => rw [specifier, if_pos (h c rfl), List.nil_append]

theorem specifier_argument (key : FormatClass) (rest : List Char) {arg : List Char} (h : '}' ∉ arg) :
    specifier [] (letter key :: '{' :: (arg ++ '}' :: rest)) = some ([letter key], arg, rest) := by
  have hletter : ¬ (isalpha (letter key) = false ∧ letter key ≠ '{' ∧ letter key ≠ '}') := by simp [isalpha_letter]
  have hopen : letter key ≠ '{' := by cases key <;> decide
  rw [specifier, if_neg hletter, if_neg hopen, specifier, if_neg (by simp), if_pos rfl, argument_append _ _ h]
  rfl

/-! ### Reading what was written -/

theorem head_write {tokens : List Token} (hvalid : Valid tokens) (hsep : Separated tokens) {c : Char}
    (hc : (write tokens).head? = some c) : isalpha c = false ∧ c ≠ '{' ∧ c ≠ '}' := by
  have hpercent : isalpha '%' = false ∧ '%' ≠ '{' ∧ '%' ≠ '}' := by decide
  cases tokens with
  | nil => cases hc
  | cons token tokens =>
      cases token with
      | literal t =>
          cases t with
          | nil => exact absurd rfl hvalid.1
          | cons d t =>
              by_cases hd : d = '%'
              · obtain rfl : '%' = c := by simpa [write, Token.write, escape, hd] using hc
                exact hpercent
              · obtain rfl : d = c := by simpa [write, Token.write, escape, hd] using hc
                exact hsep
      | specifier key arg =>
          cases arg with
          | none =>
              obtain rfl : '%' = c := by simpa [write, Token.write] using hc
              exact hpercent
          | some arg =>
              obtain rfl : '%' = c := by simpa [write, Token.write] using hc
              exact hpercent

/-- A specifier is read back, and the scanner goes on after it. -/
theorem scan_specifier (nstr : List Char) {key : FormatClass} {arg : Option (List Char)} {tokens : List Token}
    (hvalid : Valid (.specifier key arg :: tokens)) :
    scan nstr (write (.specifier key arg :: tokens)) =
      (literal nstr ++ ([letter key], arg.getD [], 1) :: (scan [] (write tokens)).1, (scan [] (write tokens)).2) := by
  have hkey : letter key ≠ '%' := by cases key <;> decide
  cases arg with
  | none =>
      have hspec := specifier_end key (write tokens) fun c hc => head_write hvalid.2 hvalid.1 hc
      exact scan_some (by simpa using hkey) hspec
  | some arg =>
      have hspec := specifier_argument key (write tokens) hvalid.1
      have hwrite : write (.specifier key (some arg) :: tokens) =
          '%' :: letter key :: '{' :: (arg ++ '}' :: write tokens) := by
        simp [write, Token.write]
      rw [hwrite]
      exact scan_some (by simpa using hkey) hspec

/-- The items and the error that `init` makes of what the scanner yields. -/
def built (r : List Entry × Bool) : List FormatItem × Bool :=
  (r.1.map fun i => (formatItem i).1, r.2 || r.1.any fun i => (formatItem i).2)

theorem init_eq_built (m_pattern : List Char) : init m_pattern = some (built (scan [] m_pattern)) := init_eq m_pattern

theorem built_specifier (nstr : List Char) (key : FormatClass) (fmt : List Char) (r : List Entry × Bool) :
    built (literal nstr ++ ([letter key], fmt, 1) :: r.1, r.2) =
      (text nstr ++ .item key fmt :: (built r).1, (built r).2) := by
  by_cases hempty : nstr = [] <;> simp [built, literal, text, hempty, formatItem, findItem_letter]

/-- Items after a text begin with that text. -/
theorem head_itemsFrom {nstr : List Char} (hne : nstr ≠ []) :
    ∀ tokens : List Token, (∀ t rest, tokens ≠ .literal t :: rest) →
      (itemsFrom nstr tokens).head? = some (.StringFormatItem nstr)
  | [], _ => by simp [itemsFrom, text, hne]
  | .specifier key arg :: tokens, _ => by simp [itemsFrom, text, hne]
  | .literal t :: tokens, h => absurd rfl (h t tokens)

theorem replicate_percent_split (t : List Char) :
    ∃ k w, t = List.replicate k '%' ++ w ∧ w.head? ≠ some '%' := by
  induction t with
  | nil => exact ⟨0, [], rfl, by simp⟩
  | cons c t ih =>
      by_cases hc : c = '%'
      · obtain ⟨k, w, rfl, hw⟩ := ih
        exact ⟨k + 1, w, by rw [hc, List.replicate_succ, List.cons_append], hw⟩
      · exact ⟨0, c :: t, rfl, by simpa using hc⟩

/-- After a text with a specifier character that does not belong to a specifier, either an item is wrong or an error is set. -/
theorem built_ne_of_single {nstr rest : List Char} (hne : nstr ≠ []) (hhead : rest.head? ≠ some '%') {v : List Char}
    (hv : v ≠ nstr) {expected : List FormatItem} (hexpected : expected.head? = some (.StringFormatItem v)) :
    built (scan nstr ('%' :: rest)) ≠ (expected, false) := by
  intro heq
  cases hspec : specifier [] rest with
  | none =>
      have herror := congrArg Prod.snd heq
      simp [built, scan_none hhead hspec] at herror
  | some r =>
      obtain ⟨str, fmt, rest'⟩ := r
      have hitems := congrArg (fun r => r.1.head?) heq
      simp only [scan_some hhead hspec, built, literal, if_neg hne, hexpected] at hitems
      simp only [List.cons_append, List.nil_append, List.map_cons, List.head?_cons, formatItem, if_true,
        Option.some.injEq, FormatItem.StringFormatItem.injEq] at hitems
      exact hv hitems.symm

/-- A run of percent signs before another character leaves a single one, after the wrong number of signs. -/
theorem built_ne_of_run (nstr : List Char) (k : ℕ) {w : List Char} {c : Char} (hw : w.head? = some c) (hc : c ≠ '%')
    {tokens : List Token} (htokens : ∀ t rest, tokens ≠ .literal t :: rest) :
    built (scan nstr (escape (List.replicate (k + 1) '%' ++ w) ++ write tokens)) ≠
      (itemsFrom (nstr ++ (List.replicate (k + 1) '%' ++ w)) tokens, false) := by
  obtain ⟨w', rfl⟩ := List.head?_eq_some_iff.1 hw
  have hhead : (escape (c :: w') ++ write tokens).head? ≠ some '%' := by simp [escape, hc]
  have hwrite : escape (List.replicate (k + 1) '%' ++ c :: w') ++ write tokens =
      List.replicate (2 * k + 1) '%' ++ '%' :: (escape (c :: w') ++ write tokens) := by
    rw [escape_append, escape_replicate, show 2 * (k + 1) = 2 * k + 1 + 1 by omega, List.replicate_succ' (n := 2 * k + 1)]
    simp
  rw [hwrite, scan_percents]
  refine built_ne_of_single (by simp) hhead (v := nstr ++ (List.replicate (k + 1) '%' ++ c :: w')) ?_
    (head_itemsFrom (by simp) tokens htokens)
  intro heq
  have hrun : List.replicate (2 * k + 1) '%' = List.replicate (k + 1) '%' ++ List.replicate k '%' := by
    rw [← List.replicate_add]
    congr 1
    omega
  rw [List.append_cancel_left_eq, hrun, List.append_cancel_left_eq] at heq
  cases k with
  | zero => cases heq
  | succ k => exact hc (List.cons.inj heq).1

/-- A literal percent sign is not read back: the second of the two that were written is looked at again. -/
theorem built_ne_of_percent (nstr t : List Char) {tokens : List Token} (hvalid : Valid tokens) :
    built (scan nstr (escape ('%' :: t) ++ write tokens)) ≠ (itemsFrom (nstr ++ '%' :: t) tokens, false) := by
  induction tokens generalizing t with
  | nil =>
      obtain ⟨k, w, rfl, hw⟩ := replicate_percent_split t
      rw [← List.cons_append, ← List.replicate_succ]
      cases hhead : w.head? with
      | some c => exact built_ne_of_run nstr k hhead (fun hc => hw (hc ▸ hhead)) (by simp)
      | none =>
          -- the last sign of the pattern is taken for a specifier without a key
          obtain rfl : w = [] := by simpa using hhead
          have hwrite : escape (List.replicate (k + 1) '%' ++ []) ++ write [] =
              List.replicate (2 * k + 1) '%' ++ '%' :: [] := by
            rw [List.append_nil, escape_replicate, show 2 * (k + 1) = 2 * k + 1 + 1 by omega,
              List.replicate_succ' (n := 2 * k + 1)]
            simp [write]
          intro heq
          have herror := congrArg Prod.snd heq
          rw [hwrite, scan_percents, scan_some (by simp) (h := rfl)] at herror
          simp [built, formatItem, findItem, s_format_items] at herror
  | cons token tokens ih =>
      cases token with
      | literal u =>
          have hwrite : escape ('%' :: t) ++ write (.literal u :: tokens) = escape ('%' :: (t ++ u)) ++ write tokens := by
            rw [← List.cons_append, escape_append, List.append_assoc]
            rfl
          have hitems : itemsFrom (nstr ++ '%' :: t) (.literal u :: tokens) = itemsFrom (nstr ++ '%' :: (t ++ u)) tokens := by
            simp [itemsFrom]
          rw [hwrite, hitems]
          exact ih (t ++ u) hvalid.2
      | specifier key arg =>
          obtain ⟨k, w, rfl, hw⟩ := replicate_percent_split t
          rw [← List.cons_append, ← List.replicate_succ]
          cases hhead : w.head? with
          | some c => exact built_ne_of_run nstr k hhead (fun hc => hw (hc ▸ hhead)) (by simp)
          | none =>
              -- every sign of the run is taken as a text, so there are twice as many
              obtain rfl : w = [] := by simpa using hhead
              obtain ⟨rest, hrest⟩ : ∃ rest, write (.specifier key arg :: tokens) = '%' :: rest := by
                cases arg <;> exact ⟨_, rfl⟩
              rw [List.append_nil, escape_replicate, hrest, scan_percents, ← hrest, scan_specifier _ hvalid, built_specifier]
              intro heq
              have hlength : 2 * (k + 1) = k + 1 := by
                simpa [itemsFrom, text] using congrArg (fun r => r.1.head?) heq
              omega

theorem built_eq_of_noPercent (nstr : List Char) {tokens : List Token} (hvalid : Valid tokens)
    (h : ∀ t, Token.literal t ∈ tokens → '%' ∉ t) : built (scan nstr (write tokens)) = (itemsFrom nstr tokens, false) := by
  induction tokens generalizing nstr with
  | nil => by_cases hempty : nstr = [] <;> simp [write, scan, built, literal, itemsFrom, text, hempty, formatItem]
  | cons token tokens ih =>
      have hrest : ∀ t, Token.literal t ∈ tokens → '%' ∉ t := fun t ht => h t (List.mem_cons_of_mem _ ht)
      cases token with
      | literal t =>
          have ht := h t List.mem_cons_self
          have hwrite : write (.literal t :: tokens) = t ++ write tokens := congrArg (· ++ _) (escape_of_not_mem ht)
          rw [hwrite, scan_literal _ _ ht]
          exact ih (nstr ++ t) hvalid.2 hrest
      | specifier key arg =>
          have hvalid' : Valid tokens := by cases arg <;> exact hvalid.2
          rw [scan_specifier _ hvalid, built_specifier, ih [] hvalid' hrest]
          rfl

theorem built_ne_of_mem (nstr : List Char) {tokens : List Token} (hvalid : Valid tokens) {t : List Char}
    (ht : Token.literal t ∈ tokens) (hpercent : '%' ∈ t) :
    built (scan nstr (write tokens)) ≠ (itemsFrom nstr tokens, false) := by
  induction tokens generalizing nstr with
  | nil => cases ht
  | cons token tokens ih =>
      cases token with
      | literal u =>
          by_cases hu : '%' ∈ u
          · obtain ⟨w, v, rfl, hw⟩ := List.eq_append_cons_of_mem hu
            have hwrite : write (.literal (w ++ '%' :: v) :: tokens) = w ++ (escape ('%' :: v) ++ write tokens) := by
              show escape (w ++ '%' :: v) ++ write tokens = _
              rw [escape_append, escape_of_not_mem hw, List.append_assoc]
            have hitems : itemsFrom nstr (.literal (w ++ '%' :: v) :: tokens) = itemsFrom (nstr ++ w ++ '%' :: v) tokens := by
              simp [itemsFrom]
            rw [hwrite, hitems, scan_literal _ _ hw]
            exact built_ne_of_percent (nstr ++ w) v hvalid.2
          · have hin : Token.literal t ∈ tokens := by
              rcases List.mem_cons.1 ht with heq | hin
              · cases heq
                exact absurd hpercent hu
              · exact hin
            have hwrite : write (.literal u :: tokens) = u ++ write tokens := congrArg (· ++ _) (escape_of_not_mem hu)
            rw [hwrite, scan_literal _ _ hu]
            exact ih (nstr ++ u) hvalid.2 hin
      | specifier key arg =>
          have hvalid' : Valid tokens := by cases arg <;> exact hvalid.2
          have hin : Token.literal t ∈ tokens := by simpa using ht
          rw [scan_specifier _ hvalid, built_specifier]
          intro heq
          simp only [itemsFrom, Prod.mk.injEq, List.append_cancel_left_eq, List.cons.injEq, true_and] at heq
          exact ih [] hvalid' hin (Prod.ext heq.1 heq.2)

/-- The pattern of a token list is read back as its items, without an error, exactly if no literal has a percent sign. -/
theorem init_write_iff {tokens : List Token} (hvalid : Valid tokens) :
    init (write tokens) = some (items tokens, false) ↔ ∀ t, Token.literal t ∈ tokens → '%' ∉ t := by
  rw [init_eq_built, Option.some.injEq]
  constructor
  · intro h t ht hpercent
    exact built_ne_of_mem [] hvalid ht hpercent h
  · exact built_eq_of_noPercent [] hvalid

/-- A date with an argument, a text and a message. -/
theorem init_write_plain :
    init (write [.specifier .DateTimeFormatItem (some "%Y".toList), .literal " [".toList, .specifier .LevelFormatItem none,
        .literal "]".toList]) =
      some (items [.specifier .DateTimeFormatItem (some "%Y".toList), .literal " [".toList,
        .specifier .LevelFormatItem none, .literal "]".toList], false) :=
  (init_write_iff (by simp [Valid, Separated, isalpha])).2 (by simp)

/-- The literal `100%`, written `100%%`, sets the error. -/
theorem percent_literal_misread :
    Valid [.literal "100%".toList] ∧ write [.literal "100%".toList] = "100%%".toList ∧
      init (write [.literal "100%".toList]) ≠ some (items [.literal "100%".toList], false) ∧
      (init "100%%".toList).map Prod.snd = some true := by
  refine ⟨by simp [Valid], by decide, ?_, by decide +kernel⟩
  decide +kernel

end Awcotn.LogFormatter
