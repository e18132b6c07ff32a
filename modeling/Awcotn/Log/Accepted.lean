import Awcotn.Log.Grammar

/-!
# Which patterns are accepted

The grammar of the patterns that `LogFormatter::init` accepts, and what they mean. A text stands for itself, its percent signs included: each of them has to stand before another percent sign, of the text or of the specifier after it. So a text can have percent signs at its end only, and only before a specifier. A specifier without an argument ends at the end of the pattern or before a character that is no letter and no brace.

`accepted_iff` says that there are no others: an accepted pattern is written from tokens in this way, and its items are theirs. A pattern that is not so written sets `m_error`, or has an item that reports an unknown key, which sets it too.
-/

namespace Awcotn.LogFormatter

/-- Every percent sign of a text stands before another, the last before what follows the text. -/
def Doubled : List Char → List Char → Prop
  | [], _ => True
  | c :: t, next => (c = '%' → (t ++ next).head? = some '%') ∧ Doubled t next

/-- A token as it stands in a pattern. -/
def Token.verbatim : Token → List Char
  | .literal t => t
  | .specifier key none => ['%', letter key]
  | .specifier key (some arg) => '%' :: letter key :: '{' :: (arg ++ ['}'])

/-- The pattern that consists of the tokens. -/
def verbatim (tokens : List Token) : List Char := tokens.flatMap Token.verbatim

/-- The token lists of accepted patterns. -/
def Canonical : List Token → Prop
  | [] => True
  | .literal t :: tokens => t ≠ [] ∧ (∀ u rest, tokens ≠ .literal u :: rest) ∧ Doubled t (verbatim tokens) ∧ Canonical tokens
  | .specifier _ none :: tokens => Separated tokens ∧ Canonical tokens
  | .specifier _ (some arg) :: tokens => '}' ∉ arg ∧ Canonical tokens

theorem verbatim_literal (t : List Char) (tokens : List Token) : verbatim (.literal t :: tokens) = t ++ verbatim tokens := rfl

theorem verbatim_key (key : FormatClass) (tokens : List Token) :
    verbatim (.specifier key none :: tokens) = '%' :: letter key :: verbatim tokens := rfl

theorem verbatim_argument (key : FormatClass) (arg : List Char) (tokens : List Token) :
    verbatim (.specifier key (some arg) :: tokens) = '%' :: letter key :: '{' :: (arg ++ '}' :: verbatim tokens) := by
  simp [verbatim, Token.verbatim]

/-! ### What is written so is read -/

/-- The scanner takes a text up to what follows it. -/
theorem scan_doubled (nstr : List Char) {t next : List Char} (h : Doubled t next) : scan nstr (t ++ next) = scan (nstr ++ t) next := by
  induction t generalizing nstr with
  | nil => simp
  | cons c t ih =>
      have hrest : scan (nstr ++ [c]) (t ++ next) = scan (nstr ++ c :: t) next := by
        rw [ih _ h.2, List.append_assoc, List.singleton_append]
      by_cases hc : c = '%'
      · obtain ⟨w, hw⟩ := List.head?_eq_some_iff.1 (h.1 hc)
        rw [List.cons_append, hc, hw, scan_double, ← hw, ← hc, hrest]
      · rw [List.cons_append, scan_char _ _ hc, hrest]

/-- What follows a specifier without an argument ends its key. -/
theorem head_verbatim {tokens : List Token} (hcanonical : Canonical tokens) (hsep : Separated tokens) {c : Char}
    (hc : (verbatim tokens).head? = some c) : isalpha c = false ∧ c ≠ '{' ∧ c ≠ '}' := by
  cases tokens with
  | nil => cases hc
  | cons token tokens =>
      cases token with
      | literal t =>
          cases t with
          | nil => exact absurd rfl hcanonical.1
          | cons d t =>
              obtain rfl : d = c := Option.some.inj hc
              exact hsep
      | specifier key arg =>
          have hpercent : '%' = c := by cases arg <;> exact Option.some.inj hc
          subst hpercent
          decide

theorem built_canonical (nstr : List Char) {tokens : List Token} (h : Canonical tokens) :
    built (scan nstr (verbatim tokens)) = (itemsFrom nstr tokens, false) := by
  have hkey : ∀ key : FormatClass, letter key ≠ '%' := fun key => by cases key <;> decide
  induction tokens generalizing nstr with
  | nil => by_cases hempty : nstr = [] <;> simp [verbatim, scan, built, literal, itemsFrom, text, hempty, formatItem]
  | cons token tokens ih =>
      cases token with
      | literal t =>
          rw [verbatim_literal, scan_doubled nstr h.2.2.1, ih _ h.2.2.2]
          rfl
      | specifier key arg =>
          cases arg with
          | none =>
              have hspec := specifier_end key (verbatim tokens) fun c hc => head_verbatim h.2 h.1 hc
              rw [verbatim_key, scan_some (by simpa using hkey key) hspec, built_specifier, ih [] h.2]
              rfl
          | some arg =>
              have hspec := specifier_argument key (verbatim tokens) h.1
              rw [verbatim_argument, scan_some (by simpa using hkey key) hspec, built_specifier, ih [] h.2]
              rfl

/-! ### What is accepted is written so -/

/-- An argument is what stands before the first closing brace. -/
theorem argument_eq_some {fmt rest fmt' rest' : List Char} (h : argument fmt rest = some (fmt', rest')) :
    ∃ arg, fmt' = fmt ++ arg ∧ rest = arg ++ '}' :: rest' ∧ '}' ∉ arg := by
  induction rest generalizing fmt with
  | nil => cases h
  | cons c rest ih =>
      simp only [argument] at h
      split_ifs at h with hc
      · cases h
        exact ⟨[], by simp, by simp [hc], by simp⟩
      · obtain ⟨arg, hfmt, hrest, hnot⟩ := ih h
        exact ⟨c :: arg, by simp [hfmt], by simp [hrest], by simp [hnot, Ne.symm hc]⟩

/-- A key is what stands before the first character that ends it, and an argument follows where that is a brace. -/
theorem specifier_eq_some {str rest key fmt rest' : List Char} (h : specifier str rest = some (key, fmt, rest')) :
    ∃ u, key = str ++ u ∧
      (rest = u ++ rest' ∧ fmt = [] ∧ (∀ c, rest'.head? = some c → isalpha c = false ∧ c ≠ '{' ∧ c ≠ '}') ∨
        rest = u ++ '{' :: (fmt ++ '}' :: rest') ∧ '}' ∉ fmt) := by
  induction rest generalizing str with
  | nil =>
      cases h
      exact ⟨[], by simp, .inl ⟨rfl, rfl, by simp⟩⟩
  | cons c rest ih =>
      simp only [specifier] at h
      split_ifs at h with hends hopen
      · cases h
        refine ⟨[], by simp, .inl ⟨rfl, rfl, fun d hd => ?_⟩⟩
        obtain rfl : c = d := Option.some.inj hd
        exact hends
      · obtain ⟨⟨arg, after⟩, harg, heq⟩ := Option.map_eq_some_iff.1 h
        cases heq
        obtain ⟨arg', rfl, hrest, hnot⟩ := argument_eq_some harg
        exact ⟨[], by simp, .inr ⟨by simp [hopen, hrest], hnot⟩⟩
      · obtain ⟨u, hkey, hcases⟩ := ih h
        refine ⟨c :: u, by simp [hkey], ?_⟩
        rcases hcases with ⟨hrest, hfmt, hhead⟩ | ⟨hrest, hnot⟩
        · exact .inl ⟨by simp [hrest], hfmt, hhead⟩
        · exact .inr ⟨by simp [hrest], hnot⟩

/-- The keys that are found are those of the table. -/
theorem findItem_eq_some {str : List Char} {key : FormatClass} (h : findItem str = some key) : str = [letter key] := by
  obtain ⟨entry, hfind, rfl⟩ := Option.map_eq_some_iff.1 h
  have hstr : [entry.1] = str := by simpa using List.find?_some hfind
  have hmem := List.mem_of_find?_eq_some hfind
  rw [← hstr]
  have hall : ∀ e ∈ s_format_items, [e.1] = [letter e.2] := by decide
  exact hall entry hmem

/-- The tokens of a pattern, with the text before the first specifier apart from the others. -/
structure Reads (rest t : List Char) (tokens : List Token) : Prop where
  pattern : rest = t ++ verbatim tokens
  specifier : ∀ u after, tokens ≠ .literal u :: after
  doubled : Doubled t (verbatim tokens)
  canonical : Canonical tokens

/-- All tokens of such a pattern. -/
def joined (t : List Char) (tokens : List Token) : List Token := if t = [] then tokens else .literal t :: tokens

theorem Reads.joined {rest t : List Char} {tokens : List Token} (h : Reads rest t tokens) :
    Canonical (joined t tokens) ∧ verbatim (joined t tokens) = rest := by
  by_cases ht : t = []
  · rw [LogFormatter.joined, if_pos ht]
    exact ⟨h.canonical, by rw [h.pattern, ht, List.nil_append]⟩
  · rw [LogFormatter.joined, if_neg ht]
    exact ⟨⟨ht, h.specifier, h.doubled, h.canonical⟩, by rw [h.pattern, verbatim_literal]⟩

/-- Nothing that follows continues the key. -/
theorem Reads.separated {rest t : List Char} {tokens : List Token} (h : Reads rest t tokens)
    (hhead : ∀ c, rest.head? = some c → isalpha c = false ∧ c ≠ '{' ∧ c ≠ '}') : Separated (LogFormatter.joined t tokens) := by
  cases t with
  | nil =>
      rw [LogFormatter.joined, if_pos rfl]
      cases tokens with
      | nil => trivial
      | cons token tokens =>
          cases token with
          | literal u => exact absurd rfl (h.specifier u tokens)
          | specifier key arg => trivial
  | cons c t =>
      rw [LogFormatter.joined, if_neg (List.cons_ne_nil c t)]
      exact hhead c (by rw [h.pattern]; rfl)

/-- A character of a text before what has been read. -/
theorem Reads.cons {rest t : List Char} {tokens : List Token} (h : Reads rest t tokens) (c : Char)
    (hc : c = '%' → rest.head? = some '%') : Reads (c :: rest) (c :: t) tokens where
  pattern := by rw [h.pattern, List.cons_append]
  specifier := h.specifier
  doubled := ⟨h.pattern ▸ hc, h.doubled⟩
  canonical := h.canonical

/-- A specifier before what has been read. -/
theorem Reads.after {rest t : List Char} {tokens : List Token} (h : Reads rest t tokens) (key : FormatClass)
    (arg : Option (List Char)) (hcanonical : Canonical (.specifier key arg :: LogFormatter.joined t tokens)) :
    Reads (Token.verbatim (.specifier key arg) ++ rest) [] (.specifier key arg :: LogFormatter.joined t tokens) where
  pattern := by rw [← h.joined.2]; rfl
  specifier := by simp
  doubled := trivial
  canonical := hcanonical

theorem built_cons (nstr str fmt : List Char) (r : List Entry × Bool)
    (h : (built (literal nstr ++ (str, fmt, 1) :: r.1, r.2)).2 = false) :
    ∃ key, str = [letter key] ∧ (built r).2 = false := by
  cases hfind : findItem str with
  | none => simp [built, formatItem, hfind] at h
  | some key =>
      refine ⟨key, findItem_eq_some hfind, ?_⟩
      simp only [built, List.any_append, List.any_cons, Bool.or_eq_false_iff] at h ⊢
      exact ⟨h.1, h.2.2.2⟩

/-- Where no error is found, the characters that are left are read as tokens. -/
theorem reads_of_built (nstr rest : List Char) (h : (built (scan nstr rest)).2 = false) : ∃ t tokens, Reads rest t tokens := by
  induction hn : rest.length using Nat.strongRecOn generalizing nstr rest with
  | ind n ih =>
      cases rest with
      | nil => exact ⟨[], [], rfl, by simp, trivial, trivial⟩
      | cons c rest =>
          have hlt : rest.length < n := by simp [← hn]
          by_cases hc : c = '%'
          · subst hc
            by_cases hhead : rest.head? = some '%'
            · obtain ⟨rest', rfl⟩ := List.head?_eq_some_iff.1 hhead
              rw [scan_double] at h
              obtain ⟨t, tokens, hreads⟩ := ih _ hlt _ _ h rfl
              exact ⟨'%' :: t, tokens, hreads.cons '%' fun _ => rfl⟩
            · cases hspec : specifier [] rest with
              | none =>
                  have herror : (scan nstr ('%' :: rest)).2 = true := scan_none hhead hspec
                  simp [built, herror] at h
              | some r =>
                  obtain ⟨str, fmt, rest'⟩ := r
                  rw [scan_some hhead hspec] at h
                  obtain ⟨key, rfl, herror⟩ := built_cons nstr str fmt _ h
                  obtain ⟨t, tokens, hreads⟩ := ih _ (Nat.lt_of_le_of_lt (length_specifier hspec) hlt) _ _ herror rfl
                  obtain ⟨u, hu, ⟨rfl, -, hends⟩ | ⟨rfl, hnot⟩⟩ := specifier_eq_some hspec
                  · rw [List.nil_append] at hu
                    subst hu
                    exact ⟨[], _, hreads.after key none ⟨hreads.separated hends, hreads.joined.1⟩⟩
                  · rw [List.nil_append] at hu
                    subst hu
                    have hafter := hreads.after key (some fmt) ⟨hnot, hreads.joined.1⟩
                    have hpattern : Token.verbatim (.specifier key (some fmt)) ++ rest' =
                        '%' :: ([letter key] ++ '{' :: (fmt ++ '}' :: rest')) := by
                      simp [Token.verbatim]
                    rw [hpattern] at hafter
                    exact ⟨[], _, hafter⟩
          · rw [scan_char _ _ hc] at h
            obtain ⟨t, tokens, hreads⟩ := ih _ hlt _ _ h rfl
            exact ⟨c :: t, tokens, hreads.cons c fun heq => absurd heq hc⟩

/-! ### In one way only -/

theorem letter_ne_percent (key : FormatClass) : letter key ≠ '%' := by cases key <;> decide

theorem letter_injective {key key' : FormatClass} (h : letter key = letter key') : key = key' := by
  have hfind := findItem_letter key
  rw [h, findItem_letter] at hfind
  exact (Option.some.inj hfind).symm

/-- A specifier is written as a percent sign and its key. -/
theorem verbatim_specifier (key : FormatClass) (arg : Option (List Char)) (tokens : List Token) :
    ∃ after, verbatim (.specifier key arg :: tokens) = '%' :: letter key :: after := by
  cases arg with
  | none => exact ⟨_, verbatim_key key tokens⟩
  | some a => exact ⟨_, verbatim_argument key a tokens⟩

/-- A text does not begin where a specifier does. -/
theorem not_doubled_of_specifier {c : Char} {t next after : List Char} {key : FormatClass}
    (h : c :: (t ++ next) = '%' :: letter key :: after) : ¬ Doubled (c :: t) next := by
  rintro ⟨hc, -⟩
  obtain ⟨hpercent, hrest⟩ := List.cons.inj h
  have hhead := hc hpercent
  rw [hrest] at hhead
  exact letter_ne_percent key (Option.some.inj hhead)

/-- The text before what follows it is found again. -/
theorem doubled_unique {t u next next' : List Char} (h : t ++ next = u ++ next') (ht : Doubled t next) (hu : Doubled u next')
    (hnext : next = [] ∨ ∃ key after, next = '%' :: letter key :: after)
    (hnext' : next' = [] ∨ ∃ key after, next' = '%' :: letter key :: after) : t = u := by
  induction t generalizing u with
  | nil =>
      cases u with
      | nil => rfl
      | cons c u =>
          rcases hnext with rfl | ⟨key, after, rfl⟩
          · cases h
          · exact absurd hu (not_doubled_of_specifier h.symm)
  | cons c t ih =>
      cases u with
      | nil =>
          rcases hnext' with rfl | ⟨key, after, rfl⟩
          · cases h
          · exact absurd ht (not_doubled_of_specifier h)
      | cons d u =>
          obtain ⟨rfl, hrest⟩ := List.cons.inj h
          rw [ih hrest ht.2 hu.2]

/-- An argument is found again. -/
theorem argument_unique {arg arg' rest rest' : List Char} (h : arg ++ '}' :: rest = arg' ++ '}' :: rest') (harg : '}' ∉ arg)
    (harg' : '}' ∉ arg') : arg = arg' ∧ rest = rest' := by
  have hread := argument_append [] rest harg
  rw [h, argument_append [] rest' harg'] at hread
  simpa [eq_comm] using hread

/-- What follows a text is a specifier or nothing. -/
theorem verbatim_after {tokens : List Token} (h : ∀ u rest, tokens ≠ .literal u :: rest) :
    verbatim tokens = [] ∨ ∃ key after, verbatim tokens = '%' :: letter key :: after := by
  cases tokens with
  | nil => exact .inl rfl
  | cons token tokens =>
      cases token with
      | literal u => exact absurd rfl (h u tokens)
      | specifier key arg =>
          obtain ⟨after, hafter⟩ := verbatim_specifier key arg tokens
          exact .inr ⟨key, after, hafter⟩

/-- Tokens that begin with a text and tokens that begin with a specifier are not written alike. -/
theorem verbatim_literal_ne {t : List Char} {key : FormatClass} {arg : Option (List Char)} {tokens tokens' : List Token}
    (h : Canonical (.literal t :: tokens)) : verbatim (.literal t :: tokens) ≠ verbatim (.specifier key arg :: tokens') := by
  intro heq
  obtain ⟨after, hafter⟩ := verbatim_specifier key arg tokens'
  rw [hafter, verbatim_literal] at heq
  cases t with
  | nil => exact h.1 rfl
  | cons c t => exact not_doubled_of_specifier heq h.2.2.1

/-- Nor are a specifier without an argument and one that has one. -/
theorem verbatim_key_ne {key key' : FormatClass} {arg : List Char} {tokens tokens' : List Token}
    (h : Canonical (.specifier key none :: tokens)) :
    verbatim (.specifier key none :: tokens) ≠ verbatim (.specifier key' (some arg) :: tokens') := by
  intro heq
  rw [verbatim_key, verbatim_argument] at heq
  have hrest := (List.cons.inj (List.cons.inj heq).2).2
  have hopen := head_verbatim h.2 h.1 (c := '{') (by rw [hrest]; rfl)
  exact hopen.2.1 rfl

theorem verbatim_ne_nil {token : Token} {tokens : List Token} (h : Canonical (token :: tokens)) : verbatim (token :: tokens) ≠ [] := by
  cases token with
  | literal t => exact fun heq => h.1 (List.append_eq_nil_iff.1 heq).1
  | specifier key arg =>
      obtain ⟨after, hafter⟩ := verbatim_specifier key arg tokens
      rw [hafter]
      exact List.cons_ne_nil _ _

/-- No pattern is written in two ways. -/
theorem verbatim_injective {tokens tokens' : List Token} (h : Canonical tokens) (h' : Canonical tokens')
    (heq : verbatim tokens = verbatim tokens') : tokens = tokens' := by
  induction tokens generalizing tokens' with
  | nil =>
      cases tokens' with
      | nil => rfl
      | cons token' tokens' => exact absurd heq.symm (verbatim_ne_nil h')
  | cons token tokens ih =>
      cases tokens' with
      | nil => exact absurd heq (verbatim_ne_nil h)
      | cons token' tokens' =>
          cases token with
          | literal t =>
              cases token' with
              | literal u =>
                  have ht : t = u := doubled_unique heq h.2.2.1 h'.2.2.1 (verbatim_after h.2.1) (verbatim_after h'.2.1)
                  subst ht
                  rw [ih h.2.2.2 h'.2.2.2 (List.append_cancel_left heq)]
              | specifier key arg => exact absurd heq (verbatim_literal_ne h)
          | specifier key arg =>
              cases token' with
              | literal u => exact absurd heq.symm (verbatim_literal_ne h')
              | specifier key' arg' =>
                  cases arg with
                  | none =>
                      cases arg' with
                      | none =>
                          rw [verbatim_key, verbatim_key] at heq
                          obtain ⟨hletter, hrest⟩ := List.cons.inj (List.cons.inj heq).2
                          rw [letter_injective hletter, ih h.2 h'.2 hrest]
                      | some b => exact absurd heq (verbatim_key_ne h)
                  | some a =>
                      cases arg' with
                      | none => exact absurd heq.symm (verbatim_key_ne h')
                      | some b =>
                          rw [verbatim_argument, verbatim_argument] at heq
                          obtain ⟨hletter, hrest⟩ := List.cons.inj (List.cons.inj heq).2
                          obtain ⟨rfl, htokens⟩ := argument_unique (List.cons.inj hrest).2 h.1 h'.1
                          rw [letter_injective hletter, ih h.2 h'.2 htokens]

/-- A pattern is accepted exactly if it is written from a list of tokens, of which there is one only, and its items are those of the tokens. -/
theorem accepted_iff (m_pattern : List Char) (m_items : List FormatItem) :
    init m_pattern = some (m_items, false) ↔ ∃! tokens, Canonical tokens ∧ verbatim tokens = m_pattern ∧ items tokens = m_items := by
  rw [init_eq_built, Option.some.injEq]
  constructor
  · intro h
    obtain ⟨t, tokens, hreads⟩ := reads_of_built [] m_pattern (congrArg Prod.snd h)
    obtain ⟨hcanonical, hverbatim⟩ := hreads.joined
    have hbuilt := built_canonical [] hcanonical
    rw [hverbatim, h] at hbuilt
    refine ⟨LogFormatter.joined t tokens, ⟨hcanonical, hverbatim, (congrArg Prod.fst hbuilt).symm⟩, ?_⟩
    rintro tokens' ⟨hcanonical', hverbatim', -⟩
    exact verbatim_injective hcanonical' hcanonical (hverbatim'.trans hverbatim.symm)
  · rintro ⟨tokens, ⟨hcanonical, rfl, rfl⟩, -⟩
    exact built_canonical [] hcanonical

end Awcotn.LogFormatter
