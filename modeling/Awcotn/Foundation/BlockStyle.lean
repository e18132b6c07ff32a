import Awcotn.Foundation.Yaml
import Mathlib.Algebra.GroupWithZero.Nat
import Mathlib.Data.List.Basic
import Mathlib.Tactic.Common

/-!
# A block-style reader and writer

An implementation of `Yaml` that lays a document out in lines: the children of a node are its entries, and an entry that goes on over several lines has all lines but its first indented by two blanks. The reader finds the entries by the indentation.
-/

namespace Awcotn.Yaml.Block

/-- A line of the text, without its end. -/
abbrev Line := List Char

/-! ### Scalars -/

/-- The characters that need no quotes. -/
def plainChar (c : Char) : Bool := c.isAlphanum || c = '-' || c = '_' || c = '.' || c = '/'

def plain (text : Line) : Bool := text ≠ [] && text ≠ ['-'] && text.all plainChar

def escape : Line → Line
  | [] => []
  | c :: text =>
    (if c = '\"' then ['\\', '\"'] else if c = '\\' then ['\\', '\\'] else if c = '\n' then ['\\', 'n'] else [c]) ++ escape text

def scalar (text : Line) : Line := if plain text then text else '\"' :: (escape text ++ ['\"'])

/-- The text in front of the closing quote, and what follows the quote. -/
def unquote : Line → Option (Line × Line)
  | [] => none
  | ['\\'] => none
  | '\\' :: c :: rest => (unquote rest).map fun r => ((if c = 'n' then '\n' else c) :: r.1, r.2)
  | c :: rest => if c = '\"' then some ([], rest) else (unquote rest).map fun r => (c :: r.1, r.2)

/-- The scalar at the start of a line, and the rest of the line. -/
def token : Line → Option (Line × Line)
  | [] => some ([], [])
  | c :: rest => if c = '\"' then unquote rest else some ((c :: rest).takeWhile plainChar, (c :: rest).dropWhile plainChar)

theorem unquote_escape (text rest : Line) : unquote (escape text ++ '\"' :: rest) = some (text, rest) := by
  induction text with
  | nil => simp [escape, unquote]
  | cons c text ih =>
      simp only [escape]
      split_ifs with hquote hslash hnewline
      · simp [unquote, ih, hquote]
      · simp [unquote, ih, hslash]
      · simp [unquote, ih, hnewline]
      · have hstep : unquote (c :: (escape text ++ '\"' :: rest)) =
            if c = '\"' then some ([], escape text ++ '\"' :: rest)
            else (unquote (escape text ++ '\"' :: rest)).map fun r => (c :: r.1, r.2) := by
          rw [unquote]
          · simp [hslash]
          · simp [hslash]
        simp [hstep, ih, hquote]

theorem plainChar_of_plain {text : Line} (h : plain text = true) : ∀ c ∈ text, plainChar c = true := by
  simp only [plain, Bool.and_eq_true, List.all_eq_true] at h
  exact h.2

theorem scalar_ne_nil (text : Line) : scalar text ≠ [] := by
  intro h
  rw [scalar] at h
  split_ifs at h with hplain
  simp [plain, h] at hplain

/-- The first character of a scalar. -/
theorem head_scalar {text : Line} {c : Char} (h : (scalar text).head? = some c) : c = '\"' ∨ plainChar c = true := by
  rw [scalar] at h
  split_ifs at h with hplain
  · exact .inr (plainChar_of_plain hplain c (List.mem_of_mem_head? h))
  · exact .inl (by simpa using h.symm)

theorem head_scalar_ne_blank (text : Line) : (scalar text).head? ≠ some ' ' := by
  intro h
  rcases head_scalar h with hquote | hplain
  · exact absurd hquote (by decide)
  · exact absurd hplain (by decide)

theorem token_scalar (text rest : Line) (hrest : ∀ c, rest.head? = some c → plainChar c = false) :
    token (scalar text ++ rest) = some (text, rest) := by
  rw [scalar]
  split_ifs with hplain
  · have hchars := plainChar_of_plain hplain
    cases text with
    | nil => simp [plain] at hplain
    | cons c text =>
        have hquote : c ≠ '\"' := by
          intro h
          have hc := hchars c List.mem_cons_self
          rw [h] at hc
          exact absurd hc (by decide)
        have hend : rest.takeWhile plainChar = [] ∧ rest.dropWhile plainChar = rest := by
          cases rest with
          | nil => exact ⟨rfl, rfl⟩
          | cons d rest => simp [hrest d rfl]
        rw [List.cons_append, token, if_neg hquote, ← List.cons_append, List.takeWhile_append_of_pos hchars,
          List.dropWhile_append_of_pos hchars, hend.1, hend.2, List.append_nil]
  · simp [token, unquote_escape]

/-! ### Lines -/

def indent (line : Line) : Line := ' ' :: ' ' :: line

/-- What stands behind the mark of an entry, and the lines below it: the entry starts on the line of its mark or on the next. -/
def place : Bool → List Line → Line × List Line
  | true, line :: block => (' ' :: line, block)
  | _, block => ([], block)

/-- The lines of an entry, from what stands behind its mark and the lines below it. -/
def opened : Line → List Line → Option (List Line)
  | [], block => some block
  | ' ' :: line, block => some (line :: block)
  | _, _ => none

theorem opened_place (inline : Bool) (block : List Line) :
    opened (place inline block).1 (place inline block).2 = some block := by
  cases inline with
  | false => rfl
  | true =>
      cases block with
      | nil => rfl
      | cons line block => rfl

/-- A sequence that has elements. -/
def isSequence : Node → Bool
  | .Sequence (_ :: _) => true
  | _ => false

/-- A map that has entries. -/
def isMap : Node → Bool
  | .Map (_ :: _) => true
  | _ => false

/-- An entry with its mark. -/
def entry (mark : Line) (placed : Line × List Line) : List Line := (mark ++ placed.1) :: placed.2.map indent

mutual

/-- The lines of a node. -/
def lines : Node → List Line
  | .Null => [['~']]
  | .Scalar text => [scalar text.toList]
  | .Sequence items => if items.isEmpty then [['[', ']']] else itemLines items
  | .Map entries => if entries.isEmpty then [['\x7b', '\x7d']] else entryLines entries

def itemLines : List Node → List Line
  | [] => []
  | item :: items => entry ['-'] (place (!isSequence item) (lines item)) ++ itemLines items

def entryLines : List (String × Node) → List Line
  | [] => []
  | (key, value) :: entries =>
    entry (scalar key.toList ++ [':']) (place (!isSequence value && !isMap value) (lines value)) ++ entryLines entries

end

/-- The lines that belong to the entry before, and the entries after them. -/
def layout : List Line → List Line × List (Line × List Line)
  | [] => ([], [])
  | (' ' :: ' ' :: line) :: rest => (line :: (layout rest).1, (layout rest).2)
  | line :: rest => ([], (line, (layout rest).1) :: (layout rest).2)

/-- What stands behind the dash of an element. -/
def dashed : Line → Option Line
  | ['-'] => some []
  | '-' :: ' ' :: line => some (' ' :: line)
  | _ => none

/-- What stands behind the colon of a key, with the key. -/
def keyed (line : Line) : Option (Line × Line) :=
  match token line with
  | some (key, ':' :: rest) => some (key, rest)
  | _ => none

/-- The element of a sequence, read with a reader of nodes. -/
def readItem (read : List Line → Option Node) (e : Line × List Line) : Option Node := do
  read (← opened (← dashed e.1) e.2)

/-- The entry of a map, read with a reader of nodes. -/
def readEntry (read : List Line → Option Node) (e : Line × List Line) : Option (String × Node) := do
  let (key, rest) ← keyed e.1
  return (String.ofList key, ← read (← opened rest e.2))

/-- The nodes that are a line of their own. -/
def single : List Line → Option Node
  | [[]] => some .Null
  | [['~']] => some .Null
  | [['[', ']']] => some (.Sequence [])
  | [['\x7b', '\x7d']] => some (.Map [])
  | _ => none

/-- The node of some lines, read with a reader of its children. -/
def readBlock (read : List Line → Option Node) (block : List Line) : Option Node :=
  let entries := (layout block).2
  match entries with
  | [] => none
  | (line, _) :: _ =>
    if (dashed line).isSome then (entries.mapM (readItem read)).map .Sequence
    else if (keyed line).isSome then (entries.mapM (readEntry read)).map .Map
    else (token line).map fun r => .Scalar (String.ofList r.1)

/-- The node of some lines; the bound is on the nesting. -/
def read : ℕ → List Line → Option Node
  | 0, _ => none
  | fuel + 1, block => (single block).or (readBlock (read fuel) block)

/-- The characters of some lines. -/
def size (block : List Line) : ℕ := (block.map List.length).sum

def emit (n : Node) : String := String.ofList (['\n'].intercalate (lines n))

def Load (text : String) : Option Node :=
  let block := text.toList.splitOn '\n'
  read (size block + 1) block

/-! ### Entries are found again -/

theorem layout_indent (block rest : List Line) :
    layout (block.map indent ++ rest) = (block ++ (layout rest).1, (layout rest).2) := by
  induction block with
  | nil => rfl
  | cons line block ih => simp [indent, layout, ih]

theorem layout_entry {mark : Line} (hmark : mark ≠ []) (hblank : mark.head? ≠ some ' ') (placed : Line × List Line)
    {rest : List Line} (hrest : (layout rest).1 = []) :
    layout (entry mark placed ++ rest) = ([], (mark ++ placed.1, placed.2) :: (layout rest).2) := by
  cases mark with
  | nil => exact absurd rfl hmark
  | cons c mark =>
      have hc : c ≠ ' ' := fun h => hblank (by rw [h, List.head?_cons])
      rw [entry, List.cons_append, List.cons_append, layout, layout_indent, hrest, List.append_nil]
      intro line hline
      exact absurd (List.cons.inj hline).1 hc

theorem dashed_place (inline : Bool) (block : List Line) :
    dashed ('-' :: (place inline block).1) = some (place inline block).1 := by
  cases inline with
  | false => rfl
  | true =>
      cases block with
      | nil => rfl
      | cons line block => rfl

theorem keyed_scalar (key rest : Line) : keyed (scalar key ++ ':' :: rest) = some (key, rest) := by
  have htoken : token (scalar key ++ ':' :: rest) = some (key, ':' :: rest) := by
    apply token_scalar
    intro c hc
    obtain rfl : ':' = c := by simpa using hc
    decide
  simp only [keyed, htoken]

theorem dashed_scalar (text rest : Line) : dashed (scalar text ++ rest) = none := by
  rw [scalar]
  split_ifs with hplain
  · have hchars := plainChar_of_plain hplain
    match text with
    | [] => simp [plain] at hplain
    | [c] =>
        have hc : c ≠ '-' := by
          intro h
          simp [plain, h] at hplain
        simp [dashed, hc]
    | c :: d :: text =>
        have hd : d ≠ ' ' := by
          intro h
          have hblank := hchars d (by simp)
          rw [h] at hblank
          exact absurd hblank (by decide)
        simp [dashed, hd]
  · simp [dashed]

theorem readItem_place {reader : List Line → Option Node} {item : Node} {inline : Bool} {block : List Line}
    (h : reader block = some item) :
    readItem reader ('-' :: (place inline block).1, (place inline block).2) = some item := by
  simp [readItem, dashed_place, opened_place, h]

theorem readEntry_place {reader : List Line → Option Node} {key : String} {value : Node} {inline : Bool} {block : List Line}
    (h : reader block = some value) :
    readEntry reader (scalar key.toList ++ ':' :: (place inline block).1, (place inline block).2) = some (key, value) := by
  simp [readEntry, keyed_scalar, opened_place, h]

theorem layout_itemLines (items : List Node) :
    layout (itemLines items) = ([], items.map fun item =>
      ('-' :: (place (!isSequence item) (lines item)).1, (place (!isSequence item) (lines item)).2)) := by
  induction items with
  | nil => rfl
  | cons item items ih => rw [itemLines, layout_entry (by simp) (by simp) _ (by rw [ih]), ih, List.map_cons, List.singleton_append]

theorem layout_entryLines (entries : List (String × Node)) :
    layout (entryLines entries) = ([], entries.map fun e =>
      (scalar e.1.toList ++ ':' :: (place (!isSequence e.2 && !isMap e.2) (lines e.2)).1,
        (place (!isSequence e.2 && !isMap e.2) (lines e.2)).2)) := by
  induction entries with
  | nil => rfl
  | cons e entries ih =>
      obtain ⟨key, value⟩ := e
      have hblank : (scalar key.toList ++ [':']).head? ≠ some ' ' := by
        rw [List.head?_append_of_ne_nil _ (scalar_ne_nil _)]
        exact head_scalar_ne_blank _
      rw [entryLines, layout_entry (by simp) hblank _ (by rw [ih]), ih, List.map_cons, List.append_assoc,
        List.singleton_append]

/-! ### Sizes -/

theorem size_append (block rest : List Line) : size (block ++ rest) = size block + size rest := by
  simp [size]

theorem size_le_indent (block : List Line) : size block ≤ size (block.map indent) := by
  induction block with
  | nil => exact Nat.le_refl _
  | cons line block ih =>
      simp only [size, List.map_cons, List.sum_cons, indent, List.length_cons] at ih ⊢
      omega

theorem size_lt_entry (mark : Line) (hmark : mark ≠ []) (inline : Bool) (block : List Line) :
    size block < size (entry mark (place inline block)) := by
  have hlength := List.length_pos_of_ne_nil hmark
  have hindent := size_le_indent block
  cases inline with
  | false =>
      simp only [entry, place, size, List.map_cons, List.sum_cons, List.append_nil] at hindent ⊢
      omega
  | true =>
      cases block with
      | nil => simpa [entry, place, size] using hlength
      | cons line block =>
          have hindent := size_le_indent block
          simp only [entry, place, size, List.map_cons, List.sum_cons, List.length_append, List.length_cons] at hindent ⊢
          omega

theorem size_item {item : Node} {items : List Node} (h : item ∈ items) : size (lines item) < size (itemLines items) := by
  induction items with
  | nil => simp at h
  | cons head items ih =>
      rw [itemLines, size_append]
      rcases List.mem_cons.1 h with rfl | h
      · have hentry := size_lt_entry ['-'] (by simp) (!isSequence item) (lines item)
        omega
      · have hrest := ih h
        omega

theorem size_value {e : String × Node} {entries : List (String × Node)} (h : e ∈ entries) :
    size (lines e.2) < size (entryLines entries) := by
  induction entries with
  | nil => simp at h
  | cons head entries ih =>
      obtain ⟨key, value⟩ := head
      rw [entryLines, size_append]
      rcases List.mem_cons.1 h with rfl | h
      · have hentry := size_lt_entry (scalar key.toList ++ [':']) (by simp) (!isSequence value && !isMap value)
          (lines value)
        show size (lines value) < _
        omega
      · have hrest := ih h
        omega

/-! ### Reading what was written -/

theorem mapM_map_eq_some {α β : Type*} {f : β → Option α} {g : α → β} {as : List α} (h : ∀ a ∈ as, f (g a) = some a) :
    (as.map g).mapM f = some as := by
  rw [List.mapM_map, mapM_eq_self_iff]
  exact h

theorem single_cons {line : Line} {c : Char} (hc : line.head? = some c) (hother : c ≠ '~' ∧ c ≠ '[' ∧ c ≠ '\x7b')
    (block : List Line) : single (line :: block) = none := by
  cases line with
  | nil => simp at hc
  | cons d line =>
      obtain rfl : d = c := by simpa using hc
      unfold single
      split
      · simp_all
      · simp_all
      · simp_all
      · simp_all
      · rfl

theorem single_scalar (text rest : Line) (block : List Line) : single ((scalar text ++ rest) :: block) = none := by
  cases hscalar : scalar text with
  | nil => exact absurd hscalar (scalar_ne_nil text)
  | cons c line =>
      have hhead : (scalar text).head? = some c := by rw [hscalar, List.head?_cons]
      refine single_cons (c := c) (by simp) ?_ block
      rcases head_scalar hhead with rfl | hplain
      · decide
      · refine ⟨?_, ?_, ?_⟩
        all_goals
          rintro rfl
          exact absurd hplain (by decide)

theorem readBlock_scalar (reader : List Line → Option Node) (text : String) :
    readBlock reader [scalar text.toList] = some (.Scalar text) := by
  have htoken := token_scalar text.toList [] (by simp)
  have hdashed := dashed_scalar text.toList []
  have hlayout := layout_entry (scalar_ne_nil text.toList) (head_scalar_ne_blank text.toList) ([], []) (show (layout []).1 = [] from rfl)
  rw [List.append_nil] at htoken hdashed
  have hkeyed : keyed (scalar text.toList) = none := by rw [keyed, htoken]
  have hblock : [scalar text.toList] = entry (scalar text.toList) ([], []) ++ [] := by simp [entry]
  rw [hblock, readBlock, hlayout]
  simp [hdashed, hkeyed, htoken]

theorem readBlock_itemLines {reader : List Line → Option Node} {item : Node} {items : List Node}
    (h : ∀ i ∈ item :: items, reader (lines i) = some i) :
    readBlock reader (itemLines (item :: items)) = some (.Sequence (item :: items)) := by
  rw [readBlock, layout_itemLines]
  simp only [List.map_cons, dashed_place, Option.isSome_some, if_true]
  rw [← List.map_cons (f := fun i => ('-' :: (place (!isSequence i) (lines i)).1, (place (!isSequence i) (lines i)).2)),
    mapM_map_eq_some fun i hi => readItem_place (h i hi), Option.map_some]

theorem readBlock_entryLines {reader : List Line → Option Node} {e : String × Node} {entries : List (String × Node)}
    (h : ∀ e' ∈ e :: entries, reader (lines e'.2) = some e'.2) :
    readBlock reader (entryLines (e :: entries)) = some (.Map (e :: entries)) := by
  rw [readBlock, layout_entryLines]
  simp only [List.map_cons, dashed_scalar, keyed_scalar, Option.isSome_some, Option.isSome_none, if_true, Bool.false_eq_true,
    if_false]
  rw [← List.map_cons (f := fun e : String × Node =>
      (scalar e.1.toList ++ ':' :: (place (!isSequence e.2 && !isMap e.2) (lines e.2)).1,
        (place (!isSequence e.2 && !isMap e.2) (lines e.2)).2)),
    mapM_map_eq_some fun e' he => readEntry_place (h e' he), Option.map_some]

theorem read_lines {fuel : ℕ} (n : Node) (h : size (lines n) < fuel) : read fuel (lines n) = some n := by
  induction fuel generalizing n with
  | zero => exact absurd h (Nat.not_lt_zero _)
  | succ fuel ih =>
      match n with
      | .Null => rfl
      | .Sequence [] => rfl
      | .Map [] => rfl
      | .Scalar text =>
          have hsingle := single_scalar text.toList [] []
          rw [List.append_nil] at hsingle
          rw [lines, read, hsingle, Option.none_or, readBlock_scalar]
      | .Sequence (item :: items) => 
          have hlines : lines (.Sequence (item :: items)) = itemLines (item :: items) := rfl
          rw [hlines] at h ⊢
          have hsingle : single (itemLines (item :: items)) = none := single_cons (c := '-') rfl (by decide) _
          rw [read, hsingle, Option.none_or]
          refine readBlock_itemLines fun i hi => ih i ?_
          have hsize := size_item hi
          omega
      | .Map ((key, value) :: entries) =>
          have hlines : lines (.Map ((key, value) :: entries)) = entryLines ((key, value) :: entries) := rfl
          rw [hlines] at h ⊢
          have hsingle : single (entryLines ((key, value) :: entries)) = none := by
            rw [entryLines, entry, List.append_assoc, List.cons_append]
            exact single_scalar _ _ _
          rw [read, hsingle, Option.none_or]
          refine readBlock_entryLines fun e he => ih e.2 ?_
          have hsize := size_value he
          omega

/-! ### The text -/

theorem newline_not_mem_scalar (text : Line) : '\n' ∉ scalar text := by
  have hescape : '\n' ∉ escape text := by
    induction text with
    | nil => simp [escape]
    | cons c text ih =>
        simp only [escape, List.mem_append, not_or]
        refine ⟨?_, ih⟩
        split_ifs with hquote hslash hnewline
        · decide
        · decide
        · decide
        · simpa using Ne.symm hnewline
  rw [scalar]
  split_ifs with hplain
  · intro h
    exact absurd (plainChar_of_plain hplain _ h) (by decide)
  · simp [hescape]

theorem newline_not_mem_entry {mark : Line} (hmark : '\n' ∉ mark) (inline : Bool) {block : List Line}
    (h : ∀ line ∈ block, '\n' ∉ line) : ∀ line ∈ entry mark (place inline block), '\n' ∉ line := by
  have hindent : ∀ line ∈ block, '\n' ∉ indent line := fun line hline => by simpa [indent] using h line hline
  cases inline with
  | false => simpa [entry, place, hmark] using hindent
  | true =>
      cases block with
      | nil => simpa [entry, place] using hmark
      | cons line block =>
          simp only [List.forall_mem_cons] at h hindent
          simpa [entry, place, hmark, h.1] using hindent.2

mutual

theorem newline_not_mem_lines : ∀ n, ∀ line ∈ lines n, '\n' ∉ line
  | .Null => by simp [lines]
  | .Scalar text => by simpa [lines] using newline_not_mem_scalar text.toList
  | .Sequence items => by
      rw [lines]
      split_ifs
      · simp
      · exact newline_not_mem_itemLines items
  | .Map entries => by
      rw [lines]
      split_ifs
      · simp
      · exact newline_not_mem_entryLines entries

theorem newline_not_mem_itemLines : ∀ items, ∀ line ∈ itemLines items, '\n' ∉ line
  | [] => by simp [itemLines]
  | item :: items => by
      rw [itemLines, List.forall_mem_append]
      exact ⟨newline_not_mem_entry (by decide) _ (newline_not_mem_lines item), newline_not_mem_itemLines items⟩

theorem newline_not_mem_entryLines : ∀ entries, ∀ line ∈ entryLines entries, '\n' ∉ line
  | [] => by simp [entryLines]
  | (key, value) :: entries => by
      rw [entryLines, List.forall_mem_append]
      have hmark : '\n' ∉ scalar key.toList ++ [':'] := by simp [newline_not_mem_scalar]
      exact ⟨newline_not_mem_entry hmark _ (newline_not_mem_lines value), newline_not_mem_entryLines entries⟩

end

theorem lines_ne_nil (n : Node) : lines n ≠ [] := by
  match n with
  | .Null => simp [lines]
  | .Scalar text => simp [lines]
  | .Sequence [] => simp [lines]
  | .Sequence (item :: items) => simp [lines, itemLines, entry]
  | .Map [] => simp [lines]
  | .Map (e :: entries) => simp [lines, entryLines, entry]

theorem load_emit (n : Node) : Load (emit n) = some n := by
  have hsplit : (emit n).toList.splitOn '\n' = lines n := by
    rw [emit, String.toList_ofList]
    exact List.splitOn_intercalate '\n' (newline_not_mem_lines n) (lines_ne_nil n)
  simp only [Load, hsplit]
  exact read_lines n (Nat.lt_succ_self _)

example :
    emit (.Map [("a", .Scalar "1"), ("b", .Sequence [.Map [("c", .Null), ("d e", .Scalar "f")], .Sequence [], .Sequence [.Null]])]) =
      "a: 1\nb:\n  - c: ~\n    \"d e\": f\n  - []\n  -\n    - ~" := by
  decide

theorem emit_plain {text : String} (h : plain text.toList = true) : emit (.Scalar text) = text := by
  simp [emit, lines, scalar, h, String.ofList_toList]

/-- The conversions of a node to a string and of a key to a position. -/
def asString : Node → Option String
  | .Scalar text => some text
  | .Null => some "null"
  | _ => none

end Awcotn.Yaml.Block

namespace Awcotn.Yaml

/-- The block style as an implementation of the library. -/
def block : Yaml where
  Load := Block.Load
  emit := Block.emit
  asString := Block.asString
  asIndex := String.toNat?

theorem block_lawful : block.Lawful where
  load_emit := Block.load_emit
  load_empty := rfl
  emit_null := rfl
  asString_scalar _ := rfl

end Awcotn.Yaml
