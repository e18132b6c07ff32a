import Awcotn.Foundation.Loops

/-!
# YAML documents

The nodes of a YAML document and what a program does with them: it looks children up, assigns them, and appends to sequences. Reading a text and writing a node are left to a library, `Yaml`, of which `Yaml.Lawful` says what can be relied on. Results are `none` where the library throws.
-/

namespace Awcotn

/-- A node that is defined. The key of an entry is its scalar text. -/
inductive Yaml.Node
  | Null
  | Scalar (text : String)
  | Sequence (items : List Node)
  | Map (entries : List (String × Node))

/-- The functions of the library: reading a text, writing a node, and the conversions of a node to a string and of a key to a number. -/
structure Yaml where
  Load : String → Option Yaml.Node
  emit : Yaml.Node → String
  asString : Yaml.Node → Option String
  asIndex : String → Option ℕ

/-- What is written is read back. The empty text is the Null node, which is written `~`. -/
structure Yaml.Lawful (Y : Yaml) : Prop where
  load_emit : ∀ n, Y.Load (Y.emit n) = some n
  load_empty : Y.Load "" = some .Null
  emit_null : Y.emit .Null = "~"
  asString_scalar : ∀ text, Y.asString (.Scalar text) = some text

namespace Yaml

namespace Node

def size : Node → ℕ
  | Sequence items => items.length
  | Map entries => entries.length
  | _ => 0

/-- `n[key]` where it is read: an undefined node is `some none`. -/
def get (n : Node) (key : String) : Option (Option Node) :=
  match n with
  | Scalar _ => none
  | Map entries => some (entries.lookup key)
  | _ => some none

def assignEntry (entries : List (String × Node)) (key : String) (value : Node) : List (String × Node) :=
  match entries with
  | [] => [(key, value)]
  | (k, v) :: entries => if k = key then (k, value) :: entries else (k, v) :: assignEntry entries key value

/-- `n[key] = value`. A sequence becomes a map from its positions. -/
def assign (n : Node) (key : String) (value : Node) : Option Node :=
  match n with
  | Null => some (Map [(key, value)])
  | Scalar _ => none
  | Sequence items => some (Map (assignEntry (items.mapIdx fun i item => (toString i, item)) key value))
  | Map entries => some (Map (assignEntry entries key value))

/-- `n.push_back(item)`. -/
def push_back (n item : Node) : Option Node :=
  match n with
  | Null => some (Sequence [item])
  | Sequence items => some (Sequence (items ++ [item]))
  | _ => none

/-- The entries an iteration over a node visits. The elements of a sequence have no key. -/
def entries : Node → Option (List (String × Node))
  | Map entries => some entries
  | Sequence (_ :: _) => none
  | _ => some []

end Node

/-- `n[i]` for a position below the size. -/
def index (Y : Yaml) (i : ℕ) : Node → Option Node
  | .Sequence items => items[i]?
  | .Map entries => (entries.find? fun e => Y.asIndex e.1 = some i).map Prod.snd
  | _ => none

/-- The string under a key, or a default where there is none. -/
def text (Y : Yaml) (n : Node) (key fallback : String) : Option String := do
  match ← n.get key with
  | some m => Y.asString m
  | none => return fallback

/-- What is written of a node, nothing of an undefined one. -/
def print (Y : Yaml) : Option Node → String
  | none => ""
  | some n => Y.emit n

/-! ### Documents that are built up -/

theorem assignEntry_of_new {key : String} {value : Node} {entries : List (String × Node)}
    (h : key ∉ entries.map Prod.fst) : Node.assignEntry entries key value = entries ++ [(key, value)] := by
  induction entries with
  | nil => rfl
  | cons e entries ih =>
      simp only [List.map_cons, List.mem_cons, not_or] at h
      rw [Node.assignEntry, if_neg (Ne.symm h.1), ih h.2, List.cons_append]

theorem assignEntry_of_last {key : String} {old value : Node} {entries : List (String × Node)}
    (h : key ∉ entries.map Prod.fst) :
    Node.assignEntry (entries ++ [(key, old)]) key value = entries ++ [(key, value)] := by
  induction entries with
  | nil => simp [Node.assignEntry]
  | cons e entries ih =>
      simp only [List.map_cons, List.mem_cons, not_or] at h
      rw [List.cons_append, Node.assignEntry, if_neg (Ne.symm h.1), ih h.2, List.cons_append]

theorem lookup_of_new {key : String} {entries : List (String × Node)} (h : key ∉ entries.map Prod.fst) :
    entries.lookup key = none := by
  rw [List.lookup_eq_none_iff]
  intro e he
  have hne : key ≠ e.1 := fun heq => h (List.mem_map.2 ⟨e, he, heq.symm⟩)
  simpa using hne

/-- A loop that appends builds a sequence. -/
theorem foldlM_push_back {α : Type*} (f : α → Option Node) (items : List Node) (xs : List α) :
    xs.foldlM (fun n x => do Node.push_back n (← f x)) (.Sequence items) =
      (xs.mapM f).map fun new => .Sequence (items ++ new) := by
  induction xs generalizing items with
  | nil => simp
  | cons x xs ih =>
      rw [List.foldlM_cons, List.mapM_cons]
      cases f x with
      | none => rfl
      | some n =>
          refine (ih (items ++ [n])).trans ?_
          cases xs.mapM f <;> simp

/-- A loop that assigns to new keys builds a map. -/
theorem foldlM_assign {α : Type*} (key : α → String) (f : α → Option Node) {entries : List (String × Node)} {xs : List α}
    (hnodup : (entries.map Prod.fst ++ xs.map key).Nodup) :
    xs.foldlM (fun n x => do Node.assign n (key x) (← f x)) (.Map entries) =
      (xs.mapM fun x => (f x).map fun n => (key x, n)).map fun new => .Map (entries ++ new) := by
  induction xs generalizing entries with
  | nil => simp
  | cons x xs ih =>
      have hnew : key x ∉ entries.map Prod.fst := by
        intro hin
        exact (List.nodup_append.1 hnodup).2.2 _ hin _ (by simp) rfl
      rw [List.foldlM_cons, List.mapM_cons]
      cases f x with
      | none => rfl
      | some n =>
          have hassign : Node.assign (.Map entries) (key x) n = some (.Map (entries ++ [(key x, n)])) := by
            rw [Node.assign, assignEntry_of_new hnew]
          simp only [Option.bind_eq_bind, Option.bind_some, Option.map_some, hassign]
          refine (ih (by simpa using hnodup)).trans ?_
          cases xs.mapM fun x => (f x).map fun n => (key x, n) <;> simp

/-- An optional field of strings. -/
theorem text_eq {Y : Yaml} (hY : Y.Lawful) {entries : List (String × Node)} {present : Prop} [Decidable present]
    {key value : String} (hlookup : entries.lookup key = if present then some (.Scalar value) else none)
    (fallback : String) : Y.text (.Map entries) key fallback = some (if present then value else fallback) := by
  by_cases hpresent : present
  · simp [text, Node.get, hlookup, hpresent, hY.asString_scalar]
  · simp [text, Node.get, hlookup, hpresent]

/-! ### Loops that read -/

/-- A loop over the positions of a sequence visits its elements. -/
theorem mapM_index {β : Type*} (Y : Yaml) (f : Option Node → Option β) (items : List Node) :
    ((List.range items.length).mapM fun i => f (Y.index i (.Sequence items))) = items.mapM fun n => f (some n) := by
  have hread : (List.range items.length).map (fun i => items[i]?) = items.map some := by
    apply List.ext_getElem
    · simp
    · intro i hi hi'
      simp
  calc ((List.range items.length).mapM fun i => f (Y.index i (.Sequence items)))
    _ = ((List.range items.length).map (fun i => items[i]?)).mapM f := by rw [List.mapM_map]; rfl
    _ = items.mapM fun n => f (some n) := by rw [hread, List.mapM_map]; rfl

end Yaml

end Awcotn
