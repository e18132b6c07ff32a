import Awcotn.Foundation.Yaml
import Mathlib.Data.Finset.Dedup
import Mathlib.Data.Finset.Insert

/-!
# Configuration values as text

The `LexicalCast` templates of `config.h`, for the values that are built from integers and strings with the six container templates. A container is converted to text element by element: the text of an element is read as a YAML node, and the node of the container is written. On the way back the node of an element is written, and its text converted.
-/

namespace Awcotn

/-- The types of configuration values. -/
inductive Ty
  | int
  | string
  | vector (t : Ty)
  | list (t : Ty)
  | set (t : Ty)
  | unordered_set (t : Ty)
  | map (t : Ty)
  | unordered_map (t : Ty)

/-- The contents of a map with string keys: no key has two values. -/
structure Mapping (α : Type) where
  entries : Finset (String × α)
  functional : ∀ e ∈ entries, ∀ e' ∈ entries, e.1 = e'.1 → e = e'
  deriving DecidableEq

namespace Mapping

variable {α : Type} [DecidableEq α]

def empty : Mapping α := { entries := ∅, functional := by simp }

/-- `insert(std::make_pair(key, value))`, which leaves an existing entry as it is. -/
def insert (m : Mapping α) (e : String × α) : Mapping α :=
  if h : ∀ e' ∈ m.entries, e'.1 ≠ e.1 then
    { entries := Insert.insert e m.entries
      functional := by
        intro a ha b hb hab
        rw [Finset.mem_insert] at ha hb
        rcases ha with rfl | ha
        · rcases hb with rfl | hb
          · rfl
          · exact absurd hab.symm (h b hb)
        · rcases hb with rfl | hb
          · exact absurd hab (h a ha)
          · exact m.functional a ha b hb hab }
  else m

/-- A map that entries are inserted into one after the other. -/
def ofList (entries : List (String × α)) : Mapping α := entries.foldl insert empty

end Mapping

/-- The values of a type. Sequences have an order; sets and maps are known by their contents. -/
def Ty.Val : Ty → Type
  | int => Int32
  | string => String
  | vector t => List t.Val
  | list t => List t.Val
  | set t => Finset t.Val
  | unordered_set t => Finset t.Val
  | map t => Mapping t.Val
  | unordered_map t => Mapping t.Val

instance Ty.decidableEqVal : (t : Ty) → DecidableEq t.Val
  | int => inferInstanceAs (DecidableEq Int32)
  | string => inferInstanceAs (DecidableEq String)
  | vector t => have := decidableEqVal t; inferInstanceAs (DecidableEq (List t.Val))
  | list t => have := decidableEqVal t; inferInstanceAs (DecidableEq (List t.Val))
  | set t => have := decidableEqVal t; inferInstanceAs (DecidableEq (Finset t.Val))
  | unordered_set t => have := decidableEqVal t; inferInstanceAs (DecidableEq (Finset t.Val))
  | map t => have := decidableEqVal t; inferInstanceAs (DecidableEq (Mapping t.Val))
  | unordered_map t => have := decidableEqVal t; inferInstanceAs (DecidableEq (Mapping t.Val))

/-- The order in which a container of some type is iterated over. -/
structure Iteration where
  order : Ty → {α : Type} → Finset α → List α
  nodup : ∀ c {α : Type} (s : Finset α), (order c s).Nodup
  mem_order : ∀ c {α : Type} (s : Finset α) a, a ∈ order c s ↔ a ∈ s

/-- `boost::lexical_cast` between `int` and `std::string`. It is the identity on strings. -/
structure Boost where
  toText : Int32 → String
  toInt : String → Option Int32

/-- An integer is read back from its text, and its text is written as it is. -/
structure Boost.Lawful (B : Boost) (Y : Yaml) : Prop where
  toInt_toText : ∀ k, B.toInt (B.toText k) = some k
  emit_toText : ∀ k, Y.emit (.Scalar (B.toText k)) = B.toText k

namespace LexicalCast

open Yaml

section

variable (Y : Yaml) {α : Type}

/-- From a container to text, `node` being the empty node it begins with. -/
def sequenceText (node : Node) (cast : α → Option String) (v : List α) : Option String :=
  (v.foldlM (fun (node : Node) i => do node.push_back (← (cast i).bind Y.Load)) node).map Y.emit

/-- From a map to text. -/
def mapText (cast : α → Option String) (v : List (String × α)) : Option String :=
  (v.foldlM (fun (node : Node) (i : String × α) => do node.assign i.1 (← (cast i.2).bind Y.Load)) (.Map [])).map Y.emit

/-- From text to the elements of a container. -/
def sequenceItems (cast : String → Option α) (v : String) : Option (List α) := do
  let node ← Y.Load v
  (List.range node.size).mapM fun i => cast (Y.print (Y.index i node))

/-- From text to the entries of a map. -/
def mapItems (cast : String → Option α) (v : String) : Option (List (String × α)) := do
  let node ← Y.Load v
  (← node.entries).mapM fun it => do return (it.1, ← cast (Y.print (some it.2)))

end

variable (Y : Yaml) (B : Boost) (it : Iteration)

/-- `LexicalCast<T, std::string>`. -/
def toString : (t : Ty) → t.Val → Option String
  | .int, v => some (B.toText v)
  | .string, v => some v
  | .vector t, v => sequenceText Y .Null (toString t) v
  | .list t, v => sequenceText Y (.Sequence []) (toString t) v
  | .set t, v => sequenceText Y (.Sequence []) (toString t) (it.order (.set t) v)
  | .unordered_set t, v => sequenceText Y (.Sequence []) (toString t) (it.order (.unordered_set t) v)
  | .map t, v => mapText Y (toString t) (it.order (.map t) v.entries)
  | .unordered_map t, v => mapText Y (toString t) (it.order (.unordered_map t) v.entries)

/-- `LexicalCast<std::string, T>`. -/
def ofString : (t : Ty) → String → Option t.Val
  | .int, v => B.toInt v
  | .string, v => some v
  | .vector t, v => sequenceItems Y (ofString t) v
  | .list t, v => sequenceItems Y (ofString t) v
  | .set t, v => (sequenceItems Y (ofString t) v).map List.toFinset
  | .unordered_set t, v => (sequenceItems Y (ofString t) v).map List.toFinset
  | .map t, v => (mapItems Y (ofString t) v).map Mapping.ofList
  | .unordered_map t, v => (mapItems Y (ofString t) v).map Mapping.ofList

end LexicalCast

end Awcotn
