import Awcotn.Config.Listeners
import Awcotn.Foundation.Yaml
import Mathlib.Data.List.Infix
import Mathlib.Tactic.Common

/-!
# Loading a configuration

`Config::LoadFromYaml` lists the nodes of a document that lie below map keys only, under the keys joined by dots, and passes the text of each to the variable of that name, if there is one. A node whose path has a character that is not permitted is left out with everything below it. `loadFromYaml_loaded` says which calls that makes, and what they leave of each variable.
-/

namespace Awcotn.Config

open Yaml (Node)

/-! ### The functions -/

/-- The characters of a name. -/
def permitted : List Char := "abcdefghijklmnopqrstuvwxyz._0123456789".toList

/-- `find_first_not_of` finds nothing. -/
def valid (name : String) : Bool := name.toList.all (permitted.contains ·)

/-- The path of an entry. -/
def child (path key : String) : String := if path.isEmpty then key else path ++ "." ++ key

mutual

/-- The first argument is the path of the node. -/
def ListAllMember : String → Node → List (String × Node) → List (String × Node)
  | path, .Map entries, output => if !valid path then output else listEntries path entries (output ++ [(path, .Map entries)])
  | path, node, output => if !valid path then output else output ++ [(path, node)]

/-- The loop of `ListAllMember` over the entries of a map. -/
def listEntries : String → List (String × Node) → List (String × Node) → List (String × Node)
  | _, [], output => output
  | path, (key, value) :: entries, output => listEntries path entries (ListAllMember (child path key) value output)

end

/-- The registered variables: which names there are, and the conversion and the listeners of each variable. -/
structure Registry (T L : String → Type*) where
  contains : String → Bool
  FromStr : ∀ name, String → Option (T name)
  m_cbs : ∀ name, List (L name)
  throws : ∀ name, L name → T name → T name → Bool

/-- The values of the variables, and what their listeners have been told. -/
abbrev Datas (T L : String → Type*) := ∀ name, Listened (T name) (L name)

/-- A call of `fromString`: the variable, the node it is for, the text, and the result. -/
structure Call where
  name : String
  node : Node
  val : String
  result : Bool

/-- The text of a node. -/
def text (Y : Yaml) : Node → String
  | .Scalar text => text
  | node => Y.emit node

section

variable {T L : String → Type*} [∀ name, DecidableEq (T name)] (R : Registry T L) (Y : Yaml)

def fromString (name val : String) (v : Listened (T name) (L name)) : Bool × Listened (T name) (L name) :=
  v.fromString (R.throws name) (R.m_cbs name) (R.FromStr name) val

/-- The loop body of `LoadFromYaml`, with the calls so far. -/
def loadNode (s : List Call × Datas T L) (i : String × Node) : List Call × Datas T L :=
  if i.1.isEmpty then s
  else
    let key := i.1.map Char.toLower
    if R.contains key then
      let r := fromString R key (text Y i.2) (s.2 key)
      (s.1 ++ [⟨key, i.2, text Y i.2, r.1⟩], Function.update s.2 key r.2)
    else s

/-- The calls of `fromString` that are made, in order, and what they leave. -/
def LoadFromYaml (root : Node) (s : Datas T L) : List Call × Datas T L :=
  (ListAllMember "" root []).foldl (loadNode R Y) ([], s)

end

/-! ### What is to be loaded -/

mutual

/-- The nodes that are reached by map keys, with the keys, in pre-order. -/
def occurrences : Node → List (List String × Node)
  | .Map entries => ([], .Map entries) :: entryOccurrences entries
  | node => [([], node)]

def entryOccurrences : List (String × Node) → List (List String × Node)
  | [] => []
  | (key, value) :: entries => (occurrences value).map (fun o => (key :: o.1, o.2)) ++ entryOccurrences entries

end

/-- The keys of a node joined by dots; empty ones at the front add nothing. -/
def joined (keys : List String) : String := ".".intercalate (keys.dropWhile (· = ""))

/-- The path of a node and those of all nodes above it have only permitted characters. -/
def permits (keys : List String) : Bool := keys.inits.all fun above => valid (joined above)

/-- A node below map keys. -/
inductive Below : Node → List String → Node → Prop
  | refl (n : Node) : Below n [] n
  | entry {entries : List (String × Node)} {key : String} {value : Node} {keys : List String} {n : Node} :
      (key, value) ∈ entries → Below value keys n → Below (.Map entries) (key :: keys) n

theorem below_iff_of_leaf {root n : Node} {keys : List String} (hleaf : ∀ entries, root ≠ .Map entries) :
    Below root keys n ↔ keys = [] ∧ n = root := by
  constructor
  · intro h
    cases h with
    | refl => exact ⟨rfl, rfl⟩
    | entry => exact absurd rfl (hleaf _)
  · rintro ⟨rfl, rfl⟩
    exact .refl _

mutual

theorem mem_occurrences {keys : List String} {n : Node} : ∀ root : Node, (keys, n) ∈ occurrences root ↔ Below root keys n
  | .Null | .Scalar _ | .Sequence _ => by
    refine Iff.trans ?_ (below_iff_of_leaf ?_).symm
    · simp only [occurrences, List.mem_singleton, Prod.mk.injEq]
    · exact fun _ => nofun
  | .Map entries => by
    rw [occurrences, List.mem_cons, mem_entryOccurrences entries]
    constructor
    · rintro (heq | ⟨key, value, rest, hentry, rfl, hbelow⟩)
      · cases heq
        exact .refl _
      · exact .entry hentry hbelow
    · intro h
      cases h with
      | refl => exact .inl rfl
      | entry hentry hbelow => exact .inr ⟨_, _, _, hentry, rfl, hbelow⟩

theorem mem_entryOccurrences {keys : List String} {n : Node} : ∀ entries : List (String × Node),
    (keys, n) ∈ entryOccurrences entries ↔ ∃ key value rest, (key, value) ∈ entries ∧ keys = key :: rest ∧ Below value rest n
  | [] => by simp [entryOccurrences]
  | (key, value) :: entries => by
    simp only [entryOccurrences, List.mem_append, List.mem_map, Prod.mk.injEq, Prod.exists, mem_entryOccurrences entries,
      List.mem_cons]
    constructor
    · rintro (⟨rest, m, hmem, rfl, rfl⟩ | ⟨key', value', rest, hentry, rfl, hbelow⟩)
      · exact ⟨key, value, rest, .inl ⟨rfl, rfl⟩, rfl, (mem_occurrences value).1 hmem⟩
      · exact ⟨key', value', rest, .inr hentry, rfl, hbelow⟩
    · rintro ⟨key', value', rest, ⟨rfl, rfl⟩ | hentry, rfl, hbelow⟩
      · exact .inl ⟨rest, n, (mem_occurrences _).2 hbelow, rfl, rfl⟩
      · exact .inr ⟨key', value', rest, hentry, rfl, hbelow⟩

end

/-! ### The listing -/

theorem foldl_child_of_ne {path : String} (hne : path ≠ "") (keys : List String) :
    keys.foldl child path = ".".intercalate (path :: keys) := by
  induction keys generalizing path with
  | nil => exact String.intercalate_singleton.symm
  | cons key keys ih =>
      have hchild : child path key = path ++ "." ++ key := by simp [child, hne]
      rw [List.foldl_cons, hchild, ih (by simp), String.intercalate_cons_cons, String.intercalate_cons_append]

/-- The path of a node as it is put together on the way. -/
theorem foldl_child (keys : List String) : keys.foldl child "" = joined keys := by
  induction keys with
  | nil => rfl
  | cons key keys ih =>
      have hchild : child "" key = key := by simp [child]
      rw [List.foldl_cons, hchild, joined]
      by_cases hempty : key = ""
      · rw [hempty, ih, joined, List.dropWhile_cons_of_pos (by simp)]
      · rw [foldl_child_of_ne hempty, List.dropWhile_cons_of_neg (by simpa using hempty)]

/-- `permits` below a node with a path. -/
def permitsFrom (path : String) (keys : List String) : Bool := keys.inits.all fun above => valid (above.foldl child path)

theorem permitsFrom_cons (path key : String) (keys : List String) :
    permitsFrom path (key :: keys) = (valid path && permitsFrom (child path key) keys) := by
  simp [permitsFrom, List.all_map, Function.comp_def]

theorem valid_of_permitsFrom {path : String} {keys : List String} (h : permitsFrom path keys = true) : valid path = true := by
  cases keys with
  | nil => simpa [permitsFrom] using h
  | cons key keys =>
      rw [permitsFrom_cons, Bool.and_eq_true] at h
      exact h.1

theorem permitsFrom_empty (keys : List String) : permitsFrom "" keys = permits keys := by
  simp only [permitsFrom, permits, foldl_child]

/-- What is listed of some nodes below a node with a path. -/
def listed (path : String) (os : List (List String × Node)) : List (String × Node) :=
  (os.filter fun o => permitsFrom path o.1).map fun o => (o.1.foldl child path, o.2)

theorem listed_append (path : String) (os os' : List (List String × Node)) :
    listed path (os ++ os') = listed path os ++ listed path os' := by
  simp [listed]

/-- Nothing is listed below a path that is not permitted. -/
theorem listed_of_not_valid {path : String} (hpath : valid path = false) (os : List (List String × Node)) :
    listed path os = [] := by
  have hnone : os.filter (fun o => permitsFrom path o.1) = [] := by
    refine List.filter_eq_nil_iff.2 fun o _ hpermits => ?_
    rw [valid_of_permitsFrom hpermits] at hpath
    cases hpath
  rw [listed, hnone, List.map_nil]

theorem listed_self {path : String} (hpath : valid path = true) (n : Node) : listed path [([], n)] = [(path, n)] := by
  simp [listed, permitsFrom, hpath]

theorem listed_entry {path : String} (hpath : valid path = true) (key : String) (os : List (List String × Node)) :
    listed path (os.map fun o => (key :: o.1, o.2)) = listed (child path key) os := by
  simp [listed, List.filter_map, Function.comp_def, permitsFrom_cons, hpath]

mutual

theorem listAllMember_eq : ∀ (node : Node) (path : String) (output : List (String × Node)),
    ListAllMember path node output = output ++ listed path (occurrences node)
  | .Null, path, output | .Scalar _, path, output | .Sequence _, path, output => by
    cases hpath : valid path with
    | false => simp [ListAllMember, hpath, listed_of_not_valid hpath]
    | true => simp [ListAllMember, occurrences, hpath, listed_self hpath]
  | .Map entries, path, output => by
    cases hpath : valid path with
    | false => simp [ListAllMember, hpath, listed_of_not_valid hpath]
    | true =>
        have hcons : occurrences (.Map entries) = [([], .Map entries)] ++ entryOccurrences entries := rfl
        rw [ListAllMember, hpath, Bool.not_true, if_neg Bool.false_ne_true, listEntries_eq entries hpath, hcons, listed_append,
          listed_self hpath, List.append_assoc]

theorem listEntries_eq : ∀ (entries : List (String × Node)) {path : String} (_ : valid path = true)
    (output : List (String × Node)), listEntries path entries output = output ++ listed path (entryOccurrences entries)
  | [], path, _, output => by simp [listEntries, entryOccurrences, listed]
  | (key, value) :: entries, path, hpath, output => by
    rw [listEntries, listEntries_eq entries hpath, listAllMember_eq value, entryOccurrences, listed_append,
      listed_entry hpath, List.append_assoc]

end

/-- The nodes whose paths are permitted, in pre-order. -/
theorem listAllMember_root (root : Node) : ListAllMember "" root [] =
    ((occurrences root).filter fun o => permits o.1).map fun o => (joined o.1, o.2) := by
  rw [listAllMember_eq, List.nil_append, listed]
  simp only [permitsFrom_empty, foldl_child]

/-- `B` is not permitted, and neither is what is below it; two nodes have the path `a.b`. -/
example : (ListAllMember "" (.Map [("a", .Map [("b", .Null), ("B", .Map [("c", .Null)])]), ("a.b", .Null)]) []).map Prod.fst =
    ["", "a", "a.b", "a.b"] := by
  decide

/-! ### The calls -/

theorem toLower_of_permitted {c : Char} (hc : c ∈ permitted) : c.toLower = c := by
  have hall : permitted.all (fun c => c.toLower == c) = true := rfl
  simpa using List.all_eq_true.1 hall c hc

/-- A name of permitted characters is in lower case already. -/
theorem map_toLower_of_valid {name : String} (h : valid name = true) : name.map Char.toLower = name := by
  rw [← String.toList_inj, String.toList_map]
  refine (List.map_congr_left fun c hc => ?_).trans (List.map_id _)
  exact toLower_of_permitted (by simpa using List.all_eq_true.1 h c hc)

section

variable {T L : String → Type*} [∀ name, DecidableEq (T name)] {R : Registry T L} {Y : Yaml}

/-- What a call is made for. -/
def Call.request (c : Call) : String × Node × String := (c.name, c.node, c.val)

/-- The last of some calls that has assigned a variable. -/
def lastConverted (calls : List Call) (name : String) : Option Call :=
  (calls.filter fun c => c.name = name && c.result).getLast?

theorem lastConverted_append (calls : List Call) (c : Call) (name : String) :
    lastConverted (calls ++ [c]) name = if c.name = name ∧ c.result = true then some c else lastConverted calls name := by
  rw [lastConverted, List.filter_append]
  split_ifs with hlast
  · simp [hlast]
  · have hnone : [c].filter (fun c => c.name = name && c.result) = [] := by simpa using hlast
    rw [hnone, List.append_nil, lastConverted]

/-- The variables after some calls: each is as the calls for it alone leave it, and its value is that of the last that returned true. -/
structure After (R : Registry T L) (s : Datas T L) (r : List Call × Datas T L) : Prop where
  own : ∀ name, r.2 name =
    (r.1.filter fun c => c.name = name).foldl (fun v c => (fromString R name c.val v).2) (s name)
  value : ∀ name, match lastConverted r.1 name with
    | some c => R.FromStr name c.val = some (r.2 name).val
    | none => (r.2 name).val = (s name).val

theorem After.start (R : Registry T L) (s : Datas T L) : After R s ([], s) := ⟨fun _ => rfl, fun _ => rfl⟩

/-- One more call. -/
theorem After.call {s : Datas T L} {r : List Call × Datas T L} (h : After R s r) (name : String) (node : Node) (val : String) :
    After R s (r.1 ++ [⟨name, node, val, (fromString R name val (r.2 name)).1⟩],
      Function.update r.2 name (fromString R name val (r.2 name)).2) := by
  constructor
  · intro other
    rw [List.filter_append, List.foldl_append, ← h.own other]
    by_cases heq : other = name
    · subst heq
      simp
    · simp [Function.update_of_ne heq, Ne.symm heq]
  · intro other
    rw [lastConverted_append]
    by_cases heq : other = name
    · subst heq
      have hval : ((fromString R other val (r.2 other)).1 = true →
            R.FromStr other val = some (fromString R other val (r.2 other)).2.val) ∧
          ((fromString R other val (r.2 other)).1 = false → (fromString R other val (r.2 other)).2.val = (r.2 other).val) :=
        Listened.fromString_val (r.2 other) val
      cases hresult : (fromString R other val (r.2 other)).1 with
      | true => simpa [hresult] using hval.1 hresult
      | false =>
          simpa [hresult, hval.2 hresult] using h.value other
    · simpa [Function.update_of_ne heq, Ne.symm heq] using h.value other

/-- A node makes a call if its path is the name of a variable and not empty. -/
theorem loadNode_cases (s : List Call × Datas T L) {i : String × Node} (hvalid : valid i.1 = true) :
    loadNode R Y s i = if i.1 ≠ "" ∧ R.contains i.1 = true then
      (s.1 ++ [⟨i.1, i.2, text Y i.2, (fromString R i.1 (text Y i.2) (s.2 i.1)).1⟩],
        Function.update s.2 i.1 (fromString R i.1 (text Y i.2) (s.2 i.1)).2)
    else s := by
  rw [loadNode, map_toLower_of_valid hvalid]
  by_cases hempty : i.1 = ""
  · simp [hempty]
  · by_cases hcontains : R.contains i.1 <;> simp [hempty, hcontains]

/-- A node whose keys are permitted and joined to the name of a variable, which is not empty. -/
def named (R : Registry T L) (keys : List String) : Bool :=
  permits keys && (joined keys ≠ "" && R.contains (joined keys))

/-- What a load of `root` does that finds the variables as in `s`: it makes one call for each node whose keys are the name of a variable, in pre-order and with the text of the node, and changes the variables by these calls only. -/
structure Loaded (R : Registry T L) (Y : Yaml) (root : Node) (s : Datas T L) (r : List Call × Datas T L) : Prop
    extends After R s r where
  calls : r.1.map Call.request =
    ((occurrences root).filter fun o => named R o.1).map fun o => (joined o.1, o.2, text Y o.2)
  others : ∀ name, (∀ c ∈ r.1, c.name ≠ name) → r.2 name = s name

omit [∀ name, DecidableEq (T name)] in
theorem valid_of_mem_listAllMember {root : Node} {i : String × Node} (hi : i ∈ ListAllMember "" root []) :
    valid i.1 = true := by
  rw [listAllMember_root] at hi
  obtain ⟨o, ho, rfl⟩ := List.mem_map.1 hi
  have hall := List.all_eq_true.1 (List.mem_filter.1 ho).2
  exact hall o.1 ((List.mem_inits _ _).2 List.prefix_rfl)

/-- The loop over the listed nodes. -/
theorem After.loadNodes {s : Datas T L} {all_nodes : List (String × Node)} (hvalid : ∀ i ∈ all_nodes, valid i.1 = true)
    {r : List Call × Datas T L} (h : After R s r) : After R s (all_nodes.foldl (loadNode R Y) r) ∧
      (all_nodes.foldl (loadNode R Y) r).1.map Call.request = r.1.map Call.request ++
        (all_nodes.filter fun i => i.1 ≠ "" && R.contains i.1).map fun i => (i.1, i.2, text Y i.2) := by
  induction all_nodes generalizing r with
  | nil => exact ⟨h, by simp⟩
  | cons i all_nodes ih =>
      have hrest : ∀ j ∈ all_nodes, valid j.1 = true := fun j hj => hvalid j (List.mem_cons_of_mem _ hj)
      rw [List.foldl_cons, loadNode_cases r (hvalid i List.mem_cons_self)]
      split_ifs with hcalled
      · obtain ⟨hafter, hcalls⟩ := ih hrest (h.call i.1 i.2 (text Y i.2))
        refine ⟨hafter, ?_⟩
        rw [hcalls]
        simp [hcalled, Call.request]
      · obtain ⟨hafter, hcalls⟩ := ih hrest h
        refine ⟨hafter, ?_⟩
        rw [hcalls, List.filter_cons_of_neg (by simpa using hcalled)]

/-- For every document and every registry, whatever throws: `LoadFromYaml` makes the calls that the document asks for, in pre-order, and each variable ends with what the last of its calls that returned true has assigned. -/
theorem loadFromYaml_loaded (R : Registry T L) (Y : Yaml) (root : Node) (s : Datas T L) :
    Loaded R Y root s (LoadFromYaml R Y root s) := by
  have hvalid : ∀ i ∈ ListAllMember "" root [], valid i.1 = true := fun _ => valid_of_mem_listAllMember
  obtain ⟨hafter, hcalls⟩ := (After.start R s).loadNodes (Y := Y) hvalid
  refine ⟨hafter, ?_, fun name hnone => ?_⟩
  · rw [LoadFromYaml, hcalls, listAllMember_root, List.filter_map, List.filter_filter]
    simp [named, Function.comp_def, Bool.and_comm]
  · have hempty : (LoadFromYaml R Y root s).1.filter (fun c => c.name = name) = [] :=
      List.filter_eq_nil_iff.2 fun c hc => by simpa using hnone c hc
    have hown := hafter.own name
    rwa [← LoadFromYaml, hempty] at hown

end

/-- A variable whose name is empty, which is a name that `Lookup` takes. -/
def unnamed : Registry (fun _ => String) (fun _ => Unit) where
  contains name := name = ""
  FromStr _ := some
  m_cbs _ := []
  throws _ _ _ _ := false

/-- The keys of the root are joined to the empty name, but no call is made for it. -/
theorem root_not_loaded :
    (LoadFromYaml unnamed ⟨fun _ => none, fun _ => "", fun _ => none, fun _ => none⟩ (.Scalar "5") fun _ => ⟨"", []⟩).1.map
        Call.request ≠
      ((occurrences (.Scalar "5")).filter fun o => permits o.1 && unnamed.contains (joined o.1)).map
        fun o => (joined o.1, o.2, text ⟨fun _ => none, fun _ => "", fun _ => none, fun _ => none⟩ o.2) := by
  intro h
  exact absurd (congrArg List.length h) (by decide)

end Awcotn.Config
