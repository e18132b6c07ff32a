import Awcotn.Config.LoadFromYaml
import Awcotn.Foundation.Holders
import Awcotn.Foundation.OrderedSet
import Awcotn.Foundation.Run
import Mathlib.Data.String.Basic

/-!
# The registered variables

`Config` keeps the variables of a program in one map, and every way to a variable goes through it: the two `Lookup`s, `LookupBase`, `Visit` and `LoadFromYaml`. The mutex of the map is held for one search at a time, and by `Visit` while it calls back; `LoadFromYaml` searches for each of its nodes anew and holds no lock between them. A variable has a mutex of its own: `setValue` calls the listeners under its read lock and assigns under its write lock afterwards, and `addListener` counts under its write lock.

Any number of threads make calls. A step of a thread goes to the next place where another thread can make a difference, so a call that takes one lock, and calls nothing while it holds it, is one step, and the others are taken apart. A listener, and the callback of `Visit`, is code of the application: while it runs its thread may make calls, each within the one before, and it returns or throws a `std::exception`.

The counter of `addListener` is shared by all variables of a type, and the mutex is that of one variable. Its accesses are steps of their own, each of which takes place as a whole. `step_effect` says what the steps of all these calls do.
-/

namespace Awcotn

open Config Transition
open Yaml (Node)

/-- A value with its type. -/
abbrev Value {τ : Type*} (E : τ → Type*) := Σ type, E type

/-- A read-write lock. It lists the threads that hold it, one that holds it twice twice. -/
structure RWMutex (Th : Type*) where
  readers : List Th
  writers : List Th

namespace RWMutex

variable {Th : Type*}

/-- No thread holds it. -/
def Free (m : RWMutex Th) : Prop := m.readers = [] ∧ m.writers = []

instance (m : RWMutex Th) : Decidable m.Free := inferInstanceAs (Decidable (_ ∧ _))

def rdlock (m : RWMutex Th) (t : Th) : RWMutex Th := { m with readers := t :: m.readers }

def wrlock (m : RWMutex Th) (t : Th) : RWMutex Th := { m with writers := t :: m.writers }

def unlockRead [DecidableEq Th] (m : RWMutex Th) (t : Th) : RWMutex Th := { m with readers := m.readers.erase t }

def unlockWrite [DecidableEq Th] (m : RWMutex Th) (t : Th) : RWMutex Th := { m with writers := m.writers.erase t }

end RWMutex

/-- What a variable has apart from its mutex: its listeners stand under their keys. -/
structure Content {τ : Type*} (E : τ → Type*) (L : Type*) where
  type : τ
  m_name : String
  m_description : String
  m_val : Value E
  m_cbs : List (ℕ × L)

/-- A `ConfigVar`. -/
structure Variable {τ : Type*} (E : τ → Type*) (L Th : Type*) extends Content E L where
  m_mutex : RWMutex Th

/-- The variables that have been made, whose pointers are their positions, the map from names to them, the threads that read it, and the counter that the variables of one type share in `addListener`. -/
structure ConfigVarMap {τ : Type*} (E : τ → Type*) (L Th : Type*) where
  made : List (Variable E L Th)
  s_datas : List (String × ℕ)
  s_mutex : List Th
  s_fun_id : τ → ℕ

namespace ConfigVarMap

variable {τ : Type*} {E : τ → Type*} {L Th : Type*}

/-! ### The functions -/

/-- What a call returns. A pointer may be null. -/
inductive Answer (L : Type*)
  | pointer (p : Option ℕ)
  | invalid_argument (name : String)
  | visited (vars : List ℕ)
  | returned (result : Bool)
  | key (key : ℕ)
  | listener (cb : Option L)
  | nothing

/-- A call that the application makes. `var` is a pointer that it has. -/
inductive Call {τ : Type*} (E : τ → Type*) (L : Type*)
  | Lookup (type : τ) (name : String) (default_value : E type) (description : String)
  | LookupOnly (type : τ) (name : String)
  | LookupBase (name : String)
  | Visit
  | LoadFromYaml (root : Node)
  | setValue (var : ℕ) (val : Value E)
  | fromString (var : ℕ) (val : String)
  | addListener (var : ℕ) (cb : L)
  | delListerer (var : ℕ) (key : ℕ)
  | getListener (var : ℕ) (key : ℕ)
  | clearListener (var : ℕ)

/-- What a step shows: the return of a call, the return of a listener with the old and the new value that it was told, an assignment, or a listener that is stored. -/
inductive Event {τ : Type*} (E : τ → Type*) (L : Type*)
  | answered (call : Call E L) (answer : Answer L)
  | told (var : ℕ) (cb : L) (old_value new_value : Value E)
  | assigned (var : ℕ) (val : Value E)
  | added (var : ℕ) (key : ℕ) (cb : L)

/-- Where a call of `addListener` is. -/
inductive Adding
  | entering
  | loaded (s_fun_id : ℕ)
  | stored
  | inserted

/-- A call in progress. `Visit` is in the callback for the first of `rest`, or done; `LoadFromYaml` has the nodes in `rest` left. A call of `fromString` converts, and then catches what its `setValue` throws. `setValue` is `entering`, in the listener that is the first of `cbs` or behind the last, or `assigning`. -/
inductive Frame {τ : Type*} (E : τ → Type*) (L : Type*)
  | Visit (seen rest : List ℕ)
  | LoadFromYaml (rest : List (String × Node))
  | fromString (var : ℕ) (val : String)
  | catching (var : ℕ) (val : String)
  | entering (var : ℕ) (val : Value E)
  | notifying (var : ℕ) (val : Value E) (cbs : List L)
  | assigning (var : ℕ) (val : Value E)
  | addListener (var : ℕ) (cb : L) (pc : Adding)

/-- What a step of a thread leaves: the map, the thread's calls, the innermost first, and what it shows. -/
structure Stepped {τ : Type*} (E : τ → Type*) (L Th : Type*) where
  base : ConfigVarMap E L Th
  calls : List (Frame E L)
  event : Option (Event E L)

/-- The code of the application runs. -/
def atLarge : List (Frame E L) → Bool
  | [] | .Visit _ (_ :: _) :: _ | .notifying _ _ (_ :: _) :: _ => true
  | _ => false

/-- The map and the counters before the first call. -/
def empty : ConfigVarMap E L Th := { made := [], s_datas := [], s_mutex := [], s_fun_id := fun _ => 0 }

/-- `GetDatas().find(name)`. -/
def find (s : ConfigVarMap E L Th) (name : String) : Option ℕ :=
  s.s_datas[OrderedSet.find (· < ·) Prod.fst name s.s_datas]?.map Prod.snd

def typeAt (s : ConfigVarMap E L Th) (var : ℕ) : Option τ := s.made[var]?.map fun v => v.type

/-- `std::dynamic_pointer_cast`. -/
def cast [DecidableEq τ] (s : ConfigVarMap E L Th) (type : τ) (p : ℕ) : Option ℕ :=
  if s.typeAt p = some type then some p else none

/-- The constructor of `ConfigVar`. -/
def ConfigVar (type : τ) (name : String) (default_value : E type) (description : String) : Variable E L Th where
  type := type
  m_name := name.map Char.toLower
  m_description := description
  m_val := ⟨type, default_value⟩
  m_cbs := []
  m_mutex := { readers := [], writers := [] }

/-- `Config::Lookup` with a default value. -/
def Lookup [DecidableEq τ] (s : ConfigVarMap E L Th) (type : τ) (name : String) (default_value : E type) (description : String) :
    Answer L × ConfigVarMap E L Th :=
  match s.find name with
  | some p => (.pointer (s.cast type p), s)
  | none =>
    if !valid name then (.invalid_argument name, s)
    else
      (.pointer (some s.made.length),
        { s with
          made := s.made ++ [ConfigVar type name default_value description]
          s_datas := OrderedSet.insert (· < ·) Prod.fst (name, s.made.length) s.s_datas })

/-- `Config::Lookup` without a default value. -/
def LookupOnly [DecidableEq τ] (s : ConfigVarMap E L Th) (type : τ) (name : String) : Option ℕ := (s.find name).bind (s.cast type)

/-- `Config::LookupBase`. -/
def LookupBase (s : ConfigVarMap E L Th) (name : String) : Option ℕ := s.find name

/-- The arguments of `cb` in `Config::Visit`, in order. -/
def Visit (s : ConfigVarMap E L Th) : List ℕ := s.s_datas.map Prod.snd

/-- Assign a variable. -/
def put (s : ConfigVarMap E L Th) (var : ℕ) (v : Variable E L Th) : ConfigVarMap E L Th := { s with made := s.made.set var v }

/-- `m_cbs.find(key)`. -/
def findCb (key : ℕ) (m_cbs : List (ℕ × L)) : ℕ := OrderedSet.find (· < ·) Prod.fst key m_cbs

/-- `m_cbs[key] = cb`. -/
def putCb (key : ℕ) (cb : L) (m_cbs : List (ℕ × L)) : List (ℕ × L) :=
  OrderedSet.insert (· < ·) Prod.fst (key, cb) (m_cbs.eraseIdx (findCb key m_cbs))

/-- A step on the variable at a pointer. -/
def through (s : ConfigVarMap E L Th) (var : ℕ) (f : Variable E L Th → Outcome Empty (Stepped E L Th)) :
    Outcome Empty (Stepped E L Th) :=
  match s.made[var]? with
  | some v => f v
  | none => .disabled

/-- What the application's call does at once. A value is passed to a variable of its type. -/
def call [DecidableEq τ] (s : ConfigVarMap E L Th) (t : Th) (calls : List (Frame E L)) :
    Call E L → Outcome Empty (Stepped E L Th)
  | .Lookup type name default_value description =>
    if s.s_mutex = [] then
      let r := s.Lookup type name default_value description
      .next ⟨r.2, calls, some (.answered (.Lookup type name default_value description) r.1)⟩
    else .disabled
  | .LookupOnly type name => .next ⟨s, calls, some (.answered (.LookupOnly type name) (.pointer (s.LookupOnly type name)))⟩
  | .LookupBase name => .next ⟨s, calls, some (.answered (.LookupBase name) (.pointer (s.LookupBase name)))⟩
  | .Visit => .next ⟨{ s with s_mutex := t :: s.s_mutex }, .Visit [] s.Visit :: calls, some (.answered .Visit (.visited s.Visit))⟩
  | .LoadFromYaml root => .next ⟨s, .LoadFromYaml (ListAllMember "" root []) :: calls, none⟩
  | .setValue var val => if s.typeAt var = some val.1 then .next ⟨s, .entering var val :: calls, none⟩ else .disabled
  | .fromString var val => s.through var fun _ => .next ⟨s, .fromString var val :: calls, none⟩
  | .addListener var cb => s.through var fun _ => .next ⟨s, .addListener var cb .entering :: calls, none⟩
  | .delListerer var key =>
    s.through var fun v =>
      if v.m_mutex.Free then
        .next ⟨s.put var { v with m_cbs := v.m_cbs.eraseIdx (findCb key v.m_cbs) }, calls,
          some (.answered (.delListerer var key) .nothing)⟩
      else .disabled
  | .getListener var key =>
    s.through var fun v =>
      if v.m_mutex.writers = [] then
        .next ⟨s, calls, some (.answered (.getListener var key) (.listener (v.m_cbs[findCb key v.m_cbs]?.map Prod.snd)))⟩
      else .disabled
  | .clearListener var =>
    s.through var fun v =>
      if v.m_mutex.Free then
        .next ⟨s.put var { v with m_cbs := [] }, calls, some (.answered (.clearListener var) .nothing)⟩
      else .disabled

section

variable [DecidableEq τ] [∀ type, DecidableEq (E type)] [DecidableEq Th] (FromStr : ∀ type, String → Option (E type)) (Y : Yaml)

/-- What a thread does next in its innermost call, where a callback returns if it is in one. -/
def run (s : ConfigVarMap E L Th) (t : Th) : List (Frame E L) → Outcome Empty (Stepped E L Th)
  | [] => .disabled
  | .Visit seen (p :: rest) :: calls => .next ⟨s, .Visit (seen ++ [p]) rest :: calls, none⟩
  | .Visit _ [] :: calls => .next ⟨{ s with s_mutex := s.s_mutex.erase t }, calls, none⟩
  | .LoadFromYaml [] :: calls => .next ⟨s, calls, none⟩
  | .LoadFromYaml (i :: rest) :: calls =>
    if i.1.isEmpty then .next ⟨s, .LoadFromYaml rest :: calls, none⟩
    else
      let key := i.1.map Char.toLower
      let var := s.LookupBase key
      let inner := match var with
        | some p => [.fromString p (text Y i.2), .LoadFromYaml rest]
        | none => [.LoadFromYaml rest]
      .next ⟨s, inner ++ calls, some (.answered (.LookupBase key) (.pointer var))⟩
  | .fromString var val :: calls =>
    s.through var fun v =>
      match FromStr v.type val with
      | some x => .next ⟨s, .entering var ⟨v.type, x⟩ :: .catching var val :: calls, none⟩
      | none => .next ⟨s, calls, some (.answered (.fromString var val) (.returned false))⟩
  | .catching var val :: calls => .next ⟨s, calls, some (.answered (.fromString var val) (.returned true))⟩
  | .entering var val :: calls =>
    s.through var fun v =>
      if v.m_mutex.writers = [] then
        if val = v.m_val then .next ⟨s, calls, none⟩
        else
          .next ⟨s.put var { v with m_mutex := v.m_mutex.rdlock t }, .notifying var val (v.m_cbs.map Prod.snd) :: calls, none⟩
      else .disabled
  | .notifying var val (cb :: cbs) :: calls =>
    s.through var fun v => .next ⟨s, .notifying var val cbs :: calls, some (.told var cb v.m_val val)⟩
  | .notifying var val [] :: calls =>
    s.through var fun v => .next ⟨s.put var { v with m_mutex := v.m_mutex.unlockRead t }, .assigning var val :: calls, none⟩
  | .assigning var val :: calls =>
    s.through var fun v =>
      if v.m_mutex.Free then .next ⟨s.put var { v with m_val := val }, calls, some (.assigned var val)⟩ else .disabled
  | .addListener var cb .entering :: calls =>
    s.through var fun v =>
      if v.m_mutex.Free then
        .next ⟨s.put var { v with m_mutex := v.m_mutex.wrlock t },
          .addListener var cb (.loaded (s.s_fun_id v.type)) :: calls, none⟩
      else .disabled
  | .addListener var cb (.loaded s_fun_id) :: calls =>
    s.through var fun v =>
      .next ⟨{ s with s_fun_id := Function.update s.s_fun_id v.type ((s_fun_id + 1) % 2 ^ 64) },
        .addListener var cb .stored :: calls, none⟩
  | .addListener var cb .stored :: calls =>
    s.through var fun v =>
      let key := s.s_fun_id v.type
      .next ⟨s.put var { v with m_cbs := putCb key cb v.m_cbs }, .addListener var cb .inserted :: calls,
        some (.added var key cb)⟩
  | .addListener var cb .inserted :: calls =>
    s.through var fun v =>
      .next ⟨s.put var { v with m_mutex := v.m_mutex.unlockWrite t }, calls,
        some (.answered (.addListener var cb) (.key (s.s_fun_id v.type)))⟩

/-- A `setValue` that throws has been called by `fromString`, which returns false, or by the application. -/
def unwind : List (Frame E L) → List (Frame E L) × Option (Event E L)
  | .catching var val :: calls => (calls, some (.answered (.fromString var val) (.returned false)))
  | calls => (calls, none)

/-- The callback that a thread is in throws. -/
def throw (s : ConfigVarMap E L Th) (t : Th) : List (Frame E L) → Outcome Empty (Stepped E L Th)
  | .Visit _ (_ :: _) :: calls => .next ⟨{ s with s_mutex := s.s_mutex.erase t }, calls, none⟩
  | .notifying var _ (_ :: _) :: calls =>
    s.through var fun v =>
      .next ⟨s.put var { v with m_mutex := v.m_mutex.unlockRead t }, (unwind calls).1, (unwind calls).2⟩
  | _ => .disabled

/-! ### Runs -/

/-- The map, the calls in progress of each thread, and what has been shown, the oldest first. -/
structure State {τ : Type*} (E : τ → Type*) (L Th : Type*) where
  base : ConfigVarMap E L Th
  calls : Th → List (Frame E L)
  log : List (Event E L)

/-- A thread makes a call, goes on or returns from a callback, or leaves a callback by an exception. -/
inductive Action {τ : Type*} (E : τ → Type*) (L Th : Type*)
  | call (t : Th) (call : Call E L)
  | run (t : Th)
  | throw (t : Th)

def State.stepped (s : State E L Th) (t : Th) (m : Stepped E L Th) : State E L Th where
  base := m.base
  calls := Function.update s.calls t m.calls
  log := s.log ++ m.event.toList

def step (s : State E L Th) : Action E L Th → Outcome Empty (State E L Th)
  | .call t call => if atLarge (s.calls t) then (s.base.call t (s.calls t) call).map (s.stepped t) else .disabled
  | .run t => (s.base.run FromStr Y t (s.calls t)).map (s.stepped t)
  | .throw t => (s.base.throw t (s.calls t)).map (s.stepped t)

end

def start : State E L Th := { base := empty, calls := fun _ => [], log := [] }

/-! ### What a step does -/

/-- A lock that a call holds: that of the map, or that of a variable. -/
inductive Lock
  | map
  | read (var : ℕ)
  | write (var : ℕ)
  deriving DecidableEq

def Frame.holds : Frame E L → Option Lock
  | .Visit .. => some .map
  | .notifying var _ _ => some (.read var)
  | .addListener _ _ .entering => none
  | .addListener var _ _ => some (.write var)
  | _ => none

/-- The threads that hold a lock. -/
def holders (s : ConfigVarMap E L Th) : Lock → List Th
  | .map => s.s_mutex
  | .read var => (s.made[var]?.map fun v => v.m_mutex.readers).getD []
  | .write var => (s.made[var]?.map fun v => v.m_mutex.writers).getD []

/-- The variables, as any thread sees them. -/
def contents (s : ConfigVarMap E L Th) : List (Content E L) := s.made.map Variable.toContent

/-- What calls in progress can rely on. `Visit` has seen and still sees what is in the map; a value has the type of its variable; and while listeners are called, the value that stands is another and the listeners that are left stand last. -/
def Frame.Fits (d : List (Content E L)) (vars : List ℕ) : Frame E L → Prop
  | .Visit seen rest => seen ++ rest = vars
  | .entering var val | .assigning var val => ∃ c, d[var]? = some c ∧ val.1 = c.type
  | .notifying var val cbs => ∃ c, d[var]? = some c ∧ val.1 = c.type ∧ val ≠ c.m_val ∧ cbs <:+ c.m_cbs.map Prod.snd
  | .addListener var _ _ => ∃ c, d[var]? = some c
  | _ => True

section

variable [DecidableEq τ]

/-- The answer of a call that leaves the variables as they are. -/
inductive Answered (s : ConfigVarMap E L Th) : Event E L → Prop
  | found {type : τ} {name : String} {default_value : E type} {description : String} {p : ℕ} : s.find name = some p →
      Answered s (.answered (.Lookup type name default_value description) (.pointer (s.cast type p)))
  | invalid {type : τ} {name : String} {default_value : E type} {description : String} : s.find name = none →
      valid name = false →
      Answered s (.answered (.Lookup type name default_value description) (.invalid_argument name))
  | LookupOnly (type : τ) (name : String) :
      Answered s (.answered (.LookupOnly type name) (.pointer (s.LookupOnly type name)))
  | LookupBase (name : String) : Answered s (.answered (.LookupBase name) (.pointer (s.LookupBase name)))
  | fromString (var : ℕ) (val : String) (result : Bool) : Answered s (.answered (.fromString var val) (.returned result))
  | getListener {var : ℕ} {v : Variable E L Th} (key : ℕ) : s.made[var]? = some v → Answered s
      (.answered (.getListener var key) (.listener (v.m_cbs[findCb key v.m_cbs]?.map Prod.snd)))

/-- What is written under the write lock of a variable outside of `addListener`. -/
inductive Writes (var : ℕ) (c : Content E L) : Event E L → Content E L → Prop
  | assigned (val : Value E) : Writes var c (.assigned var val) { c with m_val := val }
  | removed (key : ℕ) : Writes var c (.answered (.delListerer var key) .nothing)
      { c with m_cbs := c.m_cbs.eraseIdx (findCb key c.m_cbs) }
  | cleared : Writes var c (.answered (.clearListener var) .nothing) { c with m_cbs := [] }

/-- The steps that a thread with some calls in progress can make. -/
inductive Effect [DecidableEq Th] (s : ConfigVarMap E L Th) (t : Th) : List (Frame E L) → Stepped E L Th → Prop
  | quiet (inner inner' : List (Frame E L)) {calls : List (Frame E L)} {event : Option (Event E L)} : (∀ f ∈ inner, f.holds = none) →
      (∀ f ∈ inner', f.holds = none ∧ f.Fits s.contents s.Visit) → (∀ e ∈ event, Answered s e) →
      Effect s t (inner ++ calls) ⟨s, inner' ++ calls, event⟩
  | made {calls : List (Frame E L)} {type : τ} {name : String} (default_value : E type) (description : String) :
      s.s_mutex = [] → s.find name = none → valid name = true →
      Effect s t calls ⟨{ s with
          made := s.made ++ [ConfigVar type name default_value description]
          s_datas := OrderedSet.insert (· < ·) Prod.fst (name, s.made.length) s.s_datas }, calls,
        some (.answered (.Lookup type name default_value description) (.pointer (some s.made.length)))⟩
  | visiting (calls : List (Frame E L)) : Effect s t calls
      ⟨{ s with s_mutex := t :: s.s_mutex }, .Visit [] s.Visit :: calls, some (.answered .Visit (.visited s.Visit))⟩
  | visited (seen : List ℕ) (p : ℕ) (rest : List ℕ) (calls : List (Frame E L)) :
      Effect s t (.Visit seen (p :: rest) :: calls) ⟨s, .Visit (seen ++ [p]) rest :: calls, none⟩
  | left (seen rest : List ℕ) (calls : List (Frame E L)) :
      Effect s t (.Visit seen rest :: calls) ⟨{ s with s_mutex := s.s_mutex.erase t }, calls, none⟩
  | compared {var : ℕ} {val : Value E} {v : Variable E L Th} {calls : List (Frame E L)} : s.made[var]? = some v →
      v.m_mutex.writers = [] → val ≠ v.m_val →
      Effect s t (.entering var val :: calls)
        ⟨s.put var { v with m_mutex := v.m_mutex.rdlock t }, .notifying var val (v.m_cbs.map Prod.snd) :: calls, none⟩
  | told {var : ℕ} {v : Variable E L Th} (val : Value E) (cb : L) (cbs : List L) (calls : List (Frame E L)) :
      s.made[var]? = some v →
      Effect s t (.notifying var val (cb :: cbs) :: calls) ⟨s, .notifying var val cbs :: calls, some (.told var cb v.m_val val)⟩
  | unlocked (inner inner' : List (Frame E L)) {var : ℕ} {val : Value E} {v : Variable E L Th} {cbs : List L}
      {calls : List (Frame E L)} {event : Option (Event E L)} : s.made[var]? = some v → (∀ f ∈ inner, f.holds = none) →
      (∀ f ∈ inner', f = .assigning var val) → (∀ e ∈ event, Answered s e) →
      Effect s t (.notifying var val cbs :: (inner ++ calls))
        ⟨s.put var { v with m_mutex := v.m_mutex.unlockRead t }, inner' ++ calls, event⟩
  | written (inner : List (Frame E L)) {var : ℕ} {v : Variable E L Th} {c : Content E L} {calls : List (Frame E L)}
      {event : Event E L} :
      s.made[var]? = some v → v.m_mutex.Free → (∀ f ∈ inner, f.holds = none) → Writes var v.toContent event c →
      (∀ val, event = .assigned var val → .assigning var val ∈ inner) →
      Effect s t (inner ++ calls) ⟨s.put var { v with toContent := c }, calls, some event⟩
  | locked {var : ℕ} {v : Variable E L Th} (cb : L) (calls : List (Frame E L)) : s.made[var]? = some v → v.m_mutex.Free →
      Effect s t (.addListener var cb .entering :: calls)
        ⟨s.put var { v with m_mutex := v.m_mutex.wrlock t }, .addListener var cb (.loaded (s.s_fun_id v.type)) :: calls, none⟩
  | stored {var : ℕ} {v : Variable E L Th} (cb : L) (s_fun_id : ℕ) (calls : List (Frame E L)) : s.made[var]? = some v →
      Effect s t (.addListener var cb (.loaded s_fun_id) :: calls)
        ⟨{ s with s_fun_id := Function.update s.s_fun_id v.type ((s_fun_id + 1) % 2 ^ 64) },
          .addListener var cb .stored :: calls, none⟩
  | inserted {var : ℕ} {v : Variable E L Th} (cb : L) (calls : List (Frame E L)) : s.made[var]? = some v →
      Effect s t (.addListener var cb .stored :: calls)
        ⟨s.put var { v with m_cbs := putCb (s.s_fun_id v.type) cb v.m_cbs }, .addListener var cb .inserted :: calls,
          some (.added var (s.s_fun_id v.type) cb)⟩
  | given {var : ℕ} {v : Variable E L Th} (cb : L) (calls : List (Frame E L)) : s.made[var]? = some v →
      Effect s t (.addListener var cb .inserted :: calls)
        ⟨s.put var { v with m_mutex := v.m_mutex.unlockWrite t }, calls,
          some (.answered (.addListener var cb) (.key (s.s_fun_id v.type)))⟩

variable [DecidableEq Th] {s : ConfigVarMap E L Th} {t : Th} {calls : List (Frame E L)} {m : Stepped E L Th}

omit [DecidableEq τ] [DecidableEq Th] in
theorem through_eq_next {var : ℕ} {f : Variable E L Th → Outcome Empty (Stepped E L Th)} (h : s.through var f = .next m) :
    ∃ v, s.made[var]? = some v ∧ f v = .next m := by
  simp only [through] at h
  split at h
  · rename_i v hv
    exact ⟨v, hv, h⟩
  · cases h

omit [DecidableEq τ] [DecidableEq Th] in
theorem contents_of_made {var : ℕ} {v : Variable E L Th} (hv : s.made[var]? = some v) :
    s.contents[var]? = some v.toContent := by
  rw [contents, List.getElem?_map, hv, Option.map_some]

/-- A call that returns at once, or a function that is entered. -/
theorem Effect.answer {event : Event E L} (h : Answered s event) : Effect s t calls ⟨s, calls, some event⟩ :=
  .quiet [] [] (by simp) (by simp) (by simpa using h)

theorem Effect.enter {f : Frame E L} (hquiet : f.holds = none) (hfits : f.Fits s.contents s.Visit) :
    Effect s t calls ⟨s, f :: calls, none⟩ :=
  .quiet [] [f] (by simp) (by simpa using ⟨hquiet, hfits⟩) (by simp)

theorem call_effect {c : Call E L} (h : s.call t calls c = .next m) : Effect s t calls m := by
  cases c with
  | Lookup type name default_value description =>
      simp only [call] at h
      split_ifs at h with hfree
      cases h
      simp only [Lookup]
      cases hfind : s.find name with
      | some p => exact .answer (.found hfind)
      | none =>
          cases hvalid : valid name with
          | false => exact .answer (.invalid hfind hvalid)
          | true => exact .made default_value description hfree hfind hvalid
  | LookupOnly type name =>
      cases h
      exact .answer (.LookupOnly type name)
  | LookupBase name =>
      cases h
      exact .answer (.LookupBase name)
  | Visit =>
      cases h
      exact .visiting calls
  | LoadFromYaml root =>
      cases h
      exact .enter rfl trivial
  | setValue var val =>
      simp only [call] at h
      split_ifs at h with htype
      cases h
      obtain ⟨v, hv, htype⟩ := Option.map_eq_some_iff.1 htype
      exact .enter rfl ⟨v.toContent, contents_of_made hv, htype.symm⟩
  | fromString var val =>
      obtain ⟨v, hv, h⟩ := through_eq_next h
      cases h
      exact .enter rfl trivial
  | addListener var cb =>
      obtain ⟨v, hv, h⟩ := through_eq_next h
      cases h
      exact .enter rfl ⟨v.toContent, contents_of_made hv⟩
  | delListerer var key =>
      obtain ⟨v, hv, h⟩ := through_eq_next h
      split_ifs at h with hfree
      cases h
      exact .written [] hv hfree (by simp) (.removed key) (by simp)
  | getListener var key =>
      obtain ⟨v, hv, h⟩ := through_eq_next h
      split_ifs at h with hfree
      cases h
      exact .answer (.getListener key hv)
  | clearListener var =>
      obtain ⟨v, hv, h⟩ := through_eq_next h
      split_ifs at h with hfree
      cases h
      exact .written [] hv hfree (by simp) .cleared (by simp)

variable [∀ type, DecidableEq (E type)] {FromStr : ∀ type, String → Option (E type)} {Y : Yaml}

theorem run_effect (h : s.run FromStr Y t calls = .next m) : Effect s t calls m := by
  cases calls with
  | nil => cases h
  | cons f calls =>
      cases f with
      | Visit seen rest =>
          cases rest with
          | nil =>
              cases h
              exact .left seen [] calls
          | cons p rest =>
              cases h
              exact .visited seen p rest calls
      | LoadFromYaml rest =>
          cases rest with
          | nil =>
              cases h
              exact .quiet [.LoadFromYaml []] [] (by simp [Frame.holds]) (by simp) (by simp)
          | cons i rest =>
              simp only [run] at h
              split_ifs at h with hempty
              · cases h
                exact .quiet [.LoadFromYaml (i :: rest)] [.LoadFromYaml rest] (by simp [Frame.holds])
                  (by simp [Frame.holds, Frame.Fits]) (by simp)
              · cases h
                refine .quiet [.LoadFromYaml (i :: rest)] _ (by simp [Frame.holds]) (fun f hf => ?_)
                  (by simpa using .LookupBase (i.1.map Char.toLower))
                split at hf
                · simp only [List.mem_cons, List.not_mem_nil, or_false] at hf
                  rcases hf with rfl | rfl <;> exact ⟨rfl, trivial⟩
                · obtain rfl := List.mem_singleton.1 hf
                  exact ⟨rfl, trivial⟩
      | fromString var val =>
          obtain ⟨v, hv, h⟩ := through_eq_next h
          have hfits : ∀ x, Frame.Fits s.contents s.Visit (.entering var ⟨v.type, x⟩ : Frame E L) := fun x =>
            ⟨v.toContent, contents_of_made hv, rfl⟩
          split at h
          · cases h
            refine .quiet [.fromString var val] [.entering var ⟨v.type, _⟩, .catching var val]
              (by simp [Frame.holds]) (fun f hf => ?_) (by simp)
            simp only [List.mem_cons, List.not_mem_nil, or_false] at hf
            rcases hf with rfl | rfl
            · exact ⟨rfl, hfits _⟩
            · exact ⟨rfl, trivial⟩
          · cases h
            exact .quiet [.fromString var val] [] (by simp [Frame.holds]) (by simp)
              (by simpa using .fromString var val false)
      | catching var val =>
          cases h
          exact .quiet [.catching var val] [] (by simp [Frame.holds]) (by simp)
            (by simpa using .fromString var val true)
      | entering var val =>
          obtain ⟨v, hv, h⟩ := through_eq_next h
          split_ifs at h with hfree hsame
          · cases h
            exact .quiet [.entering var val] [] (by simp [Frame.holds]) (by simp) (by simp)
          · cases h
            exact .compared hv hfree hsame
      | notifying var val cbs =>
          cases cbs with
          | nil =>
              obtain ⟨v, hv, h⟩ := through_eq_next h
              cases h
              exact .unlocked [] [.assigning var val] hv (by simp) (by simp) (by simp)
          | cons cb cbs =>
              obtain ⟨v, hv, h⟩ := through_eq_next h
              cases h
              exact .told val cb cbs calls hv
      | assigning var val =>
          obtain ⟨v, hv, h⟩ := through_eq_next h
          split_ifs at h with hfree
          cases h
          exact .written [.assigning var val] hv hfree (by simp [Frame.holds]) (.assigned val) (by simp)
      | addListener var cb pc =>
          cases pc with
          | entering =>
              obtain ⟨v, hv, h⟩ := through_eq_next h
              split_ifs at h with hfree
              cases h
              exact .locked cb calls hv hfree
          | loaded s_fun_id =>
              obtain ⟨v, hv, h⟩ := through_eq_next h
              cases h
              exact .stored cb s_fun_id calls hv
          | stored =>
              obtain ⟨v, hv, h⟩ := through_eq_next h
              cases h
              exact .inserted cb calls hv
          | inserted =>
              obtain ⟨v, hv, h⟩ := through_eq_next h
              cases h
              exact .given cb calls hv

omit [∀ type, DecidableEq (E type)] in
theorem throw_effect (h : s.throw t calls = .next m) : Effect s t calls m := by
  simp only [throw] at h
  split at h
  · cases h
    exact .left ..
  · next var val cb cbs calls =>
      obtain ⟨v, hv, h⟩ := through_eq_next h
      cases h
      simp only [unwind]
      split
      · next var' text calls =>
          exact .unlocked [.catching var' text] [] hv (by simp [Frame.holds]) (by simp)
            (by simpa using .fromString var' text false)
      · exact .unlocked [] [] hv (by simp) (by simp) (by simp)
  · cases h

/-- The thread of an action. -/
def Action.thread : Action E L Th → Th
  | .call t _ | .run t | .throw t => t

/-- What a step does: one thread goes on. -/
theorem step_effect {s s' : State E L Th} {a : Action E L Th} (h : step FromStr Y s a = .next s') :
    ∃ m, Effect s.base a.thread (s.calls a.thread) m ∧ s' = s.stepped a.thread m := by
  cases a with
  | call t call =>
      simp only [step] at h
      split_ifs at h with hlarge
      obtain ⟨m, hm, rfl⟩ := Outcome.map_eq_next.1 h
      exact ⟨m, call_effect hm, rfl⟩
  | run t =>
      obtain ⟨m, hm, rfl⟩ := Outcome.map_eq_next.1 h
      exact ⟨m, run_effect hm, rfl⟩
  | throw t =>
      obtain ⟨m, hm, rfl⟩ := Outcome.map_eq_next.1 h
      exact ⟨m, throw_effect hm, rfl⟩

end

end ConfigVarMap

end Awcotn
