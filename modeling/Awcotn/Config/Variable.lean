import Awcotn.Foundation.Run
import Mathlib.Data.Finset.Basic
import Mathlib.Logic.Function.Basic

/-!
# Configuration variables and their listeners

`ConfigVar::setValue` and `ConfigVar::fromString` of `config.h`, run by any number of threads on one variable. The listeners are called under the read lock, which other calls may hold at the same time, and the value is assigned under the write lock afterwards. Between the two a call holds no lock, and this is where another call can overtake it: `listeners_agree_iff` says that nothing else separates the value from what the listeners were told.
-/

namespace Awcotn

/-- Where a thread is in `setValue(val)`. -/
inductive ConfigVar.Pc (T L : Type*)
  | idle
  | entering (val : T)
  | comparing (val : T)
  | notifying (val : T) (cbs : List L)
  | assigning (val : T)
  deriving DecidableEq

/-- A `ConfigVar`: its value, the threads that hold its lock for reading, the last call each listener received, with the old and the new value, and the threads that use it. -/
structure ConfigVar (T L Th : Type*) where
  val : T
  readers : Finset Th
  received : L → Option (T × T)
  pc : Th → ConfigVar.Pc T L

namespace ConfigVar

open Transition

variable {T L Th : Type*} [DecidableEq T] [DecidableEq L] [DecidableEq Th]

/-- A thread calls `setValue` or `fromString`, or goes on with its call. -/
inductive Action (T Th : Type*)
  | setValue (t : Th) (val : T)
  | fromString (t : Th) (val : String)
  | run (t : Th)

def setPc (v : ConfigVar T L Th) (t : Th) (pc : Pc T L) : ConfigVar T L Th :=
  { v with pc := Function.update v.pc t pc }

/-- The next thing a thread does in `setValue`. A thread waits for the write lock while any thread reads. -/
def advance (m_cbs : List L) (v : ConfigVar T L Th) (t : Th) : Outcome Unit (ConfigVar T L Th) :=
  match v.pc t with
  | .idle => .disabled
  | .entering val => .next ({ v with readers := insert t v.readers }.setPc t (.comparing val))
  | .comparing val =>
    if val = v.val then .next ({ v with readers := v.readers.erase t }.setPc t .idle)
    else .next (v.setPc t (.notifying val m_cbs))
  | .notifying val (i :: cbs) =>
    .next ({ v with received := Function.update v.received i (some (v.val, val)) }.setPc t (.notifying val cbs))
  | .notifying val [] => .next ({ v with readers := v.readers.erase t }.setPc t (.assigning val))
  | .assigning val => if v.readers = ∅ then .next ({ v with val := val }.setPc t .idle) else .disabled

/-- `FromStr` returns nothing where the conversion throws; `fromString` then returns false. -/
def step (m_cbs : List L) (FromStr : String → Option T) (v : ConfigVar T L Th) :
    Action T Th → Outcome Unit (ConfigVar T L Th)
  | .setValue t val => if v.pc t = .idle then .next (v.setPc t (.entering val)) else .disabled
  | .fromString t val =>
    if v.pc t = .idle then
      match FromStr val with
      | some val => .next (v.setPc t (.entering val))
      | none => .next v
    else .disabled
  | .run t => v.advance m_cbs t

/-- A new variable with its default value. -/
def init (default_value : T) : ConfigVar T L Th :=
  { val := default_value, readers := ∅, received := fun _ => none, pc := fun _ => .idle }

/-- The new value a listener was last told, the default value before the first call. -/
def told (default_value : T) (v : ConfigVar T L Th) (i : L) : T :=
  match v.received i with
  | some (_, new_value) => new_value
  | none => default_value

/-- No call is in progress. -/
def Quiet (v : ConfigVar T L Th) : Prop := ∀ t, v.pc t = .idle

/-- Whenever no call is in progress, the value is what each listener was last told. -/
def Agrees (m_cbs : List L) (default_value : T) (v : ConfigVar T L Th) : Prop :=
  v.Quiet → ∀ i ∈ m_cbs, v.val = v.told default_value i

/-! ### Overtaking

A call overtakes another at a listener when it calls the listener after the other did, with another value, before the other has assigned its own.
-/

/-- A variable with the calls that have been overtaken: `overtaken t i` of the call of thread `t` at listener `i`, and `standing i` of the call whose value stands. -/
structure Watched (T L Th : Type*) where
  base : ConfigVar T L Th
  overtaken : Th → L → Bool
  standing : L → Bool

namespace Watched

/-- A call at the listener `i` with `val` by thread `t` overtakes every call that has another value, and is itself not overtaken. -/
def overtakes (s : Watched T L Th) (t : Th) (i : L) (val : T) : Th → L → Bool := fun u j =>
  if j = i then
    if u = t then false
    else
      match s.base.pc u with
      | .notifying val' _ => decide (val' ≠ val)
      | .assigning val' => decide (val' ≠ val)
      | _ => false
  else s.overtaken u j

/-- What becomes of the record of overtaken calls when thread `t` goes on. -/
def advanced (s : Watched T L Th) (t : Th) (v : ConfigVar T L Th) : Watched T L Th :=
  match s.base.pc t with
  | .notifying val (i :: _) => { s with base := v, overtaken := s.overtakes t i val }
  | .assigning _ => { s with base := v, standing := s.overtaken t }
  | _ => { s with base := v }

def step (m_cbs : List L) (FromStr : String → Option T) (s : Watched T L Th) (act : Action T Th) :
    Outcome Unit (Watched T L Th) :=
  match ConfigVar.step m_cbs FromStr s.base act with
  | .next v =>
    match act with
    | .run t => .next (s.advanced t v)
    | _ => .next { s with base := v }
  | .abort e => .abort e
  | .disabled => .disabled

def init (default_value : T) : Watched T L Th :=
  { base := ConfigVar.init default_value, overtaken := fun _ _ => false, standing := fun _ => false }

/-- Where the last call in progress ends, the value that stands is not that of an overtaken call. -/
def InOrder (m_cbs : List L) (s : Watched T L Th) : Action T Th → Prop
  | .run t => (∀ u, u ≠ t → s.base.pc u = .idle) →
    match s.base.pc t with
    | .comparing val => val = s.base.val → ∀ i ∈ m_cbs, s.standing i = false
    | .assigning _ => ∀ i ∈ m_cbs, s.overtaken t i = false
    | _ => True
  | _ => True

/-! ### The invariant -/

/-- The value of a call that has called the listener and has not assigned. -/
def Owes (s : Watched T L Th) (t : Th) (i : L) (val : T) : Prop :=
  (∃ cbs, s.base.pc t = .notifying val cbs ∧ i ∉ cbs) ∨ s.base.pc t = .assigning val

/-- No call is between its comparison and its assignment. -/
def Settled (s : Watched T L Th) : Prop :=
  ∀ t val, (∀ cbs, s.base.pc t ≠ .notifying val cbs) ∧ s.base.pc t ≠ .assigning val

/-- A listener was last told the value of a call, or the value that stands, exactly where the record says that call was not overtaken. -/
structure Inv (m_cbs : List L) (default_value : T) (s : Watched T L Th) : Prop where
  reading : ∀ t ∈ s.base.readers, (∃ val, s.base.pc t = .comparing val) ∨ ∃ val cbs, s.base.pc t = .notifying val cbs
  overtaken : ∀ t val, ∀ i ∈ m_cbs, s.Owes t i val → (s.base.told default_value i = val ↔ s.overtaken t i = false)
  standing : s.Settled → ∀ i ∈ m_cbs, (s.base.told default_value i = s.base.val ↔ s.standing i = false)

omit [DecidableEq T] [DecidableEq L] [DecidableEq Th] in
theorem init_inv (m_cbs : List L) (default_value : T) : (init default_value : Watched T L Th).Inv m_cbs default_value where
  reading := by simp [init, ConfigVar.init]
  overtaken := by simp [init, ConfigVar.init, Owes]
  standing := by simp [init, ConfigVar.init, told]

omit [DecidableEq T] [DecidableEq L] in
@[simp] theorem setPc_pc (v : ConfigVar T L Th) (t : Th) (pc : Pc T L) :
    (v.setPc t pc).pc = Function.update v.pc t pc := rfl

omit [DecidableEq T] in
theorem told_called_self (default_value : T) (v : ConfigVar T L Th) (i : L) (val : T) (t : Th) (pc : Pc T L) :
    told default_value ({ v with received := Function.update v.received i (some (v.val, val)) }.setPc t pc) i = val := by
  simp [told, setPc]

omit [DecidableEq T] in
theorem told_called_of_ne (default_value : T) (v : ConfigVar T L Th) {i j : L} (h : j ≠ i) (val : T) (t : Th) (pc : Pc T L) :
    told default_value ({ v with received := Function.update v.received i (some (v.val, val)) }.setPc t pc) j =
      v.told default_value j := by
  simp [told, setPc, Function.update_of_ne h]

omit [DecidableEq T] [DecidableEq L] in
/-- A step that neither calls a listener nor assigns, and by which no call comes to owe an assignment. -/
theorem Inv.moved {m_cbs : List L} {default_value : T} {s : Watched T L Th} (h : s.Inv m_cbs default_value) {t : Th}
    {pc : Pc T L} {readers : Finset Th} (hreaders : ∀ u ∈ readers, u ∈ s.base.readers ∧ u ≠ t ∨
      u = t ∧ ((∃ val, pc = .comparing val) ∨ ∃ val cbs, pc = .notifying val cbs))
    (howes : ∀ i ∈ m_cbs, ∀ val, (∃ cbs, pc = .notifying val cbs ∧ i ∉ cbs) ∨ pc = .assigning val → s.Owes t i val)
    (hsettled : (∀ val, (∀ cbs, pc ≠ .notifying val cbs) ∧ pc ≠ .assigning val) →
      ∀ val, (∀ cbs, s.base.pc t ≠ .notifying val cbs) ∧ s.base.pc t ≠ .assigning val) :
    Inv m_cbs default_value { s with base := { s.base with readers := readers }.setPc t pc } := by
  refine ⟨fun u hu => ?_, fun u val i hi how => ?_, fun hset i hi => h.standing (fun u val => ?_) i hi⟩
  · rcases hreaders u hu with ⟨hu, hne⟩ | ⟨rfl, hpc⟩
    · simpa [Function.update_of_ne hne] using h.reading u hu
    · simpa using hpc
  · by_cases hut : u = t
    · subst hut
      exact h.overtaken u val i hi (howes i hi val (by simpa [Owes] using how))
    · exact h.overtaken u val i hi (by simpa [Owes, Function.update_of_ne hut] using how)
  · by_cases hut : u = t
    · subst hut
      exact hsettled (fun val => by simpa using hset u val) val
    · simpa [Function.update_of_ne hut] using hset u val

/-- A call to a listener: it is told the value of this call, and the other calls that have called it are overtaken unless they have the same value. -/
theorem Inv.called {m_cbs : List L} {default_value : T} {s : Watched T L Th} (h : s.Inv m_cbs default_value) {t : Th}
    {i : L} {cbs : List L} {val : T} (hpc : s.base.pc t = .notifying val (i :: cbs)) :
    Inv m_cbs default_value
      { s with
        base := { s.base with received := Function.update s.base.received i (some (s.base.val, val)) }.setPc t
          (.notifying val cbs)
        overtaken := s.overtakes t i val } := by
  refine ⟨fun u hu => ?_, fun u val' j hj how => ?_, fun hset => ?_⟩
  · by_cases hut : u = t
    · subst hut
      exact .inr ⟨val, cbs, by simp⟩
    · simpa [Function.update_of_ne hut] using h.reading u hu
  · by_cases hji : j = i
    · subst hji
      show told default_value (ConfigVar.setPc _ t _) j = val' ↔ s.overtakes t j val u j = false
      rw [told_called_self]
      by_cases hut : u = t
      · subst hut
        have hval : val = val' := by
          rcases how with ⟨cbs', hpc', -⟩ | hpc' <;> simp at hpc'
          exact hpc'.1
        simp [overtakes, hval]
      · have hovertakes : s.overtakes t j val u j = decide (val' ≠ val) := by
          rcases how with ⟨cbs', hpc', -⟩ | hpc'
          · have hu : s.base.pc u = .notifying val' cbs' := by simpa [Function.update_of_ne hut] using hpc'
            simp [overtakes, hut, hu]
          · have hu : s.base.pc u = .assigning val' := by simpa [Function.update_of_ne hut] using hpc'
            simp [overtakes, hut, hu]
        rw [hovertakes, decide_eq_false_iff_not, not_not, eq_comm]
    · have howed : s.Owes u j val' := by
        by_cases hut : u = t
        · subst hut
          rcases how with ⟨cbs', hpc', hj'⟩ | hpc' <;> simp at hpc'
          obtain ⟨rfl, rfl⟩ := hpc'
          exact .inl ⟨i :: cbs, hpc, by simp [hji, hj']⟩
        · simpa [Owes, Function.update_of_ne hut] using how
      have hsame : s.overtakes t i val u j = s.overtaken u j := by simp [overtakes, hji]
      show told default_value (ConfigVar.setPc _ t _) j = val' ↔ s.overtakes t i val u j = false
      rw [told_called_of_ne default_value s.base hji, hsame]
      exact h.overtaken u val' j hj howed
  · exact absurd (by simp) ((hset t val).1 cbs)

omit [DecidableEq T] [DecidableEq L] in
/-- The assignment at the end of a call. -/
theorem Inv.assigned {m_cbs : List L} {default_value : T} {s : Watched T L Th} (h : s.Inv m_cbs default_value) {t : Th}
    {val : T} (hpc : s.base.pc t = .assigning val) (hreaders : s.base.readers = ∅) :
    Inv m_cbs default_value
      { s with base := { s.base with val := val }.setPc t .idle, standing := s.overtaken t } := by
  refine ⟨fun u hu => ?_, fun u val' i hi how => ?_, fun _ i hi => h.overtaken t val i hi (.inr hpc)⟩
  · simp [setPc, hreaders] at hu
  · have hut : u ≠ t := by
      rintro rfl
      simp [Owes] at how
    exact h.overtaken u val' i hi (by simpa [Owes, Function.update_of_ne hut] using how)

/-- The steps that go on. -/
inductive Effect (m_cbs : List L) (s : Watched T L Th) : Action T Th → Watched T L Th → Prop
  | entered {act : Action T Th} {t : Th} {val : T} : s.base.pc t = .idle → (∀ u, act ≠ .run u) →
      Effect m_cbs s act { s with base := s.base.setPc t (.entering val) }
  | refused {t : Th} {val : String} : Effect m_cbs s (.fromString t val) s
  | locked {t : Th} {val : T} : s.base.pc t = .entering val → Effect m_cbs s (.run t)
      { s with base := { s.base with readers := insert t s.base.readers }.setPc t (.comparing val) }
  | same {t : Th} {val : T} : s.base.pc t = .comparing val → val = s.base.val → Effect m_cbs s (.run t)
      { s with base := { s.base with readers := s.base.readers.erase t }.setPc t .idle }
  | differs {t : Th} {val : T} : s.base.pc t = .comparing val → val ≠ s.base.val →
      Effect m_cbs s (.run t) { s with base := s.base.setPc t (.notifying val m_cbs) }
  | called {t : Th} {val : T} {i : L} {cbs : List L} : s.base.pc t = .notifying val (i :: cbs) →
      Effect m_cbs s (.run t)
        { s with
          base := { s.base with received := Function.update s.base.received i (some (s.base.val, val)) }.setPc t
            (.notifying val cbs)
          overtaken := s.overtakes t i val }
  | unlocked {t : Th} {val : T} : s.base.pc t = .notifying val [] → Effect m_cbs s (.run t)
      { s with base := { s.base with readers := s.base.readers.erase t }.setPc t (.assigning val) }
  | assigned {t : Th} {val : T} : s.base.pc t = .assigning val → s.base.readers = ∅ → Effect m_cbs s (.run t)
      { s with base := { s.base with val := val }.setPc t .idle, standing := s.overtaken t }

theorem run_effect {m_cbs : List L} {s : Watched T L Th} {t : Th} {v : ConfigVar T L Th}
    (h : s.base.advance m_cbs t = .next v) : Effect m_cbs s (.run t) (s.advanced t v) := by
  simp only [advance] at h
  cases hpc : s.base.pc t with
  | idle => simp [hpc] at h
  | entering val =>
      simp only [hpc, Outcome.next.injEq] at h
      subst h
      simpa only [advanced, hpc] using Effect.locked hpc
  | comparing val =>
      simp only [hpc] at h
      split_ifs at h with hsame
      · cases h
        simpa only [advanced, hpc] using Effect.same hpc hsame
      · cases h
        simpa only [advanced, hpc] using Effect.differs hpc hsame
  | notifying val cbs =>
      cases cbs with
      | nil =>
          simp only [hpc, Outcome.next.injEq] at h
          subst h
          simpa only [advanced, hpc] using Effect.unlocked hpc
      | cons i cbs =>
          simp only [hpc, Outcome.next.injEq] at h
          subst h
          simpa only [advanced, hpc] using Effect.called hpc
  | assigning val =>
      simp only [hpc] at h
      split_ifs at h with hreaders
      cases h
      simpa only [advanced, hpc] using Effect.assigned hpc hreaders

theorem step_effect {m_cbs : List L} {FromStr : String → Option T} {s s' : Watched T L Th} {act : Action T Th}
    (h : step m_cbs FromStr s act = .next s') : Effect m_cbs s act s' := by
  simp only [step] at h
  split at h
  · next v hnext =>
      cases act with
      | setValue t val =>
          cases h
          simp only [ConfigVar.step] at hnext
          split_ifs at hnext with hpc
          cases hnext
          exact .entered hpc nofun
      | fromString t val =>
          cases h
          simp only [ConfigVar.step] at hnext
          split_ifs at hnext with hpc
          split at hnext <;> cases hnext
          · exact .entered hpc nofun
          · exact .refused
      | run t =>
          cases h
          exact run_effect hnext
  · cases h
  · cases h

theorem step_inv (m_cbs : List L) (FromStr : String → Option T) (default_value : T) (s : Watched T L Th) (act : Action T Th)
    (s' : Watched T L Th) (h : s.Inv m_cbs default_value) (hstep : step m_cbs FromStr s act = .next s') :
    s'.Inv m_cbs default_value := by
  cases step_effect hstep with
  | @entered _ t val hpc _ =>
      refine h.moved (fun u hu => .inl ⟨hu, ?_⟩) (by simp) (by simp [hpc])
      rintro rfl
      have := h.reading u hu
      simp [hpc] at this
  | refused => exact h
  | @locked t val hpc =>
      refine h.moved (fun u hu => ?_) (by simp) (by simp [hpc])
      by_cases hut : u = t
      · exact .inr ⟨hut, .inl ⟨val, rfl⟩⟩
      · exact .inl ⟨Finset.mem_of_mem_insert_of_ne hu hut, hut⟩
  | same hpc =>
      exact h.moved (fun u hu => .inl ⟨Finset.mem_of_mem_erase hu, Finset.ne_of_mem_erase hu⟩) (by simp) (by simp [hpc])
  | @differs t val hpc =>
      refine h.moved (fun u hu => ?_) ?_ (by simp)
      · by_cases hut : u = t
        · exact .inr ⟨hut, .inr ⟨val, m_cbs, rfl⟩⟩
        · exact .inl ⟨hu, hut⟩
      · intro i hi val' how
        simp [hi] at how
  | called hpc => exact h.called hpc
  | @unlocked t val hpc =>
      refine h.moved (fun u hu => .inl ⟨Finset.mem_of_mem_erase hu, Finset.ne_of_mem_erase hu⟩) ?_ (by simp)
      intro i hi val' how
      obtain rfl : val = val' := by simpa using how
      exact .inl ⟨[], hpc, by simp⟩
  | assigned hpc hreaders => exact h.assigned hpc hreaders

/-! ### The exact condition -/

omit [DecidableEq T] [DecidableEq L] [DecidableEq Th] in
theorem agrees_of_busy {m_cbs : List L} {default_value : T} {v : ConfigVar T L Th} {t : Th} (h : v.pc t ≠ .idle) :
    v.Agrees m_cbs default_value := fun hquiet => absurd (hquiet t) h

omit [DecidableEq T] [DecidableEq L] in
theorem quiet_setPc_idle (v : ConfigVar T L Th) (t : Th) : (v.setPc t .idle).Quiet ↔ ∀ u, u ≠ t → v.pc u = .idle := by
  constructor
  · intro h u hu
    simpa [Function.update_of_ne hu] using h u
  · intro h u
    by_cases hu : u = t
    · simp [hu]
    · simpa [Function.update_of_ne hu] using h u hu

/-- A step leads to agreement exactly where it is in order. -/
theorem step_agrees_iff {m_cbs : List L} {FromStr : String → Option T} {default_value : T} {s s' : Watched T L Th}
    {act : Action T Th} (h : s.Inv m_cbs default_value) (hagrees : s.base.Agrees m_cbs default_value)
    (hstep : step m_cbs FromStr s act = .next s') : s'.base.Agrees m_cbs default_value ↔ s.InOrder m_cbs act := by
  have hbusy : ∀ (v : ConfigVar T L Th) t pc, pc ≠ .idle → (v.setPc t pc).Agrees m_cbs default_value := by
    intro v t pc hpc
    exact agrees_of_busy (t := t) (by simpa using hpc)
  cases step_effect hstep with
  | entered _ hrun =>
      refine iff_of_true (hbusy _ _ _ (by simp)) ?_
      cases act with
      | run u => exact absurd rfl (hrun u)
      | _ => trivial
  | refused => exact iff_of_true hagrees trivial
  | locked hpc | unlocked hpc | called hpc =>
      refine iff_of_true (hbusy _ _ _ (by simp)) ?_
      simp [InOrder, hpc]
  | @same t val hpc hsame =>
      simp only [InOrder, hpc, Agrees, quiet_setPc_idle]
      refine forall_congr' fun halone => ?_
      have hsettled : s.Settled := by
        intro u val'
        by_cases hut : u = t
        · simp [hut, hpc]
        · simp [halone u hut]
      have hstanding := h.standing hsettled
      constructor
      · exact fun hall _ i hi => (hstanding i hi).1 (hall i hi).symm
      · exact fun hall i hi => ((hstanding i hi).2 (hall hsame i hi)).symm
  | differs hpc hdiffers =>
      refine iff_of_true (hbusy _ _ _ (by simp)) ?_
      simp [InOrder, hpc, hdiffers]
  | @assigned t val hpc =>
      simp only [InOrder, hpc, Agrees, quiet_setPc_idle]
      refine forall_congr' fun halone => ?_
      have hovertaken := fun i hi => h.overtaken t val i hi (.inr hpc)
      constructor
      · exact fun hall i hi => (hovertaken i hi).1 (hall i hi).symm
      · exact fun hall i hi => ((hovertaken i hi).2 (hall i hi)).symm

/-- A call that cannot go on waits for a reader, so it is not the last. -/
theorem stuck_inOrder {m_cbs : List L} {FromStr : String → Option T} {default_value : T} {s : Watched T L Th}
    {act : Action T Th} (h : s.Inv m_cbs default_value) (hstuck : ∀ s', step m_cbs FromStr s act ≠ .next s') :
    s.InOrder m_cbs act := by
  cases act with
  | setValue t val => trivial
  | fromString t val => trivial
  | run t =>
      intro halone
      have hbase : ∀ v, s.base.advance m_cbs t ≠ .next v := by
        intro v hv
        exact hstuck (s.advanced t v) (by simp only [step, ConfigVar.step, hv])
      simp only [advance] at hbase
      cases hpc : s.base.pc t with
      | idle => trivial
      | entering val => trivial
      | comparing val =>
          simp only [hpc] at hbase
          split_ifs at hbase
          · exact absurd rfl (hbase _)
          · exact absurd rfl (hbase _)
      | notifying val cbs => trivial
      | assigning val =>
          simp only [hpc] at hbase
          split_ifs at hbase with hreaders
          · exact absurd rfl (hbase _)
          · obtain ⟨u, hu⟩ := Finset.nonempty_iff_ne_empty.2 hreaders
            have hreading := h.reading u hu
            by_cases hut : u = t
            · simp [hut, hpc] at hreading
            · simp [halone u hut] at hreading

/-- Whatever the calls and however they overlap, in every state without a call in progress the value is what each listener was last told, exactly as long as no overtaken call comes to stand. -/
theorem listeners_agree_iff (m_cbs : List L) (FromStr : String → Option T) (default_value : T) (acts : List (Action T Th)) :
    Throughout (step m_cbs FromStr) (fun s => s.base.Agrees m_cbs default_value) (init default_value) acts ↔
      Along (step m_cbs FromStr) (InOrder m_cbs) (init default_value) acts :=
  throughout_iff_along (step_inv m_cbs FromStr default_value)
    (fun _ _ _ h hagrees hstep => step_agrees_iff h hagrees hstep) (fun _ _ h hstuck => stuck_inOrder h hstuck)
    (init_inv m_cbs default_value) (fun _ _ _ => rfl) acts

end Watched

/-- Two threads set 1 and 2. Both find another value in place and call the listener, the first before the second, and the second assigns before the first: the value is 1 and the listener was last told 2. -/
theorem listener_left_behind :
    ∃ v : ConfigVar ℕ Unit Bool, run (step [()] fun _ => none) (init 0)
        [.setValue false 1, .setValue true 2, .run false, .run false, .run false, .run true, .run true, .run true,
          .run false, .run true, .run true, .run false] = .next v ∧
      v.Quiet ∧ v.val = 1 ∧ v.told 0 () = 2 :=
  ⟨_, rfl, fun t => by cases t <;> rfl, rfl, rfl⟩

end ConfigVar

end Awcotn
