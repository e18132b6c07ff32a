import Awcotn.Config.Overlap

/-!
# The keys of listeners

`addListener` takes its key from a counter that all variables of one type share, and stores the listener under it. Its mutex is that of its own variable, so two calls on variables of one type may be in it at once; then they can count the same number, as the example at the end does, and nothing in the code keeps them apart. `CountsAlone` is the condition that none does, and that the counter, of 64 bits, has not come to its end.

Along a run of such steps a key stands for one listener, which is `keys_given_once`. The invariant `Keyed` follows a call from the load of the counter to the return of the key.
-/

namespace Awcotn.ConfigVarMap

open Transition Holders

variable {τ : Type*} {E : τ → Type*} {L Th : Type*}

/-- A call of `addListener` takes its write lock only while no other call on a variable of the type has its own, and the counter is not at its end. -/
def CountsAlone [DecidableEq τ] (s : State E L Th) (a : Action E L Th) : Prop :=
  match s.calls a.thread with
  | .addListener var _ .entering :: _ => ∀ type ∈ s.base.typeAt var,
      (∀ v ∈ s.base.made, v.type = type → v.m_mutex.writers = []) ∧ s.base.s_fun_id type + 1 < 2 ^ 64
  | _ => True

instance [DecidableEq τ] [DecidableEq Th] (s : State E L Th) (a : Action E L Th) : Decidable (CountsAlone s a) := by
  unfold CountsAlone
  split <;> infer_instance

/-- The variable that a call has added a listener to, and the key that it returned. -/
def given : Event E L → Option (ℕ × ℕ)
  | .answered (.addListener p _) (.key key) => some (p, key)
  | _ => none

/-- The event removes the listener that stands under a key of a variable. -/
def removes (p key : ℕ) : Event E L → Prop
  | .answered (.delListerer q key') _ => q = p ∧ key' = key
  | .answered (.clearListener q) _ => q = p
  | _ => False

/-- A listener of a variable of the type stands under the key. -/
def Stands (d : List (Content E L)) (type : τ) (key : ℕ) : Prop := ∃ c ∈ d, c.type = type ∧ key ∈ c.m_cbs.map Prod.fst

/-- The key has been returned for a variable of the type. -/
def Given (d : List (Content E L)) (log : List (Event E L)) (type : τ) (key : ℕ) : Prop :=
  ∃ e ∈ log, ∃ p, given e = some (p, key) ∧ d[p]?.map Content.type = some type

/-- What the counter of the type is to a call of `addListener` on its way. -/
def Counted (s : State E L Th) (type : τ) (var : ℕ) (cb : L) : Adding → Prop
  | .entering => True
  | .loaded s_fun_id => s_fun_id = s.base.s_fun_id type ∧ s_fun_id + 1 < 2 ^ 64
  | .stored => ∀ key, Stands s.base.contents type key ∨ Given s.base.contents s.log type key → key < s.base.s_fun_id type
  | .inserted => .added var (s.base.s_fun_id type) cb ∈ s.log ∧
      ∀ key, Given s.base.contents s.log type key → key < s.base.s_fun_id type

/-- Of the calls on variables of a type one has a write lock at most, no key has been given out that the counter has not come to, and none twice. -/
structure Keyed [DecidableEq τ] [DecidableEq Th] (s : State E L Th) : Prop where
  inv : Inv s
  single : ∀ var, (s.base.holders (.write var)).length ≤ 1
  alone : ∀ (p q : ℕ) (c c' : Content E L), s.base.contents[p]? = some c → s.base.contents[q]? = some c' → c.type = c'.type →
    s.base.holders (.write p) ≠ [] → s.base.holders (.write q) ≠ [] → p = q
  below : ∀ type key, Stands s.base.contents type key ∨ Given s.base.contents s.log type key → key ≤ s.base.s_fun_id type
  adding : ∀ t var cb pc c, .addListener var cb pc ∈ s.calls t → s.base.contents[var]? = some c → Counted s c.type var cb pc
  made : ∀ e ∈ s.log, ∀ p key, given e = some (p, key) → p < s.base.contents.length
  once : s.log.Pairwise fun e e' => ∀ p q key, given e = some (p, key) → given e' = some (q, key) →
    s.base.contents[p]?.map Content.type ≠ s.base.contents[q]?.map Content.type
  stored : ∀ (i p key : ℕ) (cb : L), s.log[i]? = some (.answered (.addListener p cb) (.key key)) →
    ∃ j < i, s.log[j]? = some (.added p key cb)
  last : ∀ (i p key : ℕ) (cb : L) (c : Content E L), s.log[i]? = some (.added p key cb) →
    (directory (s.log.take i))[p]? = some c → ∀ cb' ∈ c.m_cbs, cb'.1 < key

/-! ### The variables after a step -/

section

variable {d d' : List (Content E L)} {log : List (Event E L)} {e : Event E L} {type : τ} {key : ℕ}

theorem length_le_extend : d.length ≤ (extend d e).length := by
  rw [extend, List.length_append, List.length_mapIdx]
  omega

theorem type_extend {p : ℕ} (hp : p < d.length) : (extend d e)[p]?.map Content.type = d[p]?.map Content.type := by
  rw [getElem?_extend hp, Option.map_map]
  congr 1
  funext c
  exact after_type

/-- The keys under which listeners stand after an event. -/
theorem Stands.of_extend (h : Stands (extend d e) type key) :
    Stands d type key ∨ ∃ p cb, e = .added p key cb ∧ d[p]?.map Content.type = some type := by
  obtain ⟨c', hc', rfl, hkey⟩ := h
  rcases List.mem_append.1 hc' with hc' | hc'
  · obtain ⟨p, hp, rfl⟩ := List.mem_mapIdx.1 hc'
    have hmem := List.getElem_mem hp
    have htype : d[p]?.map Content.type = some (after p d[p] e).type := by
      rw [List.getElem?_eq_getElem hp, Option.map_some, after_type]
    have hold : key ∈ d[p].m_cbs.map Prod.fst → Stands d (after p d[p] e).type key := fun h =>
      ⟨d[p], hmem, after_type.symm, h⟩
    obtain ⟨cb, hcb, rfl⟩ := List.mem_map.1 hkey
    cases e with
    | added q key' cb' =>
        by_cases hq : q = p
        · subst hq
          simp only [after, if_pos] at hcb
          rcases OrderedSet.mem_insert_imp hcb with rfl | hcb
          · exact .inr ⟨q, cb', rfl, htype⟩
          · exact .inl (hold (List.mem_map_of_mem (List.mem_filter.1 hcb).1))
        · rw [after, if_neg hq] at hcb
          exact .inl (hold (List.mem_map_of_mem hcb))
    | told var cb' old_value new_value => exact .inl (hold (List.mem_map_of_mem hcb))
    | assigned var val =>
        simp only [after] at hcb
        split_ifs at hcb <;> exact .inl (hold (List.mem_map_of_mem hcb))
    | answered call answer =>
        cases call with
        | delListerer q key' =>
            simp only [after] at hcb
            split_ifs at hcb
            · exact .inl (hold (List.mem_map_of_mem (List.mem_filter.1 hcb).1))
            · exact .inl (hold (List.mem_map_of_mem hcb))
        | clearListener q =>
            simp only [after] at hcb
            split_ifs at hcb
            · cases hcb
            · exact .inl (hold (List.mem_map_of_mem hcb))
        | Lookup type name default_value description | LookupOnly type name | LookupBase name | Visit | LoadFromYaml root
        | setValue var val | fromString var val | addListener var cb' | getListener var key' =>
            exact .inl (hold (List.mem_map_of_mem hcb))
  · have hnone : c'.m_cbs = [] := by
      cases e with
      | answered call answer =>
          cases call with
          | Lookup type name default_value description =>
              simp only [registers] at hc'
              split_ifs at hc'
              · obtain rfl := List.mem_singleton.1 hc'
                rfl
              · cases hc'
          | LookupOnly type name | LookupBase name | Visit | LoadFromYaml root | setValue var val | fromString var val
          | addListener var cb | delListerer var key | getListener var key | clearListener var => cases hc'
      | told var cb old_value new_value | assigned var val | added var key cb => cases hc'
    rw [hnone] at hkey
    cases hkey

/-- The keys that have been returned after an event. -/
theorem Given.of_extend (hmade : ∀ e ∈ log, ∀ p key, given e = some (p, key) → p < d.length)
    (h : Given (extend d e) (log ++ [e]) type key) :
    Given d log type key ∨ ∃ p, given e = some (p, key) ∧ (extend d e)[p]?.map Content.type = some type := by
  obtain ⟨e', he', p, hgiven, htype⟩ := h
  rcases List.mem_append.1 he' with he' | he'
  · rw [type_extend (hmade e' he' p key hgiven)] at htype
    exact .inl ⟨e', he', p, hgiven, htype⟩
  · obtain rfl := List.mem_singleton.1 he'
    exact .inr ⟨p, hgiven, htype⟩

end

/-! ### One step -/

section

variable [DecidableEq τ] [DecidableEq Th] {s : State E L Th} {t : Th} {calls : List (Frame E L)} {m : Stepped E L Th}

omit [DecidableEq τ] [DecidableEq Th] in
theorem holds_addListener (var : ℕ) (cb : L) {pc : Adding} (hpc : pc ≠ .entering) :
    (.addListener var cb pc : Frame E L).holds = some (.write var) := by
  cases pc with
  | entering => exact absurd rfl hpc
  | loaded s_fun_id | stored | inserted => rfl

/-- No other call on a variable of the type has its write lock. -/
theorem Keyed.others (hs : Keyed s) {var : ℕ} {cb : L} {pc : Adding} (hcalls : s.calls t = .addListener var cb pc :: calls)
    (hpc : pc ≠ .entering) {c : Content E L} (hc : s.base.contents[var]? = some c) {u : Th} {p : ℕ} {cb' : L} {pc' : Adding}
    (hmem : .addListener p cb' pc' ∈ Function.update s.calls t calls u) (hpc' : pc' ≠ .entering) {c' : Content E L}
    (hc' : s.base.contents[p]? = some c') : c'.type ≠ c.type := by
  intro htype
  have hacc := hs.inv.accounted
  have hmine : t ∈ s.base.holders (.write var) :=
    hacc.mem (hcalls ▸ List.mem_cons_self : .addListener var cb pc ∈ s.calls t) (holds_addListener var cb hpc)
  have hold : .addListener p cb' pc' ∈ s.calls u := by
    by_cases hut : u = t
    · subst hut
      rw [Function.update_self] at hmem
      rw [hcalls]
      exact List.mem_cons_of_mem _ hmem
    · rwa [Function.update_of_ne hut] at hmem
  have htheirs : u ∈ s.base.holders (.write p) := hacc.mem hold (holds_addListener p cb' hpc')
  obtain rfl : p = var := hs.alone p var c' c hc' hc htype (List.ne_nil_of_mem htheirs) (List.ne_nil_of_mem hmine)
  obtain ⟨w, hw⟩ : ∃ w, s.base.holders (.write p) = [w] := by
    have hlength := hs.single p
    have hpos := List.length_pos_of_mem hmine
    exact List.length_eq_one_iff.1 (by omega)
  rw [hw, List.mem_singleton] at hmine htheirs
  obtain rfl : u = t := htheirs.trans hmine.symm
  rw [Function.update_self] at hmem
  have hcount := hacc (.write p) u
  rw [hw, hcalls, among_cons, holds_addListener p cb hpc, if_pos rfl, ← htheirs, List.count_singleton_self] at hcount
  have hpos : 0 < among Frame.holds (.write p) calls :=
    List.countP_pos_iff.2 ⟨_, hmem, by simpa using holds_addListener p cb' hpc'⟩
  omega

/-- What a step adds to the log: nothing, or what it shows. -/
theorem Keyed.log (hs : Keyed s) {d' : List (Content E L)} {event : Option (Event E L)}
    (hd : ∀ p < s.base.contents.length, d'[p]?.map Content.type = s.base.contents[p]?.map Content.type)
    (hlength : s.base.contents.length ≤ d'.length)
    (hadded : ∀ p key cb, event = some (.added p key cb) →
      ∀ c, s.base.contents[p]? = some c → ∀ cb' ∈ c.m_cbs, cb'.1 < key)
    (hgiven : ∀ p key cb, event = some (.answered (.addListener p cb) (.key key)) → .added p key cb ∈ s.log ∧
      p < s.base.contents.length ∧ ∀ type, s.base.contents[p]?.map Content.type = some type →
        ¬ Given s.base.contents s.log type key) :
    (∀ e ∈ s.log ++ event.toList, ∀ p key, given e = some (p, key) → p < d'.length) ∧
      ((s.log ++ event.toList).Pairwise fun e e' => ∀ p q key, given e = some (p, key) → given e' = some (q, key) →
        d'[p]?.map Content.type ≠ d'[q]?.map Content.type) ∧
      (∀ (i p key : ℕ) (cb : L), (s.log ++ event.toList)[i]? = some (.answered (.addListener p cb) (.key key)) →
        ∃ j < i, (s.log ++ event.toList)[j]? = some (.added p key cb)) ∧
      ∀ (i p key : ℕ) (cb : L) (c : Content E L), (s.log ++ event.toList)[i]? = some (.added p key cb) →
        (directory ((s.log ++ event.toList).take i))[p]? = some c → ∀ cb' ∈ c.m_cbs, cb'.1 < key := by
  have hevent : ∀ e p key, e ∈ event → given e = some (p, key) →
      ∃ cb, event = some (.answered (.addListener p cb) (.key key)) := by
    intro e p key he h
    cases e with
    | answered call answer =>
        cases call with
        | addListener q cb =>
            cases answer with
            | key key' =>
                cases h
                exact ⟨cb, he⟩
            | pointer p | invalid_argument name | visited vars | returned result | listener cb | nothing => cases h
        | Lookup type name default_value description | LookupOnly type name | LookupBase name | Visit | LoadFromYaml root
        | setValue var val | fromString var val | delListerer var key | getListener var key | clearListener var => cases h
    | told var cb old_value new_value | assigned var val | added var key cb => cases h
  have hold : ∀ e ∈ s.log, ∀ p key, given e = some (p, key) →
      d'[p]?.map Content.type = s.base.contents[p]?.map Content.type := fun e he p key h => hd p (hs.made e he p key h)
  have hnew : ∀ (i : ℕ) e, (s.log ++ event.toList)[i]? = some e →
      s.log[i]? = some e ∨ i = s.log.length ∧ event = some e := by
    intro i e hget
    rcases Nat.lt_or_ge i s.log.length with hlt | hge
    · rw [List.getElem?_append_left hlt] at hget
      exact .inl hget
    · rw [List.getElem?_append_right hge] at hget
      cases event with
      | none => cases hget
      | some e' =>
          have hi : i - s.log.length = 0 := by
            have := (List.getElem?_eq_some_iff.1 hget).1
            simpa using this
          rw [hi] at hget
          exact .inr ⟨by omega, hget⟩
  refine ⟨fun e he p key h => ?_, ?_, fun i p key cb hget => ?_, fun i p key cb c hget hc => ?_⟩
  · rcases List.mem_append.1 he with he | he
    · exact (hs.made e he p key h).trans_le hlength
    · obtain ⟨cb, hcb⟩ := hevent e p key (by simpa using he) h
      exact (hgiven p key cb hcb).2.1.trans_le hlength
  · refine List.pairwise_append.2 ⟨?_, ?_, fun e he e' he' p q key h h' => ?_⟩
    · refine hs.once.imp_of_mem fun {e e'} he he' hne p q key h h' => ?_
      rw [hold e he p key h, hold e' he' q key h']
      exact hne p q key h h'
    · cases event with
      | none => exact List.Pairwise.nil
      | some e => exact List.pairwise_singleton ..
    · obtain ⟨cb, hcb⟩ := hevent e' q key (by simpa using he') h'
      obtain ⟨-, hq, hfresh⟩ := hgiven q key cb hcb
      obtain ⟨c, hc⟩ : ∃ c, s.base.contents[q]? = some c := ⟨_, List.getElem?_eq_getElem hq⟩
      rw [hold e he p key h, hd q hq]
      intro heq
      refine hfresh c.type (by rw [hc, Option.map_some]) ⟨e, he, p, h, ?_⟩
      rw [heq, hc, Option.map_some]
  · rcases hnew i _ hget with hget | ⟨rfl, hlast⟩
    · obtain ⟨j, hj, hat⟩ := hs.stored i p key cb hget
      exact ⟨j, hj, by rw [List.getElem?_append_left (hj.trans (List.getElem?_eq_some_iff.1 hget).1), hat]⟩
    · obtain ⟨j, hj, hat⟩ := List.getElem_of_mem (hgiven p key cb hlast).1
      exact ⟨j, hj, by rw [List.getElem?_append_left hj, List.getElem?_eq_getElem hj, hat]⟩
  · rcases hnew i _ hget with hget | ⟨rfl, hlast⟩
    · rw [List.take_append_of_le_length (List.getElem?_eq_some_iff.1 hget).1.le] at hc
      exact hs.last i p key cb c hget hc
    · rw [List.take_left, ← hs.inv.contents] at hc
      exact hadded p key cb hlast c hc

omit [DecidableEq Th] in
theorem Shown.type (h : Shown s.base m) {p : ℕ} (hp : p < s.base.contents.length) :
    m.base.contents[p]?.map Content.type = s.base.contents[p]?.map Content.type := by
  rw [h.contents]
  cases m.event with
  | none => rfl
  | some e => exact type_extend hp

omit [DecidableEq Th] in
theorem Shown.length (h : Shown s.base m) : s.base.contents.length ≤ m.base.contents.length := by
  rw [h.contents]
  cases m.event with
  | none => exact le_rfl
  | some e => exact length_le_extend

omit [DecidableEq Th] in
theorem Shown.stands (h : Shown s.base m) {type : τ} {key : ℕ} (hstands : Stands m.base.contents type key) :
    Stands s.base.contents type key ∨
      ∃ p cb, m.event = some (.added p key cb) ∧ s.base.contents[p]?.map Content.type = some type := by
  rw [h.contents] at hstands
  cases hevent : m.event with
  | none =>
      rw [hevent] at hstands
      exact .inl hstands
  | some e =>
      rw [hevent] at hstands
      exact hstands.of_extend.imp id fun ⟨p, cb, he, htype⟩ => ⟨p, cb, congrArg some he, htype⟩

theorem Keyed.given (hs : Keyed s) (h : Shown s.base m) {type : τ} {key : ℕ}
    (hgiven : Given m.base.contents (s.log ++ m.event.toList) type key) : Given s.base.contents s.log type key ∨
      ∃ p, m.event.bind ConfigVarMap.given = some (p, key) ∧ m.base.contents[p]?.map Content.type = some type := by
  rw [h.contents] at hgiven ⊢
  cases hevent : m.event with
  | none =>
      rw [hevent, Option.toList_none, List.append_nil] at hgiven
      exact .inl hgiven
  | some e =>
      rw [hevent] at hgiven
      exact Given.of_extend hs.made hgiven

/-- A call of `addListener` that does not take part in a step, and whose type the step does not count for. -/
theorem Keyed.counted (hs : Keyed s) (h : Shown s.base m) {u : Th} {var : ℕ} {cb : L} {pc : Adding} {c : Content E L}
    (hmem : .addListener var cb pc ∈ s.calls u) (hc : s.base.contents[var]? = some c)
    (hcount : m.base.s_fun_id c.type = s.base.s_fun_id c.type)
    (hadded : ∀ p key cb, m.event = some (.added p key cb) → s.base.contents[p]?.map Content.type ≠ some c.type)
    (hgiven : ∀ p key, m.event.bind ConfigVarMap.given = some (p, key) → m.base.contents[p]?.map Content.type ≠ some c.type) :
    Counted (s.stepped t m) c.type var cb pc := by
  have hold := hs.adding u var cb pc c hmem hc
  have hstands : ∀ key, Stands m.base.contents c.type key → Stands s.base.contents c.type key := fun key hkey =>
    (h.stands hkey).resolve_right fun ⟨p, cb, hevent, htype⟩ => hadded p key cb hevent htype
  have hgave : ∀ key, Given m.base.contents (s.log ++ m.event.toList) c.type key → Given s.base.contents s.log c.type key :=
    fun key hkey => (hs.given h hkey).resolve_right fun ⟨p, hevent, htype⟩ => hgiven p key hevent htype
  cases pc with
  | entering => trivial
  | loaded s_fun_id => exact ⟨hold.1.trans hcount.symm, hold.2⟩
  | stored =>
      intro key hkey
      show key < m.base.s_fun_id c.type
      rw [hcount]
      exact hold key (hkey.imp (hstands key) (hgave key))
  | inserted =>
      refine ⟨?_, fun key hkey => ?_⟩
      · show Event.added var (m.base.s_fun_id c.type) cb ∈ s.log ++ m.event.toList
        rw [hcount]
        exact List.mem_append_left _ hold.1
      · show key < m.base.s_fun_id c.type
        rw [hcount]
        exact hold.2 key (hgave key hkey)

/-- What a step has to leave. -/
theorem Keyed.next (hs : Keyed s) (hinv : Inv (s.stepped t m)) (h : Shown s.base m)
    (hsingle : ∀ var, (m.base.holders (.write var)).length ≤ 1)
    (hmade : ∀ var, m.base.holders (.write var) ≠ [] → var < s.base.contents.length)
    (halone : ∀ (p q : ℕ) (c c' : Content E L), s.base.contents[p]? = some c → s.base.contents[q]? = some c' →
      c.type = c'.type → m.base.holders (.write p) ≠ [] → m.base.holders (.write q) ≠ [] → p = q)
    (hbelow : ∀ type key, Stands m.base.contents type key ∨ Given m.base.contents (s.log ++ m.event.toList) type key →
      key ≤ m.base.s_fun_id type)
    (hadding : ∀ u var cb pc c, .addListener var cb pc ∈ Function.update s.calls t m.calls u → s.base.contents[var]? = some c →
      Counted (s.stepped t m) c.type var cb pc)
    (hexists : ∀ u var cb pc, .addListener var cb pc ∈ Function.update s.calls t m.calls u → var < s.base.contents.length)
    (hadded : ∀ p key cb, m.event = some (.added p key cb) →
      ∀ c, s.base.contents[p]? = some c → ∀ cb' ∈ c.m_cbs, cb'.1 < key)
    (hgiven : ∀ p key cb, m.event = some (.answered (.addListener p cb) (.key key)) → .added p key cb ∈ s.log ∧
      p < s.base.contents.length ∧ ∀ type, s.base.contents[p]?.map Content.type = some type →
        ¬ Given s.base.contents s.log type key) : Keyed (s.stepped t m) := by
  obtain ⟨hlogMade, honce, hstored, hlast⟩ := hs.log (fun p hp => h.type hp) h.length hadded hgiven
  have hback : ∀ (p : ℕ) (c' : Content E L), p < s.base.contents.length → m.base.contents[p]? = some c' →
      ∃ c, s.base.contents[p]? = some c ∧ c.type = c'.type := by
    intro p c' hp hc'
    have htype := h.type hp
    rw [hc', Option.map_some] at htype
    exact Option.map_eq_some_iff.1 htype.symm
  refine ⟨hinv, hsingle, fun p q c c' hc hc' htype hp hq => ?_, hbelow, fun u var cb pc c' hmem hc' => ?_, hlogMade, honce,
    hstored, hlast⟩
  · obtain ⟨b, hb, hbtype⟩ := hback p c (hmade p hp) hc
    obtain ⟨b', hb', hbtype'⟩ := hback q c' (hmade q hq) hc'
    exact halone p q b b' hb hb' (hbtype.trans (htype.trans hbtype'.symm)) hp hq
  · obtain ⟨c, hc, htype⟩ := hback var c' (hexists u var cb pc hmem) hc'
    exact htype ▸ hadding u var cb pc c hmem hc

omit [DecidableEq τ] [DecidableEq Th] in
theorem lt_of_holders {base : ConfigVarMap E L Th} {var : ℕ} (h : base.holders (.write var) ≠ []) :
    var < base.contents.length := by
  by_contra hge
  rw [contents, List.length_map, not_lt] at hge
  rw [holders, List.getElem?_eq_none hge] at h
  exact h rfl

theorem Keyed.exists (hs : Keyed s) {u : Th} {var : ℕ} {cb : L} {pc : Adding} (hmem : .addListener var cb pc ∈ s.calls u) :
    var < s.base.contents.length := by
  obtain ⟨c, hc⟩ := hs.inv.fits u _ hmem
  exact (List.getElem?_eq_some_iff.1 hc).1

/-- A step that has nothing to do with keys. -/
theorem Keyed.kept (hs : Keyed s) (hinv : Inv (s.stepped t m)) (h : Shown s.base m)
    (hcount : m.base.s_fun_id = s.base.s_fun_id) (hholders : ∀ var, m.base.holders (.write var) = s.base.holders (.write var))
    (hevent : ∀ e ∈ m.event, ConfigVarMap.given e = none ∧ ∀ p key cb, e ≠ .added p key cb)
    (hcalls : ∀ var cb pc, .addListener var cb pc ∈ m.calls → .addListener var cb pc ∈ s.calls t ∨
      pc = .entering ∧ var < s.base.contents.length) : Keyed (s.stepped t m) := by
  have hadded : ∀ p key cb, m.event ≠ some (.added p key cb) := fun p key cb he => (hevent _ he).2 p key cb rfl
  have hgiven : ∀ p key, m.event.bind ConfigVarMap.given ≠ some (p, key) := by
    intro p key he
    obtain ⟨e, he, hsome⟩ := Option.bind_eq_some_iff.1 he
    rw [(hevent e he).1] at hsome
    cases hsome
  have hold : ∀ u var cb pc, .addListener var cb pc ∈ Function.update s.calls t m.calls u →
      .addListener var cb pc ∈ s.calls u ∨ pc = .entering ∧ var < s.base.contents.length := by
    intro u var cb pc hmem
    by_cases hut : u = t
    · subst hut
      rw [Function.update_self] at hmem
      exact hcalls var cb pc hmem
    · rw [Function.update_of_ne hut] at hmem
      exact .inl hmem
  refine hs.next hinv h (fun var => hholders var ▸ hs.single var) (fun var hne => lt_of_holders (hholders var ▸ hne)) ?_ ?_ ?_ ?_
    (fun p key cb he => absurd he (hadded p key cb)) fun p key cb he => ?_
  · intro p q c c' hc hc' htype hp hq
    exact hs.alone p q c c' hc hc' htype (hholders p ▸ hp) (hholders q ▸ hq)
  · intro type key hkey
    rw [hcount]
    refine hs.below type key (hkey.imp (fun hstands => (h.stands hstands).resolve_right ?_) fun hgave =>
      (hs.given h hgave).resolve_right ?_)
    · exact fun ⟨p, cb, he, _⟩ => hadded p key cb he
    · exact fun ⟨p, he, _⟩ => hgiven p key he
  · intro u var cb pc c hmem hc
    rcases hold u var cb pc hmem with hmem | ⟨rfl, -⟩
    · exact hs.counted h hmem hc (by rw [hcount]) (fun p key cb he => absurd he (hadded p key cb))
        fun p key he => absurd he (hgiven p key)
    · trivial
  · intro u var cb pc hmem
    rcases hold u var cb pc hmem with hmem | ⟨-, hlt⟩
    · exact hs.exists hmem
    · exact hlt
  · have hnone := (hevent _ he).1
    cases hnone

omit [DecidableEq Th] in
theorem answered_not_given {base : ConfigVarMap E L Th} {e : Event E L} (h : Answered base e) :
    ConfigVarMap.given e = none ∧ ∀ p key cb, e ≠ .added p key cb := by
  cases h <;> exact ⟨rfl, fun _ _ _ => by simp⟩

/-- A call of `addListener` goes on: the other calls on their way are for other types. -/
theorem Keyed.adding_of_next (hs : Keyed s) (h : Shown s.base m) {var : ℕ} {v : Variable E L Th} {cb : L} {pc : Adding}
    (hv : s.base.made[var]? = some v) (hstack : s.calls t = .addListener var cb pc :: calls)
    (hcount : ∀ type, type ≠ v.type → m.base.s_fun_id type = s.base.s_fun_id type)
    (hadded : ∀ p key cb, m.event = some (.added p key cb) → s.base.contents[p]?.map Content.type = some v.type)
    (hgiven : ∀ p key, m.event.bind ConfigVarMap.given = some (p, key) →
      m.base.contents[p]?.map Content.type = some v.type)
    (hothers : ∀ u p cb' pc' c', .addListener p cb' pc' ∈ Function.update s.calls t calls u → pc' ≠ .entering →
      s.base.contents[p]? = some c' → c'.type ≠ v.type)
    (hcalls : m.calls = calls ∨ ∃ pc', m.calls = .addListener var cb pc' :: calls ∧
      Counted (s.stepped t m) v.type var cb pc') {u : Th} {p : ℕ} {cb' : L} {pc' : Adding}
    {c : Content E L} (hmem : .addListener p cb' pc' ∈ Function.update s.calls t m.calls u)
    (hc : s.base.contents[p]? = some c) : Counted (s.stepped t m) c.type p cb' pc' := by
  have hother : .addListener p cb' pc' ∈ Function.update s.calls t calls u → Counted (s.stepped t m) c.type p cb' pc' := by
    intro hmem
    cases hpc : pc' with
    | entering => trivial
    | loaded s_fun_id | stored | inserted =>
        rw [← hpc]
        have htype : c.type ≠ v.type := hothers u p cb' pc' c hmem (by simp [hpc]) hc
        have hold : .addListener p cb' pc' ∈ s.calls u := by
          by_cases hut : u = t
          · subst hut
            rw [Function.update_self] at hmem
            exact hstack ▸ List.mem_cons_of_mem _ hmem
          · rwa [Function.update_of_ne hut] at hmem
        refine hs.counted h hold hc (hcount _ htype) (fun q key cb he heq => htype ?_) fun q key he heq => htype ?_
        · exact Option.some.inj (heq.symm.trans (hadded q key cb he))
        · exact Option.some.inj (heq.symm.trans (hgiven q key he))
  rcases hcalls with hcalls | ⟨pc'', hcalls, hcounted⟩
  · rw [hcalls] at hmem
    exact hother hmem
  · by_cases hut : u = t
    · subst hut
      rw [Function.update_self, hcalls, List.mem_cons] at hmem
      rcases hmem with heq | hmem
      · cases heq
        obtain rfl : v.toContent = c := Option.some.inj ((contents_of_made hv).symm.trans hc)
        exact hcounted
      · exact hother (by rwa [Function.update_self])
    · rw [Function.update_of_ne hut] at hmem
      exact hother (by rwa [Function.update_of_ne hut])

theorem Keyed.exists_of_next (hs : Keyed s) {var : ℕ} {cb : L} {pc : Adding} (hstack : s.calls t = .addListener var cb pc :: calls)
    (hcalls : m.calls = calls ∨ ∃ pc', m.calls = .addListener var cb pc' :: calls) {u : Th} {p : ℕ} {cb' : L} {pc' : Adding}
    (hmem : .addListener p cb' pc' ∈ Function.update s.calls t m.calls u) : p < s.base.contents.length := by
  by_cases hut : u = t
  · subst hut
    rw [Function.update_self] at hmem
    have hold : .addListener p cb' pc' ∈ calls → p < s.base.contents.length := fun h =>
      hs.exists (hstack ▸ List.mem_cons_of_mem _ h : .addListener p cb' pc' ∈ s.calls u)
    rcases hcalls with hcalls | ⟨pc'', hcalls⟩
    · rw [hcalls] at hmem
      exact hold hmem
    · rw [hcalls, List.mem_cons] at hmem
      rcases hmem with heq | hmem
      · cases heq
        exact hs.exists (hstack ▸ List.mem_cons_self : .addListener var cb pc ∈ s.calls u)
      · exact hold hmem
  · rw [Function.update_of_ne hut] at hmem
    exact hs.exists hmem

theorem Keyed.locked (hs : Keyed s) {var : ℕ} {v : Variable E L Th} {cb : L} (hv : s.base.made[var]? = some v)
    (hstack : s.calls t = .addListener var cb .entering :: calls)
    (halone : ∀ w ∈ s.base.made, w.type = v.type → w.m_mutex.writers = []) (hlt : s.base.s_fun_id v.type + 1 < 2 ^ 64)
    (hm : m = ⟨s.base.put var { v with m_mutex := v.m_mutex.wrlock t },
      .addListener var cb (.loaded (s.base.s_fun_id v.type)) :: calls, none⟩)
    (h : Shown s.base m) (hinv : Inv (s.stepped t m)) : Keyed (s.stepped t m) := by
  have hholders : m.base.holders = Function.update s.base.holders (.write var) (t :: s.base.holders (.write var)) := by
    rw [hm]
    exact holders_wrlock hv t
  have hempty : ∀ (p : ℕ) (c : Content E L), s.base.contents[p]? = some c → c.type = v.type →
      s.base.holders (.write p) = [] := by
    intro p c hc htype
    obtain ⟨w, hw, rfl⟩ := Option.map_eq_some_iff.1 ((List.getElem?_map ..).symm.trans hc)
    rw [holders_write hw]
    exact halone w (List.mem_of_getElem? hw) htype
  have hnone := hempty var v.toContent (contents_of_made hv) rfl
  have hothers : ∀ u p cb' pc' c', .addListener p cb' pc' ∈ Function.update s.calls t calls u → pc' ≠ .entering →
      s.base.contents[p]? = some c' → c'.type ≠ v.type := by
    intro u p cb' pc' c' hmem hpc hc' htype
    have hold : .addListener p cb' pc' ∈ s.calls u := by
      by_cases hut : u = t
      · subst hut
        rw [Function.update_self] at hmem
        exact hstack ▸ List.mem_cons_of_mem _ hmem
      · rwa [Function.update_of_ne hut] at hmem
    have hholds := hs.inv.accounted.mem hold (holds_addListener p cb' hpc)
    rw [hempty p c' hc' htype] at hholds
    exact List.not_mem_nil hholds
  have hevent : m.event = none := by rw [hm]
  have hcount : m.base.s_fun_id = s.base.s_fun_id := by rw [hm]; rfl
  have hcalls : m.calls = .addListener var cb (.loaded (s.base.s_fun_id v.type)) :: calls := by rw [hm]
  have hcounted : Counted (s.stepped t m) v.type var cb (.loaded (s.base.s_fun_id v.type)) :=
    ⟨(congrFun hcount v.type).symm, hlt⟩
  refine hs.next hinv h (fun p => ?_) (fun p hne => ?_) (fun p q c c' hc hc' htype hp hq => ?_) (fun type key hkey => ?_)
    (fun u p cb' pc c hmem hc => ?_) (fun u p cb' pc hmem => ?_) ?_ ?_
  · rw [hholders]
    by_cases hp : p = var
    · rw [hp, Function.update_self, hnone]
      exact le_rfl
    · rw [Function.update_of_ne (by simpa using hp)]
      exact hs.single p
  · by_cases hp : p = var
    · rw [hp]
      exact (List.getElem?_eq_some_iff.1 (contents_of_made hv)).1
    · rw [hholders, Function.update_of_ne (by simpa using hp)] at hne
      exact lt_of_holders hne
  · have hone : ∀ (p : ℕ) (c : Content E L), s.base.contents[p]? = some c → m.base.holders (.write p) ≠ [] →
        c.type = v.type → p = var := by
      intro p c hc hne htype
      by_contra hp
      rw [hholders, Function.update_of_ne (by simpa using hp), hempty p c hc htype] at hne
      exact hne rfl
    by_cases hptype : c.type = v.type
    · rw [hone p c hc hp hptype, hone q c' hc' hq (htype ▸ hptype)]
    · have hpvar : p ≠ var := by
        rintro rfl
        obtain rfl : v.toContent = c := Option.some.inj ((contents_of_made hv).symm.trans hc)
        exact hptype rfl
      have hqvar : q ≠ var := by
        rintro rfl
        obtain rfl : v.toContent = c' := Option.some.inj ((contents_of_made hv).symm.trans hc')
        exact hptype htype
      rw [hholders, Function.update_of_ne (by simpa using hpvar)] at hp
      rw [hholders, Function.update_of_ne (by simpa using hqvar)] at hq
      exact hs.alone p q c c' hc hc' htype hp hq
  · rw [hcount]
    refine hs.below type key (hkey.imp (fun hstands => (h.stands hstands).resolve_right ?_) fun hgave =>
      (hs.given h hgave).resolve_right ?_)
    · rintro ⟨p, cb, he, -⟩
      rw [hevent] at he
      cases he
    · rintro ⟨p, he, -⟩
      rw [hevent] at he
      cases he
  · exact hs.adding_of_next h hv hstack (fun _ _ => by rw [hcount]) (by simp [hevent]) (by simp [hevent]) hothers
      (.inr ⟨_, hcalls, hcounted⟩) hmem hc
  · exact hs.exists_of_next hstack (.inr ⟨_, hcalls⟩) hmem
  · simp [hevent]
  · simp [hevent]

/-- A call of `addListener` that has the write lock goes on, and takes no other. -/
theorem Keyed.onward (hs : Keyed s) {var : ℕ} {v : Variable E L Th} {cb : L} {pc : Adding} (hpc : pc ≠ .entering)
    (hv : s.base.made[var]? = some v) (hstack : s.calls t = .addListener var cb pc :: calls) (h : Shown s.base m)
    (hinv : Inv (s.stepped t m)) (hholders : ∀ p, (m.base.holders (.write p)).Sublist (s.base.holders (.write p)))
    (hcount : ∀ type, type ≠ v.type → m.base.s_fun_id type = s.base.s_fun_id type)
    (hbelow : ∀ key, Stands m.base.contents v.type key ∨ Given m.base.contents (s.log ++ m.event.toList) v.type key →
      key ≤ m.base.s_fun_id v.type)
    (hadded : ∀ p key cb, m.event = some (.added p key cb) → p = var ∧ ∀ cb' ∈ v.m_cbs, cb'.1 < key)
    (hgiven : ∀ p key cb', m.event = some (.answered (.addListener p cb') (.key key)) → p = var ∧ .added p key cb' ∈ s.log ∧
      ¬ Given s.base.contents s.log v.type key)
    (hcalls : m.calls = calls ∨ ∃ pc', m.calls = .addListener var cb pc' :: calls ∧
      Counted (s.stepped t m) v.type var cb pc') : Keyed (s.stepped t m) := by
  have hc : s.base.contents[var]? = some v.toContent := contents_of_made hv
  have hvar : var < s.base.contents.length := (List.getElem?_eq_some_iff.1 hc).1
  have htypeAt : s.base.contents[var]?.map Content.type = some v.type := by rw [hc, Option.map_some]
  have haddedType : ∀ p key cb, m.event = some (.added p key cb) → s.base.contents[p]?.map Content.type = some v.type := by
    intro p key cb he
    rw [(hadded p key cb he).1, htypeAt]
  have hgivenType : ∀ p key, m.event.bind ConfigVarMap.given = some (p, key) →
      m.base.contents[p]?.map Content.type = some v.type := by
    intro p key he
    obtain ⟨e, he, hsome⟩ := Option.bind_eq_some_iff.1 he
    obtain ⟨cb', rfl⟩ : ∃ cb', e = .answered (.addListener p cb') (.key key) := by
      unfold ConfigVarMap.given at hsome
      split at hsome
      · cases hsome
        exact ⟨_, rfl⟩
      · cases hsome
    rw [(hgiven p key cb' he).1, h.type hvar, htypeAt]
  have hheld : ∀ p, m.base.holders (.write p) ≠ [] → s.base.holders (.write p) ≠ [] := fun p hne hnil =>
    hne (List.sublist_nil.1 (hnil ▸ hholders p))
  have hothers : ∀ u p cb' pc' c', .addListener p cb' pc' ∈ Function.update s.calls t calls u → pc' ≠ .entering →
      s.base.contents[p]? = some c' → c'.type ≠ v.type := fun _ _ _ _ _ hmem hpc' hc' => hs.others hstack hpc hc hmem hpc' hc'
  refine hs.next hinv h (fun p => (hholders p).length_le.trans (hs.single p)) (fun p hne => lt_of_holders (hheld p hne)) ?_ ?_ ?_ ?_
    (fun p key cb he c hc' => ?_) fun p key cb' he => ?_
  · intro p q c c' hp hq htype hpne hqne
    exact hs.alone p q c c' hp hq htype (hheld p hpne) (hheld q hqne)
  · intro type key hkey
    by_cases htype : type = v.type
    · rw [htype] at hkey ⊢
      exact hbelow key hkey
    · rw [hcount type htype]
      refine hs.below type key (hkey.imp (fun hstands => (h.stands hstands).resolve_right ?_) fun hgave =>
        (hs.given h hgave).resolve_right ?_)
      · rintro ⟨p, cb, he, heq⟩
        exact htype (Option.some.inj (heq.symm.trans (haddedType p key cb he)))
      · rintro ⟨p, he, heq⟩
        exact htype (Option.some.inj (heq.symm.trans (hgivenType p key he)))
  · intro u p cb' pc' c hmem hc'
    exact hs.adding_of_next h hv hstack hcount haddedType hgivenType hothers hcalls hmem hc'
  · intro u p cb' pc' hmem
    exact hs.exists_of_next hstack (hcalls.imp id fun ⟨pc', hpc', _⟩ => ⟨pc', hpc'⟩) hmem
  · obtain ⟨rfl, hlast⟩ := hadded p key cb he
    obtain rfl : v.toContent = c := Option.some.inj (hc.symm.trans hc')
    exact hlast
  · obtain ⟨rfl, hmem, hfresh⟩ := hgiven p key cb' he
    exact ⟨hmem, hvar, fun type htype => Option.some.inj (htypeAt.symm.trans htype) ▸ hfresh⟩

/-- A call that counts writes the number behind the one that it has loaded. -/
theorem Keyed.counts (hs : Keyed s) {var s_fun_id : ℕ} {v : Variable E L Th} {cb : L} (hv : s.base.made[var]? = some v)
    (hstack : s.calls t = .addListener var cb (.loaded s_fun_id) :: calls)
    (hm : m = ⟨{ s.base with s_fun_id := Function.update s.base.s_fun_id v.type ((s_fun_id + 1) % 2 ^ 64) },
      .addListener var cb .stored :: calls, none⟩)
    (h : Shown s.base m) (hinv : Inv (s.stepped t m)) : Keyed (s.stepped t m) := by
  obtain ⟨rfl, hlt⟩ : s_fun_id = s.base.s_fun_id v.type ∧ s_fun_id + 1 < 2 ^ 64 :=
    hs.adding t var cb (.loaded s_fun_id) v.toContent (hstack ▸ List.mem_cons_self) (contents_of_made hv)
  have hcount : m.base.s_fun_id v.type = s.base.s_fun_id v.type + 1 := by
    rw [hm]
    exact (Function.update_self ..).trans (Nat.mod_eq_of_lt hlt)
  have hevent : m.event = none := by rw [hm]
  have hcontents : m.base.contents = s.base.contents := by rw [hm]; rfl
  have hbelow : ∀ key, Stands m.base.contents v.type key ∨ Given m.base.contents (s.log ++ m.event.toList) v.type key →
      key < m.base.s_fun_id v.type := by
    intro key hkey
    rw [hcontents, hevent, Option.toList_none, List.append_nil] at hkey
    rw [hcount]
    exact Nat.lt_succ_of_le (hs.below v.type key hkey)
  refine hs.onward (by simp) hv hstack h hinv (fun p => ?_) (fun type hne => ?_) (fun key hkey => (hbelow key hkey).le)
    (by simp [hevent]) (by simp [hevent]) (.inr ⟨.stored, by rw [hm], hbelow⟩)
  · rw [hm]
    exact List.Sublist.refl _
  · rw [hm]
    exact Function.update_of_ne hne ..

/-- A call that has counted stores its listener under a new key. -/
theorem Keyed.inserts (hs : Keyed s) {var : ℕ} {v : Variable E L Th} {cb : L} (hv : s.base.made[var]? = some v)
    (hstack : s.calls t = .addListener var cb .stored :: calls)
    (hm : m = ⟨s.base.put var { v with m_cbs := putCb (s.base.s_fun_id v.type) cb v.m_cbs }, .addListener var cb .inserted :: calls,
      some (.added var (s.base.s_fun_id v.type) cb)⟩)
    (h : Shown s.base m) (hinv : Inv (s.stepped t m)) : Keyed (s.stepped t m) := by
  have hcounted : ∀ key, Stands s.base.contents v.type key ∨ Given s.base.contents s.log v.type key →
      key < s.base.s_fun_id v.type :=
    hs.adding t var cb .stored v.toContent (hstack ▸ List.mem_cons_self) (contents_of_made hv)
  have hevent : m.event = some (.added var (s.base.s_fun_id v.type) cb) := by rw [hm]
  have hcount : m.base.s_fun_id = s.base.s_fun_id := by rw [hm]; rfl
  have hholders : m.base.holders = s.base.holders := by
    rw [hm]
    exact holders_put_of_eq hv rfl
  have hgave : ∀ key, Given m.base.contents (s.log ++ m.event.toList) v.type key → key < s.base.s_fun_id v.type := by
    intro key hkey
    rcases hs.given h hkey with hkey | ⟨p, he, -⟩
    · exact hcounted key (.inr hkey)
    · rw [hevent] at he
      cases he
  have hstored : Counted (s.stepped t m) v.type var cb .inserted := by
    refine ⟨?_, fun key hkey => ?_⟩
    · show Event.added var (m.base.s_fun_id v.type) cb ∈ s.log ++ m.event.toList
      rw [hcount, hevent]
      exact List.mem_append_right _ List.mem_cons_self
    · show key < m.base.s_fun_id v.type
      rw [hcount]
      exact hgave key hkey
  refine hs.onward (by simp) hv hstack h hinv (fun p => by rw [hholders]) (fun type _ => by rw [hcount]) (fun key hkey => ?_)
    (fun p key cb' he => ?_) (by simp [hevent]) (.inr ⟨.inserted, by rw [hm], hstored⟩)
  · rw [hcount]
    rcases hkey with hkey | hkey
    · rcases h.stands hkey with hkey | ⟨p, cb', he, -⟩
      · exact (hcounted key (.inl hkey)).le
      · rw [hevent] at he
        cases he
        exact le_rfl
    · exact (hgave key hkey).le
  · rw [hevent] at he
    cases he
    exact ⟨rfl, fun cb' hcb' => hcounted _ (.inl ⟨v.toContent, List.mem_of_getElem? (contents_of_made hv), rfl,
      List.mem_map_of_mem hcb'⟩)⟩

/-- A call that has stored its listener returns the key. -/
theorem Keyed.returns (hs : Keyed s) {var : ℕ} {v : Variable E L Th} {cb : L} (hv : s.base.made[var]? = some v)
    (hstack : s.calls t = .addListener var cb .inserted :: calls)
    (hm : m = ⟨s.base.put var { v with m_mutex := v.m_mutex.unlockWrite t }, calls,
      some (.answered (.addListener var cb) (.key (s.base.s_fun_id v.type)))⟩)
    (h : Shown s.base m) (hinv : Inv (s.stepped t m)) : Keyed (s.stepped t m) := by
  obtain ⟨hmem, hgave⟩ : .added var (s.base.s_fun_id v.type) cb ∈ s.log ∧
      ∀ key, Given s.base.contents s.log v.type key → key < s.base.s_fun_id v.type :=
    hs.adding t var cb .inserted v.toContent (hstack ▸ List.mem_cons_self) (contents_of_made hv)
  have hevent : m.event = some (.answered (.addListener var cb) (.key (s.base.s_fun_id v.type))) := by rw [hm]
  have hcount : m.base.s_fun_id = s.base.s_fun_id := by rw [hm]; rfl
  refine hs.onward (by simp) hv hstack h hinv (fun p => ?_) (fun type _ => by rw [hcount]) (fun key hkey => ?_)
    (by simp [hevent]) (fun p key cb' he => ?_) (.inl (by rw [hm]))
  · rw [hm]
    show (holders _ (.write p)).Sublist _
    rw [holders_unlockWrite hv]
    by_cases hp : Lock.write p = .write var
    · rw [hp, Function.update_self]
      exact List.erase_sublist
    · rw [Function.update_of_ne hp]
  · rw [hcount]
    rcases hkey with hkey | hkey
    · rcases h.stands hkey with hkey | ⟨p, cb', he, -⟩
      · exact hs.below v.type key (.inl hkey)
      · rw [hevent] at he
        cases he
    · rcases hs.given h hkey with hkey | ⟨p, he, -⟩
      · exact hs.below v.type key (.inr hkey)
      · rw [hevent] at he
        cases he
        exact le_rfl
  · rw [hevent] at he
    cases he
    exact ⟨rfl, hmem, fun hkey => lt_irrefl _ (hgave _ hkey)⟩

theorem step_keyed [∀ type, DecidableEq (E type)] {FromStr : ∀ type, String → Option (E type)} {Y : Yaml} {s s' : State E L Th}
    (hs : Keyed s) {a : Action E L Th} (ha : CountsAlone s a) (hstep : step FromStr Y s a = .next s') : Keyed s' := by
  have hinv' := step_inv hs.inv hstep
  obtain ⟨m, heffect, rfl⟩ := step_effect hstep
  have hshown := effect_shown hs.inv.registered (hs.inv.fits _) heffect
  generalize hstack : s.calls a.thread = stack at heffect hshown
  have hmine : ∀ f ∈ stack, f ∈ s.calls a.thread := fun f hf => hstack ▸ hf
  cases heffect with
  | @quiet inner inner' calls event hinner hinner' hevent =>
      refine hs.kept hinv' hshown rfl (fun _ => rfl) (fun e he => answered_not_given (hevent e he)) fun var cb pc hmem => ?_
      rcases List.mem_append.1 hmem with hmem | hmem
      · obtain ⟨hquiet, c, hc⟩ := hinner' _ hmem
        cases pc with
        | entering => exact .inr ⟨rfl, (List.getElem?_eq_some_iff.1 hc).1⟩
        | loaded s_fun_id | stored | inserted => cases hquiet
      · exact .inl (hmine _ (List.mem_append_right _ hmem))
  | @made calls type name default_value description hfree hfind hvalid =>
      refine hs.kept hinv' hshown rfl (fun var => by rw [holders_made]) ?_ fun var cb pc hmem => .inl (hmine _ hmem)
      intro e he
      cases he
      exact ⟨rfl, fun _ _ _ => by simp⟩
  | visiting calls =>
      refine hs.kept hinv' hshown rfl (fun _ => rfl) ?_ fun var cb pc hmem => .inl (hmine _ ?_)
      · intro e he
        cases he
        exact ⟨rfl, fun _ _ _ => by simp⟩
      · exact (List.mem_cons.1 hmem).resolve_left (by simp)
  | visited seen p rest calls =>
      exact hs.kept hinv' hshown rfl (fun _ => rfl) (by simp) fun var cb pc hmem =>
        .inl (hmine _ (List.mem_cons_of_mem _ ((List.mem_cons.1 hmem).resolve_left (by simp))))
  | left seen rest calls =>
      exact hs.kept hinv' hshown rfl (fun _ => rfl) (by simp) fun var cb pc hmem => .inl (hmine _ (List.mem_cons_of_mem _ hmem))
  | @compared var val v calls hv hfree hne =>
      refine hs.kept hinv' hshown rfl (fun p => ?_) (by simp) fun var cb pc hmem =>
        .inl (hmine _ (List.mem_cons_of_mem _ ((List.mem_cons.1 hmem).resolve_left (by simp))))
      rw [holders_rdlock hv, Function.update_of_ne (by simp)]
  | told val cb cbs calls hv =>
      refine hs.kept hinv' hshown rfl (fun _ => rfl) ?_ fun var cb pc hmem =>
        .inl (hmine _ (List.mem_cons_of_mem _ ((List.mem_cons.1 hmem).resolve_left (by simp))))
      intro e he
      cases he
      exact ⟨rfl, fun _ _ _ => by simp⟩
  | @unlocked inner inner' var val v cbs calls event hv hinner hinner' hevent =>
      refine hs.kept hinv' hshown rfl (fun p => ?_) (fun e he => answered_not_given (hevent e he)) fun var cb pc hmem => ?_
      · rw [holders_unlockRead hv, Function.update_of_ne (by simp)]
      · rcases List.mem_append.1 hmem with hmem | hmem
        · exact absurd (hinner' _ hmem) (by simp)
        · exact .inl (hmine _ (List.mem_cons_of_mem _ (List.mem_append_right _ hmem)))
  | @written inner var v c calls event hv hfree hinner hwrites hassigning =>
      have hholders : (s.base.put var { v with toContent := c }).holders = s.base.holders := holders_put_of_eq hv rfl
      refine hs.kept hinv' hshown rfl (fun p => congrFun hholders (.write p)) ?_ fun var cb pc hmem =>
        .inl (hmine _ (List.mem_append_right _ hmem))
      intro e he
      cases he
      cases hwrites <;> exact ⟨rfl, fun _ _ _ => by simp⟩
  | @locked var v cb calls hv hfree =>
      have htype : s.base.typeAt var = some v.type := by rw [typeAt, hv, Option.map_some]
      simp only [CountsAlone, hstack] at ha
      obtain ⟨halone, hlt⟩ := ha v.type htype
      exact hs.locked hv hstack halone hlt rfl hshown hinv'
  | stored cb s_fun_id calls hv => exact hs.counts hv hstack rfl hshown hinv'
  | inserted cb calls hv => exact hs.inserts hv hstack rfl hshown hinv'
  | given cb calls hv => exact hs.returns hv hstack rfl hshown hinv'

end

/-! ### Runs -/

section

variable [DecidableEq τ] [∀ type, DecidableEq (E type)] [DecidableEq Th] {FromStr : ∀ type, String → Option (E type)} {Y : Yaml}

omit [∀ type, DecidableEq (E type)] in
theorem keyed_start : Keyed (start : State E L Th) where
  inv := inv_start
  single _ := Nat.zero_le _
  alone p q c c' hc := by simp [start, empty, contents] at hc
  below type key h := by
    rcases h with ⟨c, hc, -⟩ | ⟨e, he, -⟩
    · cases hc
    · cases he
  adding := by simp [start]
  made := by simp [start]
  once := List.Pairwise.nil
  stored := by simp [start]
  last := by simp [start]

omit [DecidableEq τ] [∀ type, DecidableEq (E type)] [DecidableEq Th] in
/-- A listener stands until it is removed, if those that are stored behind it have other keys. -/
theorem mem_after {c : Content E L} {p key : ℕ} {cb : L} (hmem : (key, cb) ∈ c.m_cbs) {e : Event E L} (hkept : ¬ removes p key e)
    (hlast : ∀ key' cb', e = .added p key' cb' → key < key') : (key, cb) ∈ (after p c e).m_cbs := by
  cases e with
  | added q key' cb' =>
      simp only [after]
      split_ifs with hq
      · subst hq
        have hne := (hlast key' cb' rfl).ne
        have hother : (key, cb) ∈ c.m_cbs.filter fun cb => cb.1 ≠ key' := List.mem_filter.2 ⟨hmem, by simpa using hne⟩
        have hnew : ∀ y ∈ c.m_cbs.filter (fun cb => cb.1 ≠ key'), y.1 ≠ (key', cb').1 := fun y hy => by
          simpa using (List.mem_filter.1 hy).2
        exact (OrderedSet.mem_insert hnew).2 (.inr hother)
      · exact hmem
  | answered call answer =>
      cases call with
      | delListerer q key' =>
          simp only [after]
          split_ifs with hq
          · exact List.mem_filter.2 ⟨hmem, by simpa using fun heq => hkept ⟨hq, heq.symm⟩⟩
          · exact hmem
      | clearListener q =>
          simp only [after]
          split_ifs with hq
          · exact absurd hq hkept
          · exact hmem
      | Lookup type name default_value description | LookupOnly type name | LookupBase name | Visit | LoadFromYaml root
      | setValue var val | fromString var val | addListener var cb | getListener var key => exact hmem
  | assigned q val =>
      simp only [after]
      split_ifs <;> exact hmem
  | told var cb' old_value new_value => exact hmem

omit [DecidableEq τ] [∀ type, DecidableEq (E type)] [DecidableEq Th] in
theorem sorted_after {c : Content E L} (h : OrderedSet.Sorted (· < ·) Prod.fst c.m_cbs) (p : ℕ) (e : Event E L) :
    OrderedSet.Sorted (· < ·) Prod.fst (after p c e).m_cbs := by
  unfold after
  split <;> try split_ifs
  all_goals first
    | exact h
    | exact OrderedSet.sorted_insert (h.sublist List.filter_sublist)
    | exact h.sublist List.filter_sublist
    | exact List.Pairwise.nil

omit [DecidableEq τ] [∀ type, DecidableEq (E type)] [DecidableEq Th] in
/-- The listeners of a variable stand in the order of their keys. -/
theorem sorted_directory {log : List (Event E L)} {p : ℕ} {c : Content E L} (hc : (directory log)[p]? = some c) :
    OrderedSet.Sorted (· < ·) Prod.fst c.m_cbs := by
  obtain ⟨i, type, name, default_value, description, answer, -, -, -, -, rfl⟩ := origin_of_directory hc
  have hfold : ∀ (events : List (Event E L)) (b : Content E L), OrderedSet.Sorted (· < ·) Prod.fst b.m_cbs →
      OrderedSet.Sorted (· < ·) Prod.fst (events.foldl (after p) b).m_cbs := by
    intro events
    induction events with
    | nil => exact fun b hb => hb
    | cons e events ih => exact fun b hb => ih _ (sorted_after hb p e)
  exact hfold _ _ List.Pairwise.nil

omit [DecidableEq τ] [∀ type, DecidableEq (E type)] [DecidableEq Th] in
theorem foundCb_eq_some {m_cbs : List (ℕ × L)} (hsorted : OrderedSet.Sorted (· < ·) Prod.fst m_cbs) {key : ℕ} {cb : L}
    (hmem : (key, cb) ∈ m_cbs) : foundCb key m_cbs = some cb := by
  have hget : m_cbs[findCb key m_cbs]? = some (key, cb) := OrderedSet.getElem?_find hsorted hmem
  rw [← found_eq hsorted, hget, Option.map_some]

omit [∀ type, DecidableEq (E type)] in
/-- A listener that has been stored stands until it is removed. -/
theorem Keyed.stands {s : State E L Th} (hs : Keyed s) {i p key : ℕ} {cb : L} (hadded : s.log[i]? = some (.added p key cb)) {n : ℕ}
    (hn : i < n) (hlength : n ≤ s.log.length) (hkept : ∀ k e, i < k → k < n → s.log[k]? = some e → ¬ removes p key e) :
    ∃ c, (directory (s.log.take n))[p]? = some c ∧ (key, cb) ∈ c.m_cbs := by
  have hnext : ∀ k e, s.log[k]? = some e → ∀ c, (directory (s.log.take k))[p]? = some c →
      (directory (s.log.take (k + 1)))[p]? = some (after p c e) := by
    intro k e hget c hc
    obtain ⟨hk, hat⟩ := List.getElem?_eq_some_iff.1 hget
    rw [List.take_succ_eq_append_getElem hk, hat, directory_concat, getElem?_extend (List.getElem?_eq_some_iff.1 hc).1, hc,
      Option.map_some]
  induction n, hn using Nat.le_induction with
  | base =>
      obtain ⟨c, hc⟩ := hs.inv.legal i _ hadded
      refine ⟨_, hnext i _ hadded c hc, ?_⟩
      have hnew : ∀ y ∈ c.m_cbs.filter (fun cb => cb.1 ≠ key), y.1 ≠ (key, cb).1 := fun y hy => by
        simpa using (List.mem_filter.1 hy).2
      simp only [after, if_pos]
      exact (OrderedSet.mem_insert hnew).2 (.inl rfl)
  | succ n hn ih =>
      obtain ⟨c, hc, hmem⟩ := ih (by omega) fun k e hik hkn => hkept k e hik (by omega)
      have hget : s.log[n]? = some s.log[n] := List.getElem?_eq_getElem (by omega)
      refine ⟨_, hnext n _ hget c hc, mem_after hmem (hkept n _ hn (by omega) hget) fun key' cb' he => ?_⟩
      exact hs.last n p key' cb' c (he ▸ hget) hc _ hmem

/-- No two calls on variables of one type return the same key. The key that a call returns is the one that it has stored its listener under, and `getListener` finds it there until it is removed. A listener is stored behind those that stand, which is the order in which `setValue` calls them. -/
structure GivenOnce (s : State E L Th) : Prop where
  once : ∀ (i j p q key : ℕ) (cb cb' : L), s.log[i]? = some (.answered (.addListener p cb) (.key key)) →
    s.log[j]? = some (.answered (.addListener q cb') (.key key)) → s.base.typeAt p = s.base.typeAt q → i = j
  stored : ∀ (i p key : ℕ) (cb : L), s.log[i]? = some (.answered (.addListener p cb) (.key key)) →
    ∃ j < i, s.log[j]? = some (.added p key cb)
  found : ∀ (i n p key : ℕ) (cb : L) (answer : Answer L), s.log[i]? = some (.added p key cb) → i < n →
    s.log[n]? = some (.answered (.getListener p key) answer) →
    (∀ k e, i < k → k < n → s.log[k]? = some e → ¬ removes p key e) → answer = .listener (some cb)
  last : ∀ (i p key : ℕ) (cb : L) (c : Content E L), s.log[i]? = some (.added p key cb) →
    (directory (s.log.take i))[p]? = some c → (after p c (.added p key cb)).m_cbs = c.m_cbs ++ [(key, cb)]

/-- For all threads, in whatever order their calls and those of their callbacks take place, as long as each call of `addListener` counts alone, a key stands for one listener. -/
theorem keys_given_once (FromStr : ∀ type, String → Option (E type)) (Y : Yaml) {acts : List (Action E L Th)}
    (halone : Along (step FromStr Y) CountsAlone start acts) : Throughout (step FromStr Y) GivenOnce start acts := by
  have hstep : ∀ (s : State E L Th) a s', Keyed s → CountsAlone s a → step FromStr Y s a = .next s' → Keyed s' :=
    fun _ _ _ hs ha h => step_keyed hs ha h
  refine (throughout_of_along hstep keyed_start halone).1.mono fun s hs => ⟨?_, hs.stored, ?_, ?_⟩
  · intro i j p q key cb cb' hi hj htype
    have htypes : ∀ p, s.base.contents[p]?.map Content.type = s.base.typeAt p := fun p => by
      rw [contents, List.getElem?_map, Option.map_map, typeAt]
      rfl
    obtain ⟨hilt, hiat⟩ := List.getElem?_eq_some_iff.1 hi
    obtain ⟨hjlt, hjat⟩ := List.getElem?_eq_some_iff.1 hj
    rcases Nat.lt_trichotomy i j with hlt | heq | hgt
    · have hne := List.pairwise_iff_getElem.1 hs.once i j hilt hjlt hlt p q key
      rw [hiat, hjat, htypes, htypes] at hne
      exact absurd htype (hne rfl rfl)
    · exact heq
    · have hne := List.pairwise_iff_getElem.1 hs.once j i hjlt hilt hgt q p key
      rw [hiat, hjat, htypes, htypes] at hne
      exact absurd htype.symm (hne rfl rfl)
  · intro i n p key cb answer hadded hin hget hkept
    have hn : n < s.log.length := (List.getElem?_eq_some_iff.1 hget).1
    obtain ⟨c, hc, hmem⟩ := hs.stands hadded hin hn.le hkept
    obtain ⟨c', hc', rfl⟩ := hs.inv.legal n _ hget
    obtain rfl : c = c' := Option.some.inj (hc.symm.trans hc')
    rw [foundCb_eq_some (sorted_directory hc) hmem]
  · intro i p key cb c hget hc
    have hlast := hs.last i p key cb c hget hc
    have hothers : c.m_cbs.filter (fun cb => cb.1 ≠ key) = c.m_cbs :=
      List.filter_eq_self.2 fun cb' hcb' => by simpa using (hlast cb' hcb').ne
    simp only [after, if_pos]
    rw [hothers, OrderedSet.insert_of_last hlast]

end

/-- A library that reads and writes nothing. -/
def noYaml : Yaml := { Load := fun _ => none, emit := fun _ => "", asString := fun _ => none, asIndex := fun _ => none }

/-- Two threads. One looks two variables of a type up and adds a listener to the first; the other waits with its own until that has its key, and then reaches the listener of the first variable by `setValue`, from which it asks for it under its key. -/
def countingRun : List (Action (fun _ : Unit => ℕ) Bool Bool) :=
  [[.call true (.Lookup () "a" 0 ""), .call true (.Lookup () "b" 0 ""), .call true (.addListener 0 true), .run true,
      .call false (.addListener 1 false)],
    List.replicate 3 (.run true), List.replicate 4 (.run false), [.call false (.setValue 0 ⟨(), 7⟩), .run false],
    [.call false (.getListener 0 1)], List.replicate 3 (.run false)].flatten

theorem keys_given_once_counting :
    (Transition.run (step (fun _ text => some text.length) noYaml) start countingRun).map
        (fun s : State (fun _ : Unit => ℕ) Bool Bool => s.log.filterMap given) = .next [(0, 1), (1, 2)] ∧
      Throughout (step (fun _ text => some text.length) noYaml) GivenOnce (start : State (fun _ : Unit => ℕ) Bool Bool)
        countingRun :=
  ⟨by decide +kernel, keys_given_once _ _ (by decide +kernel)⟩

/-- Two calls that count at once return the same key. -/
example : (Transition.run (step (fun _ text => some text.length) noYaml) start
    ([.call true (.Lookup () "a" 0 ""), .call true (.Lookup () "b" 0 ""), .call true (.addListener 0 true),
      .call false (.addListener 1 false)] ++ (List.replicate 4 [.run true, .run false]).flatten)).map
    (fun s : State (fun _ : Unit => ℕ) Bool Bool => s.log.filterMap given) = .next [(0, 1), (1, 1)] := by
  decide +kernel

end Awcotn.ConfigVarMap
