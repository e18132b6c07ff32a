import Awcotn.Config.Registry

/-!
# The directory

What the variables are is a matter of what has been shown: a name is registered by the first `Lookup` of it, if its characters are permitted, and a variable has the value that was last assigned to it and the listeners that were added to it and not removed. `directory` is that, a list of variables that only grows, and `Expected` says what each event shows of the list before it.

The map of `Config`, of which `Registered` says how it belongs to the list, and the variables behind it follow the directory: `effect_shown` says so of each step.
-/

namespace Awcotn.ConfigVarMap

open Config Transition Holders

variable {τ : Type*} {E : τ → Type*} {L Th : Type*}

/-! ### What has been shown -/

/-- The variable at `var` after an event. -/
def after (var : ℕ) (c : Content E L) : Event E L → Content E L
  | .assigned p val => if p = var then { c with m_val := val } else c
  | .added p key cb =>
    if p = var then { c with m_cbs := OrderedSet.insert (· < ·) Prod.fst (key, cb) (c.m_cbs.filter fun cb => cb.1 ≠ key) } else c
  | .answered (.delListerer p key) _ => if p = var then { c with m_cbs := c.m_cbs.filter fun cb => cb.1 ≠ key } else c
  | .answered (.clearListener p) _ => if p = var then { c with m_cbs := [] } else c
  | _ => c

/-- A variable that has just been registered. -/
def fresh (type : τ) (name : String) (default_value : E type) (description : String) : Content E L where
  type := type
  m_name := name
  m_description := description
  m_val := ⟨type, default_value⟩
  m_cbs := []

/-- The variable that a `Lookup` registers. -/
def registers (d : List (Content E L)) : Event E L → List (Content E L)
  | .answered (.Lookup type name default_value description) _ =>
    if valid name ∧ name ∉ d.map Content.m_name then [fresh type name default_value description] else []
  | _ => []

/-- The variables after an event. -/
def extend (d : List (Content E L)) (e : Event E L) : List (Content E L) := (d.mapIdx fun p c => after p c e) ++ registers d e

def directory (log : List (Event E L)) : List (Content E L) := log.foldl extend []

/-- The position of a name. -/
def position (d : List (Content E L)) (name : String) : Option ℕ := d.findIdx? fun c => c.m_name = name

/-- The position of a name if it has a type. -/
def positionOf [DecidableEq τ] (d : List (Content E L)) (type : τ) (name : String) : Option ℕ :=
  (position d name).filter fun p => d[p]?.map Content.type = some type

/-- All variables, each once, in the order of their names. -/
def InOrder (d : List (Content E L)) (vars : List ℕ) : Prop :=
  vars.Perm (List.range d.length) ∧
    (vars.map fun p => d[p]?.map Content.m_name).Pairwise fun a b => ∀ name ∈ a, ∀ name' ∈ b, name < name'

/-- The listener a key stands for. -/
def foundCb (key : ℕ) (m_cbs : List (ℕ × L)) : Option L := (m_cbs.find? fun cb => cb.1 = key).map Prod.snd

/-- What an event shows of the variables before it. A listener that is told is one that stands, and is told the value that stands and another of the type. -/
def Expected [DecidableEq τ] (d : List (Content E L)) : Event E L → Prop
  | .answered (.Lookup type name _ _) answer =>
    answer = if !valid name then .invalid_argument name
      else if name ∈ d.map Content.m_name then .pointer (positionOf d type name)
      else .pointer (some d.length)
  | .answered (.LookupOnly type name) answer => answer = .pointer (positionOf d type name)
  | .answered (.LookupBase name) answer => answer = .pointer (position d name)
  | .answered .Visit answer => ∃ vars, answer = .visited vars ∧ InOrder d vars
  | .answered (.getListener var key) answer => ∃ c, d[var]? = some c ∧ answer = .listener (foundCb key c.m_cbs)
  | .told var cb old_value new_value => ∃ c, d[var]? = some c ∧ old_value = c.m_val ∧ new_value ≠ old_value ∧
      new_value.1 = c.type ∧ cb ∈ c.m_cbs.map Prod.snd
  | .assigned var val => ∃ c, d[var]? = some c ∧ val.1 = c.type
  | .added var _ _ => ∃ c, d[var]? = some c
  | _ => True

/-- Each event shows what is expected. -/
def Legal [DecidableEq τ] (log : List (Event E L)) : Prop := ∀ i e, log[i]? = some e → Expected (directory (log.take i)) e

/-! ### The directory after an event -/

section

variable {d : List (Content E L)} {e : Event E L} {var : ℕ} {c : Content E L}

@[simp] theorem after_type : (after var c e).type = c.type := by
  unfold after
  split <;> try split_ifs
  all_goals rfl

@[simp] theorem after_m_name : (after var c e).m_name = c.m_name := by
  unfold after
  split <;> try split_ifs
  all_goals rfl

@[simp] theorem after_m_description : (after var c e).m_description = c.m_description := by
  unfold after
  split <;> try split_ifs
  all_goals rfl

theorem getElem?_extend (hvar : var < d.length) : (extend d e)[var]? = d[var]?.map fun c => after var c e := by
  rw [extend, List.getElem?_append_left (by simpa using hvar), List.getElem?_mapIdx]

/-- An event that leaves the variables as they are. -/
theorem extend_eq_self (hregisters : registers d e = []) (hafter : ∀ p c, after p c e = c) : extend d e = d := by
  rw [extend, hregisters, List.append_nil]
  refine List.ext_getElem? fun p => ?_
  rw [List.getElem?_mapIdx]
  simp [hafter]

/-- An event on one variable. -/
theorem extend_eq_set (hvar : d[var]? = some c) (hregisters : registers d e = [])
    (hafter : ∀ p c, p ≠ var → after p c e = c) : extend d e = d.set var (after var c e) := by
  rw [extend, hregisters, List.append_nil]
  refine List.ext_getElem? fun p => ?_
  rw [List.getElem?_mapIdx]
  by_cases hp : p = var
  · subst hp
    rw [hvar, Option.map_some, List.getElem?_set_self (List.getElem?_eq_some_iff.1 hvar).1]
  · rw [List.getElem?_set_ne (Ne.symm hp)]
    simp [hafter _ _ hp]

theorem directory_concat (log : List (Event E L)) (e : Event E L) : directory (log ++ [e]) = extend (directory log) e := by
  rw [directory, List.foldl_append]
  rfl

theorem legal_concat [DecidableEq τ] {log : List (Event E L)} (h : Legal log) (hexpected : Expected (directory log) e) :
    Legal (log ++ [e]) := by
  intro i e' hget
  rcases Nat.lt_or_ge i log.length with hlt | hge
  · rw [List.getElem?_append_left hlt] at hget
    rw [List.take_append_of_le_length hlt.le]
    exact h i e' hget
  · have hi : i = log.length := by
      have := (List.getElem?_eq_some_iff.1 hget).1
      simp at this
      omega
    subst hi
    rw [List.getElem?_concat_length] at hget
    cases hget
    rw [List.take_left]
    exact hexpected

end

/-! ### The map -/

/-- Every variable is in the map, under its own name and nowhere else, its name is permitted, its value has its type, and its listeners stand in the order of their keys. -/
structure Registered (d : List (Content E L)) (s_datas : List (String × ℕ)) : Prop where
  sorted : OrderedSet.Sorted (· < ·) Prod.fst s_datas
  mem_iff : ∀ name p, (name, p) ∈ s_datas ↔ d[p]?.map Content.m_name = some name
  valid : ∀ c ∈ d, Config.valid c.m_name = true
  typed : ∀ c ∈ d, c.m_val.1 = c.type
  keys : ∀ c ∈ d, OrderedSet.Sorted (· < ·) Prod.fst c.m_cbs

theorem registered_nil : Registered ([] : List (Content E L)) [] := by
  constructor <;> simp [OrderedSet.Sorted]

section

variable {d : List (Content E L)} {s_datas : List (String × ℕ)} {s : ConfigVarMap E L Th} {var : ℕ} {c : Content E L}

theorem find_eq_some (hs : Registered d s.s_datas) {name : String} {p : ℕ} :
    s.find name = some p ↔ d[p]?.map Content.m_name = some name := by
  rw [← hs.mem_iff, find]
  constructor
  · intro h
    obtain ⟨⟨name', p'⟩, hget, rfl⟩ := Option.map_eq_some_iff.1 h
    obtain ⟨hlt, -⟩ := List.getElem?_eq_some_iff.1 hget
    obtain ⟨e, hmem, rfl⟩ := OrderedSet.key_of_find_lt_length hlt
    rw [OrderedSet.getElem?_find hs.sorted hmem] at hget
    cases hget
    exact hmem
  · intro hmem
    have hget := OrderedSet.getElem?_find hs.sorted hmem
    rw [hget, Option.map_some]

theorem find_eq_position (hs : Registered d s.s_datas) (name : String) : s.find name = position d name := by
  cases hpos : position d name with
  | none =>
      rw [Option.eq_none_iff_forall_ne_some]
      intro p hp
      obtain ⟨c, hc, hname⟩ := Option.map_eq_some_iff.1 ((find_eq_some hs).1 hp)
      have hnone := List.findIdx?_eq_none_iff.1 hpos c (List.mem_of_getElem? hc)
      simp [hname] at hnone
  | some p =>
      obtain ⟨hlt, hat, -⟩ := List.findIdx?_eq_some_iff_getElem.1 hpos
      rw [find_eq_some hs, List.getElem?_eq_getElem hlt]
      simpa using hat

theorem find_eq_none_iff (hs : Registered d s.s_datas) (name : String) : s.find name = none ↔ name ∉ d.map Content.m_name := by
  rw [find_eq_position hs, position, List.findIdx?_eq_none_iff]
  simp only [decide_eq_false_iff_not, List.mem_map, not_exists, not_and]

theorem Registered.nodup (hs : Registered d s_datas) : (d.map Content.m_name).Nodup := by
  rw [List.nodup_iff_getElem?_ne_getElem?]
  intro p q hpq hq heq
  rw [List.getElem?_map, List.getElem?_map] at heq
  obtain ⟨c, hc⟩ : ∃ c, d[q]? = some c := ⟨_, List.getElem?_eq_getElem (by simpa using hq)⟩
  rw [hc, Option.map_some] at heq
  have hmem : (c.m_name, q) ∈ s_datas := (hs.mem_iff _ _).2 (by rw [hc, Option.map_some])
  have hsame := hs.sorted.key_injective ((hs.mem_iff _ _).2 heq) hmem rfl
  exact hpq.ne (congrArg Prod.snd hsame)

/-- `Visit` comes to each variable once, in the order of the names. -/
theorem Registered.inOrder (hs : Registered d s_datas) : InOrder d (s_datas.map Prod.snd) := by
  have hnames : ∀ e ∈ s_datas, d[e.2]?.map Content.m_name = some e.1 := fun e he => (hs.mem_iff e.1 e.2).1 he
  constructor
  · rw [List.perm_ext_iff_of_nodup _ List.nodup_range]
    · intro p
      rw [List.mem_map, List.mem_range]
      constructor
      · rintro ⟨e, he, rfl⟩
        obtain ⟨c, hc, -⟩ := Option.map_eq_some_iff.1 (hnames e he)
        exact (List.getElem?_eq_some_iff.1 hc).1
      · intro hlt
        refine ⟨(d[p].m_name, p), (hs.mem_iff _ p).2 ?_, rfl⟩
        rw [List.getElem?_eq_getElem hlt, Option.map_some]
    · refine List.pairwise_map.2 (hs.sorted.imp_of_mem fun {e e'} he he' hlt heq => ?_)
      have hsame := hnames e he
      rw [heq, hnames e' he', Option.some.injEq] at hsame
      rw [hsame] at hlt
      exact lt_irrefl _ hlt
  · rw [List.map_map, List.pairwise_map]
    refine hs.sorted.imp_of_mem fun {e e'} he he' hlt name hname name' hname' => ?_
    simp only [Function.comp_apply, hnames e he, hnames e' he', Option.mem_some_iff] at hname hname'
    rw [← hname, ← hname']
    exact hlt

/-- A variable that is changed keeps its name and its type. -/
theorem Registered.set (hs : Registered d s_datas) (hvar : d[var]? = some c) {c' : Content E L} (hname : c'.m_name = c.m_name)
    (htype : c'.m_val.1 = c'.type) (hkeys : OrderedSet.Sorted (· < ·) Prod.fst c'.m_cbs) :
    Registered (d.set var c') s_datas where
  sorted := hs.sorted
  mem_iff name p := by
    rw [hs.mem_iff]
    by_cases hp : var = p
    · subst hp
      rw [hvar, List.getElem?_set_self (List.getElem?_eq_some_iff.1 hvar).1, Option.map_some, Option.map_some, hname]
    · rw [List.getElem?_set_ne hp]
  valid x hx := by
    rcases List.mem_or_eq_of_mem_set hx with hx | rfl
    · exact hs.valid x hx
    · rw [hname]
      exact hs.valid c (List.mem_of_getElem? hvar)
  typed x hx := by
    rcases List.mem_or_eq_of_mem_set hx with hx | rfl
    · exact hs.typed x hx
    · exact htype
  keys x hx := by
    rcases List.mem_or_eq_of_mem_set hx with hx | rfl
    · exact hs.keys x hx
    · exact hkeys

/-- A variable that is made goes to the end. -/
theorem Registered.concat (hs : Registered d s_datas) {type : τ} {name : String} (hnew : name ∉ d.map Content.m_name)
    (hvalid : Config.valid name = true) (default_value : E type) (description : String) :
    Registered (d ++ [fresh type name default_value description])
      (OrderedSet.insert (· < ·) Prod.fst (name, d.length) s_datas) where
  sorted := OrderedSet.sorted_insert hs.sorted
  mem_iff other p := by
    have hothers : ∀ e ∈ s_datas, e.1 ≠ name := by
      rintro ⟨other, q⟩ he rfl
      obtain ⟨c, hc, hname⟩ := Option.map_eq_some_iff.1 ((hs.mem_iff other q).1 he)
      exact hnew (List.mem_map.2 ⟨c, List.mem_of_getElem? hc, hname⟩)
    rw [OrderedSet.mem_insert hothers, hs.mem_iff]
    rcases Nat.lt_trichotomy p d.length with hlt | rfl | hgt
    · simp [List.getElem?_append_left hlt, hlt.ne]
    · simp [fresh, eq_comm]
    · have hlong : (d ++ [fresh type name default_value description]).length ≤ p := by
        rw [List.length_append, List.length_singleton]
        exact hgt
      rw [List.getElem?_eq_none hlong, List.getElem?_eq_none hgt.le]
      simp [hgt.ne']
  valid c hc := by
    rcases List.mem_append.1 hc with hc | hc
    · exact hs.valid c hc
    · obtain rfl := List.mem_singleton.1 hc
      exact hvalid
  typed c hc := by
    rcases List.mem_append.1 hc with hc | hc
    · exact hs.typed c hc
    · obtain rfl := List.mem_singleton.1 hc
      rfl
  keys c hc := by
    rcases List.mem_append.1 hc with hc | hc
    · exact hs.keys c hc
    · obtain rfl := List.mem_singleton.1 hc
      exact List.Pairwise.nil

end

/-! ### Listeners and their keys -/

/-- Erasing the listener of a key. -/
theorem eraseIdx_findCb {m_cbs : List (ℕ × L)} (hsorted : OrderedSet.Sorted (· < ·) Prod.fst m_cbs) (key : ℕ) :
    m_cbs.eraseIdx (findCb key m_cbs) = m_cbs.filter fun cb => cb.1 ≠ key := by
  by_cases hlt : findCb key m_cbs < m_cbs.length
  · obtain ⟨cb, hcb, rfl⟩ := OrderedSet.key_of_find_lt_length hlt
    have hget := OrderedSet.getElem?_find hsorted hcb
    obtain ⟨_, hat⟩ := List.getElem?_eq_some_iff.1 hget
    have hsplit : m_cbs = m_cbs.take (findCb cb.1 m_cbs) ++ cb :: m_cbs.drop (findCb cb.1 m_cbs + 1) := by
      have hdrop : m_cbs.drop (findCb cb.1 m_cbs) = cb :: m_cbs.drop (findCb cb.1 m_cbs + 1) := by
        rw [List.drop_eq_getElem_cons hlt]
        exact congrArg (· :: _) hat
      rw [← hdrop, List.take_append_drop]
    have hpairs : OrderedSet.Sorted (· < ·) Prod.fst
        (m_cbs.take (findCb cb.1 m_cbs) ++ cb :: m_cbs.drop (findCb cb.1 m_cbs + 1)) := hsplit ▸ hsorted
    obtain ⟨-, hafter, hbefore⟩ := List.pairwise_append.1 hpairs
    have hafter := (List.pairwise_cons.1 hafter).1
    rw [List.eraseIdx_eq_take_drop_succ]
    conv_rhs => rw [hsplit]
    rw [List.filter_append, List.filter_cons_of_neg (by simp), List.filter_eq_self.2, List.filter_eq_self.2]
    · exact fun x hx => by simpa using (hafter x hx).ne'
    · exact fun x hx => by simpa using (hbefore x hx cb List.mem_cons_self).ne
  · rw [List.eraseIdx_of_length_le (by omega), eq_comm, List.filter_eq_self]
    intro cb hcb
    have hne : cb.1 ≠ key := by
      rintro rfl
      exact hlt (OrderedSet.find_lt_length hsorted hcb)
    simpa using hne

theorem putCb_eq {m_cbs : List (ℕ × L)} (hsorted : OrderedSet.Sorted (· < ·) Prod.fst m_cbs) (key : ℕ) (cb : L) :
    putCb key cb m_cbs = OrderedSet.insert (· < ·) Prod.fst (key, cb) (m_cbs.filter fun cb => cb.1 ≠ key) := by
  rw [putCb, eraseIdx_findCb hsorted]

/-- `getListener` finds a listener by its key. -/
theorem found_eq {m_cbs : List (ℕ × L)} (hsorted : OrderedSet.Sorted (· < ·) Prod.fst m_cbs) (key : ℕ) :
    m_cbs[findCb key m_cbs]?.map Prod.snd = foundCb key m_cbs := by
  rw [foundCb]
  cases hfind : m_cbs.find? fun cb => cb.1 = key with
  | some cb =>
      have hmem := List.mem_of_find?_eq_some hfind
      obtain rfl : cb.1 = key := by simpa using List.find?_some hfind
      have hget : m_cbs[findCb cb.1 m_cbs]? = some cb := OrderedSet.getElem?_find hsorted hmem
      rw [hget]
  | none =>
      have hlength : m_cbs.length ≤ findCb key m_cbs := by
        by_contra hlt
        obtain ⟨cb, hcb, rfl⟩ := OrderedSet.key_of_find_lt_length (Nat.lt_of_not_le hlt)
        have hne := List.find?_eq_none.1 hfind cb hcb
        simp at hne
      rw [List.getElem?_eq_none hlength, Option.map_none]

/-! ### What a step shows -/

section

variable {s : ConfigVarMap E L Th} {t : Th} {calls : List (Frame E L)} {m : Stepped E L Th} {var : ℕ} {v w : Variable E L Th}

theorem contents_put (s : ConfigVarMap E L Th) (var : ℕ) (v : Variable E L Th) :
    (s.put var v).contents = s.contents.set var v.toContent := List.map_set

/-- Only the mutex of the variable changes. -/
theorem contents_put_of_eq (hv : s.made[var]? = some v) (hsame : w.toContent = v.toContent) :
    (s.put var w).contents = s.contents := by
  obtain ⟨hlt, hat⟩ := List.getElem?_eq_some_iff.1 (contents_of_made hv)
  rw [contents_put, hsame, ← hat, List.set_getElem_self]

/-- What a step shows is expected of the variables before it, and makes them those after it. -/
structure Shown [DecidableEq τ] (s : ConfigVarMap E L Th) (m : Stepped E L Th) : Prop where
  contents : m.base.contents = m.event.toList.foldl extend s.contents
  registered : Registered m.base.contents m.base.s_datas
  expected : ∀ e ∈ m.event, Expected s.contents e

variable [DecidableEq τ]

theorem cast_find (hs : Registered s.contents s.s_datas) (type : τ) (name : String) :
    (s.find name).bind (s.cast type) = positionOf s.contents type name := by
  rw [find_eq_position hs, positionOf]
  cases position s.contents name with
  | none => rfl
  | some p =>
      simp only [Option.bind_some, cast, typeAt, Option.filter_some, contents, List.getElem?_map, Option.map_map,
        Function.comp_def, decide_eq_true_eq]
      rfl

/-- An answer is expected and changes nothing. -/
theorem answered_expected (hs : Registered s.contents s.s_datas) {e : Event E L} (h : Answered s e) :
    Expected s.contents e ∧ extend s.contents e = s.contents := by
  cases h with
  | @found type name default_value description p hfind =>
      have hmem : name ∈ s.contents.map Content.m_name := by
        by_contra hnot
        rw [(find_eq_none_iff hs name).2 hnot] at hfind
        cases hfind
      have hvalid : valid name = true := by
        obtain ⟨c, hc, rfl⟩ := List.mem_map.1 hmem
        exact hs.valid c hc
      have hcast := cast_find hs type name
      rw [hfind, Option.bind_some] at hcast
      refine ⟨?_, extend_eq_self ?_ fun _ _ => rfl⟩
      · rw [Expected, hvalid, Bool.not_true, if_neg Bool.false_ne_true, if_pos hmem, hcast]
      · rw [registers, if_neg fun h => h.2 hmem]
  | @invalid type name default_value description hfind hvalid =>
      refine ⟨?_, extend_eq_self ?_ fun _ _ => rfl⟩
      · rw [Expected, hvalid, Bool.not_false, if_pos rfl]
      · rw [registers, if_neg fun h => by simp [hvalid] at h]
  | LookupOnly type name => exact ⟨congrArg Answer.pointer (cast_find hs type name), extend_eq_self rfl fun _ _ => rfl⟩
  | LookupBase name => exact ⟨congrArg Answer.pointer (find_eq_position hs name), extend_eq_self rfl fun _ _ => rfl⟩
  | fromString var val result => exact ⟨trivial, extend_eq_self rfl fun _ _ => rfl⟩
  | @getListener var v key hv =>
      have hc := contents_of_made hv
      refine ⟨⟨v.toContent, hc, ?_⟩, extend_eq_self rfl fun _ _ => rfl⟩
      rw [found_eq (hs.keys _ (List.mem_of_getElem? hc))]

omit [DecidableEq τ] in
/-- What is written is what the event says. -/
theorem writes_after {c c' : Content E L} (hsorted : OrderedSet.Sorted (· < ·) Prod.fst c.m_cbs) {e : Event E L}
    (h : Writes var c e c') : c' = after var c e ∧ registers (L := L) s.contents e = [] ∧
      ∀ p c, p ≠ var → after p c e = c := by
  cases h with
  | assigned val =>
      refine ⟨?_, rfl, fun p c hp => ?_⟩
      · rw [after, if_pos rfl]
      · rw [after, if_neg (Ne.symm hp)]
  | removed key =>
      refine ⟨?_, rfl, fun p c hp => ?_⟩
      · rw [after, if_pos rfl, eraseIdx_findCb hsorted]
      · rw [after, if_neg (Ne.symm hp)]
  | cleared =>
      refine ⟨?_, rfl, fun p c hp => ?_⟩
      · rw [after, if_pos rfl]
      · rw [after, if_neg (Ne.symm hp)]

theorem Shown.silent (hs : Registered s.contents s.s_datas) {base : ConfigVarMap E L Th} (hcontents : base.contents = s.contents)
    (hdatas : base.s_datas = s.s_datas) : Shown s ⟨base, calls, none⟩ where
  contents := hcontents
  registered := by
    rw [hcontents, hdatas]
    exact hs
  expected := (by simp)

variable [DecidableEq Th]

theorem effect_shown (hs : Registered s.contents s.s_datas) (hfits : ∀ f ∈ calls, f.Fits s.contents s.Visit)
    (h : Effect s t calls m) : Shown s m := by
  cases h with
  | @quiet inner inner' calls event hinner hinner' hevent =>
      cases event with
      | none => exact .silent hs rfl rfl
      | some e =>
          obtain ⟨hexpected, hextend⟩ := answered_expected hs (hevent e rfl)
          exact ⟨hextend.symm, hs, by simpa using hexpected⟩
  | @made calls type name default_value description hfree hfind hvalid =>
      have hnew := (find_eq_none_iff hs name).1 hfind
      have hlength : s.contents.length = s.made.length := List.length_map ..
      have hcontents : contents { s with
          made := s.made ++ [ConfigVar type name default_value description]
          s_datas := OrderedSet.insert (· < ·) Prod.fst (name, s.made.length) s.s_datas } =
          s.contents ++ [fresh type name default_value description] := by
        rw [contents, List.map_append, List.map_singleton]
        simp only [ConfigVar, map_toLower_of_valid hvalid]
        rfl
      have hkept : (s.contents.mapIdx fun p c => after p c
          (.answered (.Lookup type name default_value description) (.pointer (some s.made.length)))) = s.contents :=
        List.ext_getElem? fun p => by simp [after]
      refine ⟨?_, ?_, ?_⟩
      · rw [hcontents]
        show _ = extend _ _
        rw [extend, hkept, registers, if_pos ⟨hvalid, hnew⟩]
      · rw [hcontents, ← hlength]
        exact hs.concat hnew hvalid default_value description
      · intro e he
        cases he
        rw [Expected, hvalid, Bool.not_true, if_neg Bool.false_ne_true, if_neg hnew, hlength]
  | visiting calls =>
      refine ⟨(extend_eq_self rfl fun _ _ => rfl).symm, hs, ?_⟩
      intro e he
      cases he
      exact ⟨s.Visit, rfl, hs.inOrder⟩
  | visited seen p rest calls => exact .silent hs rfl rfl
  | left seen rest calls => exact .silent hs rfl rfl
  | compared hv hfree hne => exact .silent hs (contents_put_of_eq hv rfl) rfl
  | @told var v val cb cbs calls hv =>
      refine ⟨(extend_eq_self rfl fun _ _ => rfl).symm, hs, ?_⟩
      intro e he
      cases he
      obtain ⟨c, hc, htype, hne, hsuffix⟩ := hfits _ List.mem_cons_self
      obtain rfl : v.toContent = c := Option.some.inj ((contents_of_made hv).symm.trans hc)
      exact ⟨v.toContent, hc, rfl, hne, htype, hsuffix.subset List.mem_cons_self⟩
  | @unlocked inner inner' var val v cbs calls event hv hinner hinner' hevent =>
      have hcontents : (s.put var { v with m_mutex := v.m_mutex.unlockRead t }).contents = s.contents := contents_put_of_eq hv rfl
      cases event with
      | none => exact .silent hs hcontents rfl
      | some e =>
          obtain ⟨hexpected, hextend⟩ := answered_expected hs (hevent e rfl)
          refine ⟨hcontents.trans hextend.symm, ?_, by simpa using hexpected⟩
          rw [hcontents]
          exact hs
  | @written inner var v c calls event hv hfree hinner hwrites hassigning =>
      have hc := contents_of_made hv
      have hkeys := hs.keys _ (List.mem_of_getElem? hc)
      have htyped : v.m_val.1 = v.type := hs.typed _ (List.mem_of_getElem? hc)
      obtain ⟨hafter, hregisters, hothers⟩ := writes_after (s := s) hkeys hwrites
      have hexpected : Expected s.contents event := by
        cases hwrites with
        | assigned val => exact hfits _ (List.mem_append_left _ (hassigning val rfl))
        | removed key | cleared => trivial
      refine ⟨?_, ?_, fun e he => Option.some.inj he ▸ hexpected⟩
      · rw [contents_put, hafter]
        exact (extend_eq_set hc hregisters hothers).symm
      · rw [contents_put]
        cases hwrites with
        | assigned val =>
            obtain ⟨c, hc', htype⟩ := hexpected
            obtain rfl : v.toContent = c := Option.some.inj (hc.symm.trans hc')
            exact hs.set hc rfl htype hkeys
        | removed key => exact hs.set hc rfl htyped (OrderedSet.sorted_eraseIdx hkeys _)
        | cleared => exact hs.set hc rfl htyped List.Pairwise.nil
  | locked cb calls hv hfree => exact .silent hs (contents_put_of_eq hv rfl) rfl
  | stored cb s_fun_id calls hv => exact .silent hs rfl rfl
  | @inserted var v cb calls hv =>
      have hc := contents_of_made hv
      have hkeys := hs.keys _ (List.mem_of_getElem? hc)
      have hafter : after var v.toContent (.added var (s.s_fun_id v.type) cb) =
          { v.toContent with m_cbs := putCb (s.s_fun_id v.type) cb v.m_cbs } := by
        rw [after, if_pos rfl, putCb_eq hkeys]
      refine ⟨?_, ?_, ?_⟩
      · rw [contents_put]
        refine (congrArg (s.contents.set var) hafter.symm).trans (extend_eq_set hc rfl fun p c hp => ?_).symm
        rw [after, if_neg (Ne.symm hp)]
      · rw [contents_put]
        have htyped : v.m_val.1 = v.type := hs.typed _ (List.mem_of_getElem? hc)
        refine hs.set hc rfl htyped ?_
        show OrderedSet.Sorted (· < ·) Prod.fst (putCb (s.s_fun_id v.type) cb v.m_cbs)
        rw [putCb_eq hkeys]
        exact OrderedSet.sorted_insert (hkeys.sublist List.filter_sublist)
      · intro e he
        cases he
        exact ⟨v.toContent, hc⟩
  | @given var v cb calls hv =>
      have hcontents : (s.put var { v with m_mutex := v.m_mutex.unlockWrite t }).contents = s.contents := contents_put_of_eq hv rfl
      refine ⟨hcontents.trans (extend_eq_self rfl fun _ _ => rfl).symm, ?_, ?_⟩
      · rw [hcontents]
        exact hs
      · intro e he
        cases he
        trivial

end

end Awcotn.ConfigVarMap
