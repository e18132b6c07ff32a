import Awcotn.Config.Decimal
import Awcotn.Config.Variable
import Mathlib.Data.Finset.Lattice.Lemmas

/-!
# Configuration values that survive their text

An element of a container is passed on as a node: its text is read, and the node is written when the container is converted back. What comes out is computed by `pass`, and a container comes back as it was if and only if each of its elements does. Only strings can change, since their text need not be one that the library writes.
-/

namespace Awcotn

namespace Mapping

variable {α : Type} [DecidableEq α]

theorem insert_entries_of_new {m : Mapping α} {e : String × α} (h : ∀ e' ∈ m.entries, e'.1 ≠ e.1) :
    (m.insert e).entries = Insert.insert e m.entries := by
  rw [insert, dif_pos h]

theorem insert_entries_subset (m : Mapping α) (e : String × α) : (m.insert e).entries ⊆ Insert.insert e m.entries := by
  rw [insert]
  split_ifs
  · exact Finset.Subset.refl _
  · exact Finset.subset_insert _ _

/-- Nothing is in a map but what was inserted. -/
theorem foldl_insert_subset (entries : List (String × α)) (m : Mapping α) :
    (entries.foldl insert m).entries ⊆ m.entries ∪ entries.toFinset := by
  induction entries generalizing m with
  | nil => simp
  | cons e entries ih =>
      intro a ha
      have hstep := ih (m.insert e) ha
      rw [Finset.mem_union] at hstep
      rcases hstep with hstep | hstep
      · have hin := insert_entries_subset m e hstep
        rw [Finset.mem_insert] at hin
        rcases hin with rfl | hin
        · simp
        · simp [hin]
      · rw [List.toFinset_cons, Finset.mem_union, Finset.mem_insert]
        exact .inr (.inr hstep)

/-- With distinct keys, everything that is inserted is in the map. -/
theorem foldl_insert_eq {entries : List (String × α)} (hnodup : (entries.map Prod.fst).Nodup) {m : Mapping α}
    (hnew : ∀ e ∈ entries, ∀ e' ∈ m.entries, e'.1 ≠ e.1) :
    (entries.foldl insert m).entries = m.entries ∪ entries.toFinset := by
  induction entries generalizing m with
  | nil => simp
  | cons e entries ih =>
      obtain ⟨hkey, hnodup⟩ := List.nodup_cons.1 hnodup
      have hstep := insert_entries_of_new (hnew e List.mem_cons_self)
      rw [List.foldl_cons, ih hnodup, hstep, List.toFinset_cons, Finset.insert_union, Finset.union_insert]
      intro d hd e' he'
      rw [hstep, Finset.mem_insert] at he'
      rcases he' with rfl | he'
      · intro heq
        exact hkey (List.mem_map.2 ⟨d, hd, heq.symm⟩)
      · exact hnew d (List.mem_cons_of_mem e hd) e' he'

theorem ofList_subset (entries : List (String × α)) : (ofList entries).entries ⊆ entries.toFinset := by
  have hsubset := foldl_insert_subset entries empty
  rwa [empty, Finset.empty_union] at hsubset

theorem ofList_entries {entries : List (String × α)} (hnodup : (entries.map Prod.fst).Nodup) :
    (ofList entries).entries = entries.toFinset := by
  have hentries := foldl_insert_eq hnodup (m := empty) (by simp [empty])
  rwa [empty, Finset.empty_union] at hentries

omit [DecidableEq α] in
theorem ext {m m' : Mapping α} (h : m.entries = m'.entries) : m = m' := by
  cases m
  cases m'
  simpa using h

end Mapping

namespace LexicalCast

open Yaml

variable (Y : Yaml) (B : Boost) (it : Iteration)

/-- What an element of a container becomes on the way to text and back. -/
def pass (t : Ty) (v : t.Val) : Option t.Val :=
  ((toString Y B it t v).bind Y.Load).bind fun n => ofString Y B t (Y.emit n)

/-- An entry of a map, passed on with its key. -/
def passEntry (t : Ty) (i : String × t.Val) : Option (String × t.Val) := (pass Y B it t i.2).map fun x => (i.1, x)

/-- Every string below is a text that the library writes. -/
def Emitted : (t : Ty) → t.Val → Prop
  | .int, _ => True
  | .string, v => ∃ n, Y.emit n = v
  | .vector t, (v : List t.Val) => ∀ i ∈ v, Emitted t i
  | .list t, (v : List t.Val) => ∀ i ∈ v, Emitted t i
  | .set t, (v : Finset t.Val) => ∀ i ∈ v, Emitted t i
  | .unordered_set t, (v : Finset t.Val) => ∀ i ∈ v, Emitted t i
  | .map t, (v : Mapping t.Val) => ∀ i ∈ v.entries, Emitted t i.2
  | .unordered_map t, (v : Mapping t.Val) => ∀ i ∈ v.entries, Emitted t i.2

variable {Y B it}

/-! ### Containers pass their elements on -/

section

variable {α : Type} (hY : Y.Lawful)

include hY

theorem items_of_sequence (g : String → Option α) (items : List Node) :
    sequenceItems Y g (Y.emit (.Sequence items)) = items.mapM fun n => g (Y.emit n) := by
  rw [sequenceItems, hY.load_emit]
  exact mapM_index Y (fun n => g (Y.print n)) items

theorem items_of_map (g : String → Option α) (entries : List (String × Node)) :
    mapItems Y g (Y.emit (.Map entries)) = entries.mapM fun e => (g (Y.emit e.2)).map fun x => (e.1, x) := by
  rw [mapItems, hY.load_emit]
  refine congrArg (fun f => entries.mapM f) (funext fun e => ?_)
  simp only [print]
  cases g (Y.emit e.2) <;> rfl

theorem sequence_pass {node : Node} (hnode : node = .Null ∨ node = .Sequence []) (f : α → Option String)
    (g : String → Option α) (v : List α) :
    (sequenceText Y node f v).bind (sequenceItems Y g) =
      v.mapM fun i => ((f i).bind Y.Load).bind fun n => g (Y.emit n) := by
  have hsequence : (sequenceText Y (.Sequence []) f v).bind (sequenceItems Y g) =
      v.mapM fun i => ((f i).bind Y.Load).bind fun n => g (Y.emit n) := by
    have hloop := mapM_bind_mapM (fun i => (f i).bind Y.Load) (fun n => g (Y.emit n)) v
    rw [← hloop, sequenceText, foldlM_push_back]
    cases (v.mapM fun i => (f i).bind Y.Load) with
    | none => rfl
    | some items => exact items_of_sequence hY g items
  rcases hnode with rfl | rfl
  · cases v with
    | nil => simp [sequenceText, sequenceItems, hY.load_emit, Node.size]
    | cons i v =>
        rw [← hsequence]
        rfl
  · exact hsequence

theorem map_pass (f : α → Option String) (g : String → Option α) {v : List (String × α)} (hnodup : (v.map Prod.fst).Nodup) :
    (mapText Y f v).bind (mapItems Y g) =
      v.mapM fun i => (((f i.2).bind Y.Load).bind fun n => g (Y.emit n)).map fun x => (i.1, x) := by
  have hloop := mapM_bind_mapM (fun i : String × α => ((f i.2).bind Y.Load).map fun n => (i.1, n))
    (fun e => (g (Y.emit e.2)).map fun x => (e.1, x)) v
  have hstep : ∀ i : String × α, ((((f i.2).bind Y.Load).map fun n => (i.1, n)).bind fun e =>
      (g (Y.emit e.2)).map fun x => (e.1, x)) =
        (((f i.2).bind Y.Load).bind fun n => g (Y.emit n)).map fun x => (i.1, x) := by
    intro i
    cases (f i.2).bind Y.Load <;> rfl
  simp only [hstep] at hloop
  rw [← hloop, mapText, foldlM_assign Prod.fst (fun i : String × α => (f i.2).bind Y.Load) (by simpa using hnodup)]
  cases (v.mapM fun i => ((f i.2).bind Y.Load).map fun n => (i.1, n)) with
  | none => rfl
  | some entries => exact items_of_map hY g entries

/-- The text of a container is written, so reading it and writing it again changes nothing. -/
theorem read_written {β : Type} (n : Option Node) (F : String → Option β) :
    (((n.map Y.emit).bind Y.Load).bind fun n => F (Y.emit n)) = (n.map Y.emit).bind F := by
  cases n with
  | none => rfl
  | some n => simp [hY.load_emit]

/-- So does reading a set or a map, which collects its elements at the end. -/
theorem read_collected {β γ : Type} (n : Option Node) (F : String → Option β) (collect : β → γ) :
    (((n.map Y.emit).bind Y.Load).bind fun n => (F (Y.emit n)).map collect) = ((n.map Y.emit).bind F).map collect :=
  (read_written hY n fun text => (F text).map collect).trans Option.map_bind.symm

omit hY in
theorem pass_string (v : String) : pass Y B it .string v = (Y.Load v).map Y.emit := by
  show (((some v).bind Y.Load).bind fun n => some (Y.emit n)) = (Y.Load v).map Y.emit
  cases hload : Y.Load v <;> simp [hload]

end

section

variable (hY : Y.Lawful) (t : Ty)

include hY

theorem pass_vector (v : List t.Val) : pass Y B it (.vector t) v = v.mapM (pass Y B it t) :=
  (read_written hY _ _).trans (sequence_pass hY (.inl rfl) _ _ v)

theorem pass_list (v : List t.Val) : pass Y B it (.list t) v = v.mapM (pass Y B it t) :=
  (read_written hY _ _).trans (sequence_pass hY (.inr rfl) _ _ v)

theorem pass_set (v : Finset t.Val) :
    pass Y B it (.set t) v = ((it.order (.set t) v).mapM (pass Y B it t)).map List.toFinset :=
  (read_collected hY _ _ _).trans (congrArg (Option.map List.toFinset) (sequence_pass hY (.inr rfl) _ _ _))

theorem pass_unordered_set (v : Finset t.Val) :
    pass Y B it (.unordered_set t) v = ((it.order (.unordered_set t) v).mapM (pass Y B it t)).map List.toFinset :=
  (read_collected hY _ _ _).trans (congrArg (Option.map List.toFinset) (sequence_pass hY (.inr rfl) _ _ _))

omit hY in
/-- The keys of a map are visited once each. -/
theorem nodup_keys (c : Ty) {α : Type} (m : Mapping α) : ((it.order c m.entries).map Prod.fst).Nodup := by
  refine (List.nodup_map_iff_inj_on (it.nodup c _)).2 fun e he e' he' h => ?_
  exact m.functional e ((it.mem_order c _ e).1 he) e' ((it.mem_order c _ e').1 he') h

theorem pass_map (v : Mapping t.Val) :
    pass Y B it (.map t) v = ((it.order (.map t) v.entries).mapM (passEntry Y B it t)).map Mapping.ofList :=
  (read_collected hY _ _ _).trans (congrArg (Option.map Mapping.ofList) (map_pass hY _ _ (nodup_keys _ v)))

theorem pass_unordered_map (v : Mapping t.Val) :
    pass Y B it (.unordered_map t) v =
      ((it.order (.unordered_map t) v.entries).mapM (passEntry Y B it t)).map Mapping.ofList :=
  (read_collected hY _ _ _).trans (congrArg (Option.map Mapping.ofList) (map_pass hY _ _ (nodup_keys _ v)))

end

/-! ### What can come out, and what comes out unchanged -/

section

variable {α : Type} [DecidableEq α] {p : α → Option α} {E : α → Prop}

omit [DecidableEq α] in
theorem forall_of_list {v w : List α} (h : v.mapM p = some w) (hp : ∀ x y, p x = some y → E y) : ∀ i ∈ w, E i := by
  intro i hi
  obtain ⟨x, -, hx⟩ := exists_of_mem_mapM h hi
  exact hp x i hx

theorem forall_of_set {v : List α} {w : Finset α} (h : (v.mapM p).map List.toFinset = some w)
    (hp : ∀ x y, p x = some y → E y) : ∀ i ∈ w, E i := by
  obtain ⟨ys, hys, rfl⟩ := Option.map_eq_some_iff.1 h
  intro i hi
  exact forall_of_list hys hp i (List.mem_toFinset.1 hi)

theorem forall_of_map {v : List (String × α)} {w : Mapping α}
    (h : (v.mapM fun i => (p i.2).map fun x => (i.1, x)).map Mapping.ofList = some w) (hp : ∀ x y, p x = some y → E y) :
    ∀ i ∈ w.entries, E i.2 := by
  obtain ⟨ys, hys, rfl⟩ := Option.map_eq_some_iff.1 h
  intro i hi
  obtain ⟨x, -, hx⟩ := exists_of_mem_mapM hys (List.mem_toFinset.1 (Mapping.ofList_subset ys hi))
  obtain ⟨y, hy, rfl⟩ := Option.map_eq_some_iff.1 hx
  exact hp x.2 y hy

theorem set_eq {v : List α} {s : Finset α} (hv : ∀ a, a ∈ v ↔ a ∈ s) (hp : ∀ i ∈ s, p i = some i) :
    (v.mapM p).map List.toFinset = some s := by
  rw [mapM_eq_self_iff.2 fun i hi => hp i ((hv i).1 hi), Option.map_some, Option.some_inj]
  ext a
  rw [List.mem_toFinset, hv]

theorem map_eq {v : List (String × α)} {m : Mapping α} (hnodup : (v.map Prod.fst).Nodup) (hv : ∀ e, e ∈ v ↔ e ∈ m.entries)
    (hp : ∀ i ∈ m.entries, p i.2 = some i.2) :
    (v.mapM fun i => (p i.2).map fun x => (i.1, x)).map Mapping.ofList = some m := by
  have hloop : (v.mapM fun i => (p i.2).map fun x => (i.1, x)) = some v := by
    apply mapM_eq_self_iff.2
    intro i hi
    rw [hp i ((hv i).1 hi), Option.map_some]
  rw [hloop, Option.map_some, Option.some_inj]
  apply Mapping.ext
  ext e
  rw [Mapping.ofList_entries hnodup, List.mem_toFinset, hv]

end

/-- What comes out of a container holds only texts that the library writes. -/
theorem emitted_of_pass (hY : Y.Lawful) (t : Ty) {v w : t.Val} (h : pass Y B it t v = some w) : Emitted Y t w := by
  induction t with
  | int => trivial
  | string =>
      obtain ⟨n, -, hn⟩ := Option.map_eq_some_iff.1 ((pass_string v).symm.trans h)
      exact ⟨n, hn⟩
  | vector t ih => exact forall_of_list ((pass_vector hY t v).symm.trans h) fun x y => ih
  | list t ih => exact forall_of_list ((pass_list hY t v).symm.trans h) fun x y => ih
  | set t ih => exact forall_of_set ((pass_set hY t v).symm.trans h) fun x y => ih
  | unordered_set t ih => exact forall_of_set ((pass_unordered_set hY t v).symm.trans h) fun x y => ih
  | map t ih => exact forall_of_map ((pass_map hY t v).symm.trans h) fun x y => ih
  | unordered_map t ih => exact forall_of_map ((pass_unordered_map hY t v).symm.trans h) fun x y => ih

theorem pass_int (hY : Y.Lawful) (hB : B.Lawful Y) (k : Int32) : pass Y B it .int k = some k := by
  have hload := hY.load_emit (.Scalar (B.toText k))
  rw [hB.emit_toText] at hload
  show (((some (B.toText k)).bind Y.Load).bind fun n => B.toInt (Y.emit n)) = some k
  simp [hload, hB.emit_toText, hB.toInt_toText]

theorem pass_of_emitted (hY : Y.Lawful) (hB : B.Lawful Y) (t : Ty) {v : t.Val} (h : Emitted Y t v) :
    pass Y B it t v = some v := by
  induction t with
  | int => exact pass_int hY hB v
  | string =>
      obtain ⟨n, rfl⟩ := h
      exact (pass_string (Y.emit n)).trans (congrArg (Option.map Y.emit) (hY.load_emit n))
  | vector t ih => exact (pass_vector hY t v).trans (mapM_eq_self_iff.2 fun i hi => ih (h i hi))
  | list t ih => exact (pass_list hY t v).trans (mapM_eq_self_iff.2 fun i hi => ih (h i hi))
  | set t ih => exact (pass_set hY t v).trans (set_eq (it.mem_order _ v) fun i hi => ih (h i hi))
  | unordered_set t ih => exact (pass_unordered_set hY t v).trans (set_eq (it.mem_order _ v) fun i hi => ih (h i hi))
  | map t ih => exact (pass_map hY t v).trans (map_eq (nodup_keys _ v) (it.mem_order _ _) fun i hi => ih (h i hi))
  | unordered_map t ih =>
      exact (pass_unordered_map hY t v).trans (map_eq (nodup_keys _ v) (it.mem_order _ _) fun i hi => ih (h i hi))

/-- A value that is not a string is converted to text that the library writes. -/
theorem pass_eq (hY : Y.Lawful) (hB : B.Lawful Y) {t : Ty} (ht : t ≠ .string) (v : t.Val) :
    pass Y B it t v = (toString Y B it t v).bind (ofString Y B t) := by
  cases t with
  | int => exact (pass_int hY hB v).trans (hB.toInt_toText v).symm
  | string => exact absurd rfl ht
  | vector t => exact read_written hY _ _
  | list t => exact read_written hY _ _
  | set t => exact read_written hY _ _
  | unordered_set t => exact read_written hY _ _
  | map t => exact read_written hY _ _
  | unordered_map t => exact read_written hY _ _

theorem cast_iff (hY : Y.Lawful) (hB : B.Lawful Y) (it : Iteration) (t : Ty) (v : t.Val) :
    (toString Y B it t v).bind (ofString Y B t) = some v ↔ t = .string ∨ Emitted Y t v := by
  by_cases ht : t = .string
  · subst ht
    exact ⟨fun _ => .inl rfl, fun _ => rfl⟩
  · rw [← pass_eq hY hB ht]
    refine ⟨fun h => .inr (emitted_of_pass hY t h), ?_⟩
    rintro (h | h)
    · exact absurd h ht
    · exact pass_of_emitted hY hB t h

end LexicalCast

/-! ### The variable -/

namespace ConfigVar

open Transition

variable {T L Th : Type*} [DecidableEq T] [DecidableEq L] [DecidableEq Th]

/-- `ConfigVar::toString`. Where the conversion throws, the result is the text `what` of the exception. -/
def toString (ToStr : T → Option String) (what : String) (v : ConfigVar T L Th) : String := (ToStr v.val).getD what

/-- A call of `fromString` with a text of the present value finds nothing to do. -/
theorem run_fromString_same {m_cbs : List L} {FromStr : String → Option T} {v : ConfigVar T L Th} {val : String}
    (h : FromStr val = some v.val) {t : Th} (hpc : v.pc t = .idle) (hread : t ∉ v.readers) :
    run (step m_cbs FromStr) v [.fromString t val, .run t, .run t] = .next v := by
  have hstart : step m_cbs FromStr v (.fromString t val) = .next (v.setPc t (.entering v.val)) := by
    simp [step, hpc, h]
  have hread' : step m_cbs FromStr (v.setPc t (.entering v.val)) (.run t) =
      .next ({ v with readers := insert t v.readers }.setPc t (.comparing v.val)) := by
    simp [step, advance, setPc]
  have hcompare : step m_cbs FromStr ({ v with readers := insert t v.readers }.setPc t (.comparing v.val)) (.run t) =
      .next v := by
    have hreaders : (insert t v.readers).erase t = v.readers := Finset.erase_insert hread
    have hpcs : Function.update v.pc t .idle = v.pc := by rw [← hpc, Function.update_eq_self]
    simp [step, advance, setPc, hreaders, hpcs]
  rw [run_cons_of_next _ hstart, run_cons_of_next _ hread', run_cons_of_next _ hcompare, run_nil]

end ConfigVar

namespace LexicalCast

open Transition

variable {Y : Yaml} {B : Boost}

/-- A value is converted to text and back without change exactly when every string inside a container is a text that the library writes; `fromString(toString())` then leaves the variable as it is. -/
theorem cast_back_iff (hY : Y.Lawful) (hB : B.Lawful Y) (it : Iteration) (t : Ty) (v : t.Val) :
    ((toString Y B it t v).bind (ofString Y B t) = some v ↔ t = .string ∨ Emitted Y t v) ∧
      (t = .string ∨ Emitted Y t v → ∀ {L Th : Type} [DecidableEq L] [DecidableEq Th] (m_cbs : List L) (what : String)
        (c : ConfigVar t.Val L Th) (th : Th), c.val = v → c.pc th = .idle → th ∉ c.readers →
          run (ConfigVar.step m_cbs (ofString Y B t)) c
            [.fromString th (c.toString (toString Y B it t) what), .run th, .run th] = .next c) := by
  refine ⟨cast_iff hY hB it t v, fun hv L Th _ _ m_cbs what c th hval hpc hread => ?_⟩
  subst hval
  obtain ⟨text, htext, hback⟩ := Option.bind_eq_some_iff.1 ((cast_iff hY hB it t c.val).2 hv)
  apply ConfigVar.run_fromString_same _ hpc hread
  rw [ConfigVar.toString, htext, Option.getD_some, hback]

/-- Sets and maps visited in the order of some list of their elements. -/
noncomputable def anyOrder : Iteration where
  order _ _ s := s.toList
  nodup _ _ s := s.nodup_toList
  mem_order _ _ _ _ := Finset.mem_toList

/-- Nested lists of words, one of them empty. -/
theorem cast_back_words :
    let t : Ty := .vector (.list .string)
    let v : t.Val := [["one", "two"], [], ["three"]]
    (toString Yaml.block Boost.decimal anyOrder t v).bind (ofString Yaml.block Boost.decimal t) = some v ∧
      run (ConfigVar.step [0] (ofString Yaml.block Boost.decimal t)) (ConfigVar.init v : ConfigVar t.Val ℕ ℕ)
        [.fromString 1 ((ConfigVar.init v : ConfigVar t.Val ℕ ℕ).toString (toString Yaml.block Boost.decimal anyOrder t) ""),
          .run 1, .run 1] = .next (ConfigVar.init v) := by
  intro t v
  have hwords : ∀ words ∈ [["one", "two"], [], ["three"]], ∀ word ∈ words, Yaml.block.emit (.Scalar word) = word := by decide
  have hwords : Emitted Yaml.block t v := fun words hin word hword => ⟨.Scalar word, hwords words hin word hword⟩
  have hback := cast_back_iff Yaml.block_lawful Boost.decimal_lawful anyOrder t v
  exact ⟨hback.1.2 (.inr hwords), hback.2 (.inr hwords) [0] "" (ConfigVar.init v) 1 rfl rfl (by decide)⟩

/-- An empty string in a container is read as the Null node. -/
theorem empty_string_changed :
    let t : Ty := .vector .string
    let v : t.Val := [""]
    Yaml.block.Lawful ∧ Boost.decimal.Lawful Yaml.block ∧
      (toString Yaml.block Boost.decimal anyOrder t v).bind (ofString Yaml.block Boost.decimal t) ≠ some v := by
  refine ⟨Yaml.block_lawful, Boost.decimal_lawful, ?_⟩
  have hback : (toString Yaml.block Boost.decimal anyOrder (.vector .string) [""]).bind
      (ofString Yaml.block Boost.decimal (.vector .string)) = some ["~"] := rfl
  rw [hback]
  intro hsame
  exact absurd (Option.some.inj hsame) (show (["~"] : List String) ≠ [""] by decide)

end LexicalCast

end Awcotn
