import Awcotn.Config.Directory

/-!
# Calls that overlap

`Visit` calls back and `setValue` calls its listeners while they hold a lock for reading, and other threads, or the callbacks themselves, make calls in the meantime. The locks are held by the calls in progress, which is `effect_accounted`, and keep the variables as those calls have seen them: `effect_fits` follows what a call in progress relies on through the steps of all threads.

`answers_agree` is what comes of it for the searches, and `variable_alone` for one variable.
-/

namespace Awcotn.ConfigVarMap

open Config Transition Holders

variable {τ : Type*} {E : τ → Type*} {L Th : Type*}

/-! ### Locks -/

section

variable {s : ConfigVarMap E L Th} {var : ℕ} {v w : Variable E L Th}

theorem holders_put (hv : s.made[var]? = some v) (w : Variable E L Th) : (s.put var w).holders =
    Function.update (Function.update s.holders (.read var) w.m_mutex.readers) (.write var) w.m_mutex.writers := by
  have hlt := (List.getElem?_eq_some_iff.1 hv).1
  funext l
  cases l with
  | map => rfl
  | read p | write p =>
      by_cases hp : p = var
      · subst hp
        simp [holders, put, hlt]
      · simp [holders, put, List.getElem?_set_ne (Ne.symm hp), hp]

theorem holders_read (hv : s.made[var]? = some v) : s.holders (.read var) = v.m_mutex.readers := by
  rw [holders, hv, Option.map_some, Option.getD_some]

theorem holders_write (hv : s.made[var]? = some v) : s.holders (.write var) = v.m_mutex.writers := by
  rw [holders, hv, Option.map_some, Option.getD_some]

theorem holders_put_of_eq (hv : s.made[var]? = some v) (hsame : w.m_mutex = v.m_mutex) : (s.put var w).holders = s.holders := by
  rw [holders_put hv, hsame, ← holders_read hv, ← holders_write hv, Function.update_eq_self, Function.update_eq_self]

theorem holders_put_readers (hv : s.made[var]? = some v) (hsame : w.m_mutex.writers = v.m_mutex.writers) :
    (s.put var w).holders = Function.update s.holders (.read var) w.m_mutex.readers := by
  rw [holders_put hv, hsame, ← holders_write hv, Function.update_eq_self_iff, Function.update_of_ne (by simp)]

theorem holders_put_writers (hv : s.made[var]? = some v) (hsame : w.m_mutex.readers = v.m_mutex.readers) :
    (s.put var w).holders = Function.update s.holders (.write var) w.m_mutex.writers := by
  rw [holders_put hv, hsame, ← holders_read hv, Function.update_eq_self]

theorem holders_rdlock (hv : s.made[var]? = some v) (t : Th) :
    (s.put var { v with m_mutex := v.m_mutex.rdlock t }).holders =
      Function.update s.holders (.read var) (t :: s.holders (.read var)) := by
  rw [holders_read hv]
  exact holders_put_readers hv rfl

theorem holders_wrlock (hv : s.made[var]? = some v) (t : Th) :
    (s.put var { v with m_mutex := v.m_mutex.wrlock t }).holders =
      Function.update s.holders (.write var) (t :: s.holders (.write var)) := by
  rw [holders_write hv]
  exact holders_put_writers hv rfl

theorem holders_unlockRead [DecidableEq Th] (hv : s.made[var]? = some v) (t : Th) :
    (s.put var { v with m_mutex := v.m_mutex.unlockRead t }).holders =
      Function.update s.holders (.read var) ((s.holders (.read var)).erase t) := by
  rw [holders_read hv]
  exact holders_put_readers hv rfl

theorem holders_unlockWrite [DecidableEq Th] (hv : s.made[var]? = some v) (t : Th) :
    (s.put var { v with m_mutex := v.m_mutex.unlockWrite t }).holders =
      Function.update s.holders (.write var) ((s.holders (.write var)).erase t) := by
  rw [holders_write hv]
  exact holders_put_writers hv rfl

theorem holders_s_mutex (s : ConfigVarMap E L Th) (threads : List Th) :
    holders { s with s_mutex := threads } = Function.update s.holders .map threads := by
  funext l
  cases l with
  | map => rfl
  | read p | write p => rw [Function.update_of_ne (by simp)]; rfl

theorem holders_made (s : ConfigVarMap E L Th) (type : τ) (name : String) (default_value : E type) (description : String)
    (s_datas : List (String × ℕ)) :
    holders { s with made := s.made ++ [ConfigVar type name default_value description], s_datas := s_datas } = s.holders := by
  have hget : ∀ (p : ℕ) (threads : Variable E L Th → List Th), threads (ConfigVar type name default_value description) = [] →
      ((s.made ++ [ConfigVar type name default_value description])[p]?.map threads).getD [] =
        (s.made[p]?.map threads).getD [] := by
    intro p threads hnone
    rcases Nat.lt_trichotomy p s.made.length with hlt | rfl | hgt
    · rw [List.getElem?_append_left hlt]
    · simp [hnone]
    · rw [List.getElem?_eq_none hgt.le, List.getElem?_eq_none (by rw [List.length_append, List.length_singleton]; exact hgt)]
  funext l
  cases l with
  | map => rfl
  | read p => exact hget p (fun v => v.m_mutex.readers) rfl
  | write p => exact hget p (fun v => v.m_mutex.writers) rfl

variable [DecidableEq τ] [DecidableEq Th] {t : Th} {calls : List (Frame E L)} {m : Stepped E L Th} {stack : Th → List (Frame E L)}

theorem effect_accounted (h : Accounted Frame.holds s.holders stack) (hcalls : stack t = calls) (heffect : Effect s t calls m) :
    Accounted Frame.holds m.base.holders (Function.update stack t m.calls) := by
  cases heffect with
  | @quiet inner inner' calls event hinner hinner' hevent =>
      refine h.quiet fun l => ?_
      rw [hcalls, among_append, among_append, among_eq_zero _ hinner, among_eq_zero _ fun f hf => (hinner' f hf).1]
  | @made calls type name default_value description hfree hfind hvalid =>
      rw [holders_made]
      exact h.quiet fun l => by rw [hcalls]
  | visiting calls =>
      rw [holders_s_mutex]
      exact h.acquire .map fun l => by simp [hcalls, Frame.holds]
  | visited seen p rest calls => exact h.quiet fun l => by simp [hcalls, Frame.holds]
  | left seen rest calls =>
      rw [holders_s_mutex]
      exact h.release .map fun l => by simp [hcalls, Frame.holds]
  | @compared var val v calls hv hfree hne =>
      rw [holders_rdlock hv]
      exact h.acquire (.read var) fun l => by simp [hcalls, Frame.holds]
  | told val cb cbs calls hv => exact h.quiet fun l => by simp [hcalls, Frame.holds]
  | @unlocked inner inner' var val v cbs calls event hv hinner hinner' hevent =>
      have hquiet : ∀ f ∈ inner', f.holds = none := by
        intro f hf
        rw [hinner' f hf]
        rfl
      rw [holders_unlockRead hv]
      refine h.release (.read var) fun l => ?_
      rw [hcalls, among_cons, among_append, among_append, among_eq_zero _ hinner, among_eq_zero _ hquiet]
      simp [Frame.holds]
  | @written inner var v c calls event hv hfree hinner hwrites hassigning =>
      have hholders : (s.put var { v with toContent := c }).holders = s.holders := holders_put_of_eq hv rfl
      rw [hholders]
      refine h.quiet fun l => ?_
      rw [hcalls, among_append, among_eq_zero _ hinner, Nat.zero_add]
  | @locked var v cb calls hv hfree =>
      rw [holders_wrlock hv]
      exact h.acquire (.write var) fun l => by simp [hcalls, Frame.holds]
  | stored cb s_fun_id calls hv => exact h.quiet fun l => by simp [hcalls, Frame.holds]
  | @inserted var v cb calls hv =>
      have hholders : (s.put var { v with m_cbs := putCb (s.s_fun_id v.type) cb v.m_cbs }).holders = s.holders :=
        holders_put_of_eq hv rfl
      rw [hholders]
      exact h.quiet fun l => by simp [hcalls, Frame.holds]
  | @given var v cb calls hv =>
      rw [holders_unlockWrite hv]
      exact h.release (.write var) fun l => by simp [hcalls, Frame.holds]

end

/-! ### What calls in progress rely on -/

section

variable {d d' : List (Content E L)} {vars vars' : List ℕ} {f : Frame E L}

theorem Frame.Fits.mono (h : f.Fits d vars) (hvars : f.holds = some .map → vars' = vars)
    (hd : ∀ (p : ℕ) (c : Content E L), d[p]? = some c →
      ∃ c', d'[p]? = some c' ∧ c'.type = c.type ∧ (f.holds = some (.read p) → c' = c)) :
    f.Fits d' vars' := by
  cases f with
  | Visit seen rest =>
      rw [hvars rfl]
      exact h
  | LoadFromYaml rest | fromString var val | catching var val => trivial
  | entering var val | assigning var val =>
      obtain ⟨c, hc, htype⟩ := h
      obtain ⟨c', hc', htype', -⟩ := hd var c hc
      exact ⟨c', hc', htype.trans htype'.symm⟩
  | notifying var val cbs =>
      obtain ⟨c, hc, hnotifying⟩ := h
      obtain ⟨c', hc', -, hsame⟩ := hd var c hc
      obtain rfl := hsame rfl
      exact ⟨c', hc', hnotifying⟩
  | addListener var cb pc =>
      obtain ⟨c, hc⟩ := h
      obtain ⟨c', hc', -⟩ := hd var c hc
      exact ⟨c', hc'⟩

/-- A variable that is made. -/
theorem Frame.Fits.concat (h : f.Fits d vars) (hvars : f.holds ≠ some .map) (c : Content E L) : f.Fits (d ++ [c]) vars' := by
  refine h.mono (fun hmap => absurd hmap hvars) fun p c' hc' => ⟨c', ?_, rfl, fun _ => rfl⟩
  rw [List.getElem?_append_left (List.getElem?_eq_some_iff.1 hc').1, hc']

/-- A variable that is written while nobody reads it. -/
theorem Frame.Fits.set (h : f.Fits d vars) {var : ℕ} {c c' : Content E L} (hc : d[var]? = some c) (htype : c'.type = c.type)
    (hread : f.holds ≠ some (.read var)) : f.Fits (d.set var c') vars := by
  refine h.mono (fun _ => rfl) fun p x hx => ?_
  by_cases hp : var = p
  · subst hp
    obtain rfl : c = x := Option.some.inj (hc.symm.trans hx)
    exact ⟨c', List.getElem?_set_self (List.getElem?_eq_some_iff.1 hc).1, htype, fun hholds => absurd hholds hread⟩
  · exact ⟨x, by rw [List.getElem?_set_ne hp, hx], rfl, fun _ => rfl⟩

end

/-- The map is a directory, all calls in progress can rely on what they have seen of it, and no variable is read and written at the same time. -/
structure Inv [DecidableEq τ] [DecidableEq Th] (s : State E L Th) : Prop where
  registered : Registered s.base.contents s.base.s_datas
  contents : s.base.contents = directory s.log
  legal : Legal s.log
  fits : ∀ t, ∀ f ∈ s.calls t, f.Fits s.base.contents s.base.Visit
  accounted : Accounted Frame.holds s.base.holders s.calls
  apart : ∀ var, s.base.holders (.read var) = [] ∨ s.base.holders (.write var) = []

theorem inv_start [DecidableEq τ] [DecidableEq Th] : Inv (start : State E L Th) where
  registered := registered_nil
  contents := rfl
  legal := by simp [start, Legal]
  fits := by simp [start]
  accounted := fun l t => by cases l <;> rfl
  apart _ := .inl rfl

section

variable [DecidableEq τ] [DecidableEq Th] {s : ConfigVarMap E L Th} {t : Th} {calls : List (Frame E L)} {m : Stepped E L Th}
  {stack : Th → List (Frame E L)}

theorem effect_apart (h : ∀ var, s.holders (.read var) = [] ∨ s.holders (.write var) = []) (heffect : Effect s t calls m)
    (var : ℕ) : m.base.holders (.read var) = [] ∨ m.base.holders (.write var) = [] := by
  have hupdate : ∀ (p : ℕ) (l : Lock) (threads : List Th), (l = .read p → threads = [] ∨ s.holders (.write p) = []) →
      (l = .write p → threads = [] ∨ s.holders (.read p) = []) →
      Function.update s.holders l threads (.read p) = [] ∨ Function.update s.holders l threads (.write p) = [] := by
    intro p l threads hread hwrite
    by_cases hr : l = .read p
    · subst hr
      simpa using hread rfl
    · by_cases hw : l = .write p
      · subst hw
        simpa [or_comm] using hwrite rfl
      · simpa [Function.update_of_ne (Ne.symm hr), Function.update_of_ne (Ne.symm hw)] using h p
  have herase : ∀ l, (l = .read var → (s.holders l).erase t = [] ∨ s.holders (.write var) = []) ∧
      (l = .write var → (s.holders l).erase t = [] ∨ s.holders (.read var) = []) := by
    intro l
    constructor
    · rintro rfl
      exact (h var).imp (fun hnil => by rw [hnil]; rfl) id
    · rintro rfl
      exact (h var).symm.imp (fun hnil => by rw [hnil]; rfl) id
  cases heffect with
  | quiet inner inner' hinner hinner' hevent => exact h var
  | made default_value description hfree hfind hvalid =>
      rw [holders_made]
      exact h var
  | visiting calls | left seen rest calls =>
      rw [holders_s_mutex]
      exact hupdate var _ _ (by simp) (by simp)
  | visited seen p rest calls => exact h var
  | @compared p val v calls hv hfree hne =>
      rw [holders_rdlock hv]
      refine hupdate var _ _ (fun heq => .inr ?_) (by simp)
      cases heq
      rw [holders_write hv, hfree]
  | told val cb cbs calls hv => exact h var
  | unlocked inner inner' hv hinner hinner' hevent =>
      rw [holders_unlockRead hv]
      exact hupdate var _ _ (herase _).1 (herase _).2
  | @written inner p v c calls event hv hfree hinner hwrites hassigning =>
      have hholders : (s.put p { v with toContent := c }).holders = s.holders := holders_put_of_eq hv rfl
      rw [hholders]
      exact h var
  | @locked p v cb calls hv hfree =>
      rw [holders_wrlock hv]
      refine hupdate var _ _ (by simp) fun heq => .inr ?_
      cases heq
      rw [holders_read hv, hfree.1]
  | stored cb s_fun_id calls hv => exact h var
  | @inserted p v cb calls hv =>
      have hholders : (s.put p { v with m_cbs := putCb (s.s_fun_id v.type) cb v.m_cbs }).holders = s.holders :=
        holders_put_of_eq hv rfl
      rw [hholders]
      exact h var
  | given cb calls hv =>
      rw [holders_unlockWrite hv]
      exact hupdate var _ _ (herase _).1 (herase _).2

theorem effect_fits (hacc : Accounted Frame.holds s.holders stack)
    (hapart : ∀ var, s.holders (.read var) = [] ∨ s.holders (.write var) = [])
    (hfits : ∀ u, ∀ f ∈ stack u, f.Fits s.contents s.Visit) (hcalls : stack t = calls) (heffect : Effect s t calls m) :
    ∀ u, ∀ f ∈ Function.update stack t m.calls u, f.Fits m.base.contents m.base.Visit := by
  have hmine : ∀ f ∈ calls, f.Fits s.contents s.Visit := fun f hf => hfits t f (hcalls ▸ hf)
  -- The calls that were in progress before, and those that are new.
  have hall : ∀ {d' : List (Content E L)} {vars' : List ℕ} {calls' : List (Frame E L)},
      (∀ u, ∀ f ∈ stack u, f.Fits d' vars') → (∀ f ∈ calls', f ∈ calls ∨ f.Fits d' vars') →
      ∀ u, ∀ f ∈ Function.update stack t calls' u, f.Fits d' vars' := by
    intro d' vars' calls' hold hnew u f hf
    by_cases hut : u = t
    · subst hut
      rw [Function.update_self] at hf
      rcases hnew f hf with hf | hf
      · exact hold u f (hcalls ▸ hf)
      · exact hf
    · rw [Function.update_of_ne hut] at hf
      exact hold u f hf
  cases heffect with
  | @quiet inner inner' calls event hinner hinner' hevent =>
      refine hall hfits fun f hf => ?_
      rcases List.mem_append.1 hf with hf | hf
      · exact .inr (hinner' f hf).2
      · exact .inl (List.mem_append_right _ hf)
  | @made calls type name default_value description hfree hfind hvalid =>
      have hcontents : ∀ s_datas, contents { s with
          made := s.made ++ [ConfigVar type name default_value description], s_datas := s_datas } =
          s.contents ++ [(ConfigVar type name default_value description : Variable E L Th).toContent] := by
        intro s_datas
        rw [contents, List.map_append, List.map_singleton]
        rfl
      rw [hcontents]
      have hfree : s.holders .map = [] := hfree
      exact hall (fun u f hf => (hfits u f hf).concat (hacc.free hfree hf) _) fun f hf => .inl hf
  | visiting calls =>
      refine hall hfits fun f hf => (List.mem_cons.1 hf).symm.imp id fun heq => ?_
      rw [heq]
      rfl
  | visited seen p rest calls =>
      have hseen : seen ++ p :: rest = s.Visit := hmine _ List.mem_cons_self
      refine hall hfits fun f hf => (List.mem_cons.1 hf).symm.imp (List.mem_cons_of_mem _) fun heq => ?_
      rw [heq]
      show seen ++ [p] ++ rest = s.Visit
      rw [List.append_assoc, List.singleton_append, hseen]
  | left seen rest calls => exact hall hfits fun f hf => .inl (List.mem_cons_of_mem _ hf)
  | @compared var val v calls hv hfree hne =>
      have hcontents : (s.put var { v with m_mutex := v.m_mutex.rdlock t }).contents = s.contents := contents_put_of_eq hv rfl
      obtain ⟨c, hc, htype⟩ := hmine _ List.mem_cons_self
      obtain rfl : v.toContent = c := Option.some.inj ((contents_of_made hv).symm.trans hc)
      rw [hcontents]
      refine hall hfits fun f hf => (List.mem_cons.1 hf).symm.imp (List.mem_cons_of_mem _) fun heq => ?_
      rw [heq]
      exact ⟨v.toContent, hc, htype, hne, List.suffix_refl _⟩
  | @told var v val cb cbs calls hv =>
      obtain ⟨c, hc, htype, hne, hsuffix⟩ := hmine _ List.mem_cons_self
      refine hall hfits fun f hf => (List.mem_cons.1 hf).symm.imp (List.mem_cons_of_mem _) fun heq => ?_
      rw [heq]
      exact ⟨c, hc, htype, hne, (List.suffix_cons cb cbs).trans hsuffix⟩
  | @unlocked inner inner' var val v cbs calls event hv hinner hinner' hevent =>
      have hcontents : (s.put var { v with m_mutex := v.m_mutex.unlockRead t }).contents = s.contents := contents_put_of_eq hv rfl
      obtain ⟨c, hc, htype, -⟩ := hmine _ List.mem_cons_self
      rw [hcontents]
      refine hall hfits fun f hf => (List.mem_append.1 hf).symm.imp ?_ fun hf => ?_
      · exact fun hf => List.mem_cons_of_mem _ (List.mem_append_right _ hf)
      · rw [hinner' f hf]
        exact ⟨c, hc, htype⟩
  | @written inner var v c calls event hv hfree hinner hwrites hassigning =>
      have htype : c.type = v.type := by cases hwrites <;> rfl
      have hfree : s.holders (.read var) = [] := by rw [holders_read hv, hfree.1]
      rw [contents_put]
      refine hall (fun u f hf => (hfits u f hf).set (contents_of_made hv) htype (hacc.free hfree hf)) fun f hf => ?_
      exact .inl (List.mem_append_right _ hf)
  | @locked var v cb calls hv hfree =>
      have hcontents : (s.put var { v with m_mutex := v.m_mutex.wrlock t }).contents = s.contents := contents_put_of_eq hv rfl
      rw [hcontents]
      refine hall hfits fun f hf => (List.mem_cons.1 hf).symm.imp (List.mem_cons_of_mem _) fun heq => ?_
      rw [heq]
      exact ⟨v.toContent, contents_of_made hv⟩
  | @stored var v cb s_fun_id calls hv =>
      refine hall hfits fun f hf => (List.mem_cons.1 hf).symm.imp (List.mem_cons_of_mem _) fun heq => ?_
      rw [heq]
      exact ⟨v.toContent, contents_of_made hv⟩
  | @inserted var v cb calls hv =>
      have hmem : t ∈ s.holders (.write var) := hacc.mem (hcalls ▸ List.mem_cons_self) rfl
      have hfree : s.holders (.read var) = [] := by
        rcases hapart var with hfree | hfree
        · exact hfree
        · rw [hfree] at hmem
          exact absurd hmem List.not_mem_nil
      have hold : ∀ u, ∀ f ∈ stack u,
          f.Fits (s.contents.set var { v.toContent with m_cbs := putCb (s.s_fun_id v.type) cb v.m_cbs }) s.Visit := fun u f hf => (hfits u f hf).set (contents_of_made hv) rfl (hacc.free hfree hf)
      rw [contents_put]
      refine hall hold fun f hf => (List.mem_cons.1 hf).symm.imp (List.mem_cons_of_mem _) fun heq => ?_
      rw [heq]
      exact ⟨_, List.getElem?_set_self (List.getElem?_eq_some_iff.1 (contents_of_made hv)).1⟩
  | @given var v cb calls hv =>
      have hcontents : (s.put var { v with m_mutex := v.m_mutex.unlockWrite t }).contents = s.contents := contents_put_of_eq hv rfl
      rw [hcontents]
      exact hall hfits fun f hf => .inl (List.mem_cons_of_mem _ hf)

end

/-! ### Runs -/

section

variable [DecidableEq τ] [∀ type, DecidableEq (E type)] [DecidableEq Th] {FromStr : ∀ type, String → Option (E type)} {Y : Yaml}

theorem step_inv {s s' : State E L Th} (hs : Inv s) {a : Action E L Th} (h : step FromStr Y s a = .next s') : Inv s' := by
  obtain ⟨m, heffect, rfl⟩ := step_effect h
  have hshown := effect_shown hs.registered (hs.fits _) heffect
  refine ⟨hshown.registered, ?_, ?_, effect_fits hs.accounted hs.apart hs.fits rfl heffect,
    effect_accounted hs.accounted rfl heffect, effect_apart hs.apart heffect⟩
  · show m.base.contents = directory (s.log ++ m.event.toList)
    rw [hshown.contents, directory, List.foldl_append, hs.contents]
    rfl
  · show Legal (s.log ++ m.event.toList)
    cases hevent : m.event with
    | none => simpa using hs.legal
    | some e => exact legal_concat hs.legal (hs.contents ▸ hshown.expected e hevent)

theorem run_inv (FromStr : ∀ type, String → Option (E type)) (Y : Yaml) (acts : List (Action E L Th)) :
    Throughout (step FromStr Y) Inv (start : State E L Th) acts := by
  have hstep : ∀ (s : State E L Th) a s', Inv s → step FromStr Y s a = .next s' → Inv s' := fun _ _ _ hs h => step_inv hs h
  exact throughout_of_step hstep inv_start acts

/-- For all threads, in whatever order their calls and those of their callbacks take place: each event shows what is expected of the names, values and listeners before it, a name is registered once, and while `Visit` calls back, what it has seen and has still to see are the variables, in the order of their names. -/
theorem answers_agree (FromStr : ∀ type, String → Option (E type)) (Y : Yaml) (acts : List (Action E L Th)) :
    Throughout (step FromStr Y) (fun s =>
      ((directory s.log).map Content.m_name).Nodup ∧
        (∀ i e, s.log[i]? = some e → Expected (directory (s.log.take i)) e) ∧
        ∀ t seen rest, .Visit seen rest ∈ s.calls t → InOrder (directory s.log) (seen ++ rest))
      (start : State E L Th) acts := by
  refine (run_inv FromStr Y acts).mono fun s hs => ⟨?_, hs.legal, fun t seen rest hmem => ?_⟩
  · rw [← hs.contents]
    exact hs.registered.nodup
  · have hseen : seen ++ rest = s.base.Visit := hs.fits t _ hmem
    rw [hseen, ← hs.contents]
    exact hs.registered.inOrder

omit [DecidableEq τ] [∀ type, DecidableEq (E type)] [DecidableEq Th] in
/-- A variable goes back to the first `Lookup` of its name. -/
theorem origin_of_directory {log : List (Event E L)} {p : ℕ} {c : Content E L} (hc : (directory log)[p]? = some c) :
    ∃ i type name default_value description answer,
      log[i]? = some (.answered (.Lookup type name default_value description) answer) ∧ valid name = true ∧
        name ∉ (directory (log.take i)).map Content.m_name ∧ (directory (log.take i)).length = p ∧
        c = (log.drop (i + 1)).foldl (after p) (fresh type name default_value description) := by
  induction log using List.reverseRecOn generalizing c with
  | nil => simp [directory] at hc
  | append_singleton log e ih =>
      rw [directory_concat] at hc
      rcases Nat.lt_or_ge p (directory log).length with hlt | hge
      · rw [getElem?_extend hlt] at hc
        obtain ⟨b, hb, rfl⟩ := Option.map_eq_some_iff.1 hc
        obtain ⟨i, type, name, default_value, description, answer, hget, hvalid, hnew, hposition, rfl⟩ := ih hb
        have hi : i < log.length := (List.getElem?_eq_some_iff.1 hget).1
        have htake : (log ++ [e]).take i = log.take i := List.take_append_of_le_length hi.le
        refine ⟨i, type, name, default_value, description, answer, ?_, hvalid, htake ▸ hnew, htake ▸ hposition, ?_⟩
        · rw [List.getElem?_append_left hi, hget]
        · rw [List.drop_append_of_le_length hi, List.foldl_append]
          rfl
      · rw [extend, List.getElem?_append_right (by simpa using hge)] at hc
        have hmem := List.mem_of_getElem? hc
        obtain ⟨type, name, default_value, description, answer, rfl⟩ : ∃ type name default_value description answer,
            e = .answered (.Lookup type name default_value description) answer := by
          cases e with
          | answered call answer =>
              cases call with
              | Lookup type name default_value description => exact ⟨type, name, default_value, description, answer, rfl⟩
              | LookupOnly type name | LookupBase name | Visit | LoadFromYaml root | setValue var val | fromString var val
              | addListener var cb | delListerer var key | getListener var key | clearListener var => cases hmem
          | told var cb old_value new_value | assigned var val | added var key cb => cases hmem
        simp only [registers] at hc
        split_ifs at hc with hregisters
        · have hp : p - (directory log).length = 0 := by
            have := (List.getElem?_eq_some_iff.1 hc).1
            simp at this
            omega
          rw [List.length_mapIdx, hp] at hc
          obtain rfl : fresh type name default_value description = c := by simpa using hc
          refine ⟨log.length, type, name, default_value, description, answer, List.getElem?_concat_length, hregisters.1,
            ?_, ?_, ?_⟩
          · rw [List.take_left]
            exact hregisters.2
          · rw [List.take_left]
            omega
          · rw [List.drop_eq_nil_of_le (by simp)]
            rfl
        · simp at hc

/-- For all threads, in whatever order their calls and those of their callbacks take place: a variable is what the sections of the calls on it have left of the default value of the first `Lookup` of its name, in order. While a call has its listeners called, they are the last of those that stand, and another value stands than the one that it passes. -/
theorem variable_alone (FromStr : ∀ type, String → Option (E type)) (Y : Yaml) (acts : List (Action E L Th)) :
    Throughout (step FromStr Y) (fun s => ∀ p v, s.base.made[p]? = some v →
      (∃ i type name default_value description,
        s.log[i]? = some (.answered (.Lookup type name default_value description) (.pointer (some p))) ∧
          name ∉ (directory (s.log.take i)).map Content.m_name ∧
          v.toContent = (s.log.drop (i + 1)).foldl (after p) (fresh type name default_value description)) ∧
        ∀ t val cbs, .notifying p val cbs ∈ s.calls t →
          val.1 = v.type ∧ val ≠ v.m_val ∧ cbs <:+ v.m_cbs.map Prod.snd)
      (start : State E L Th) acts := by
  refine (run_inv FromStr Y acts).mono fun s hs p v hv => ⟨?_, fun t val cbs hmem => ?_⟩
  · have hc := contents_of_made hv
    rw [hs.contents] at hc
    obtain ⟨i, type, name, default_value, description, answer, hget, hvalid, hnew, hposition, heq⟩ := origin_of_directory hc
    have hanswer := hs.legal i _ hget
    rw [Expected, hvalid, Bool.not_true, if_neg Bool.false_ne_true, if_neg hnew, hposition] at hanswer
    exact ⟨i, type, name, default_value, description, hanswer ▸ hget, hnew, heq⟩
  · obtain ⟨c, hc, hnotifying⟩ := hs.fits t _ hmem
    obtain rfl : v.toContent = c := Option.some.inj ((contents_of_made hv).symm.trans hc)
    exact hnotifying

end

end Awcotn.ConfigVarMap
