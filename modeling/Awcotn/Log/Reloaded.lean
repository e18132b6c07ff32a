import Awcotn.Log.Reload
import Mathlib.Data.List.Nodup

/-!
# What a reload comes to

Each operation of the listener works on one logger and on the appenders attached to it. `Moves` is what an operation on some names keeps of all others; the listener is taken apart along it, and what is left is which loggers it reaches.
-/

namespace Awcotn

open Transition

namespace LoggerManager

/-- Appenders belong to one logger each and have been created, and a logger that nobody asked for is as it would be constructed. -/
structure Owned (m : LoggerManager) : Prop where
  fresh : ∀ name, ∀ ap ∈ (m.objects.logger name).appenders, ap < m.fresh
  one : ∀ name name' ap, ap ∈ (m.objects.logger name).appenders → ap ∈ (m.objects.logger name').appenders → name = name'
  new : ∀ name, name ∉ m.names → m.objects.logger name = newLogger

/-- From `m` to `m'` only loggers with names in `S` change, and no logger is forgotten. -/
structure Moves (S : String → Prop) (m m' : LoggerManager) : Prop where
  owned : m'.Owned
  more : ∀ name ∈ m.names, name ∈ m'.names
  names : ∀ name, ¬ S name → name ∈ m'.names → name ∈ m.names
  logger : ∀ name, ¬ S name → m'.objects.logger name = m.objects.logger name
  appender : ∀ name, ¬ S name → ∀ ap ∈ (m.objects.logger name).appenders, m'.objects.appender ap = m.objects.appender ap

variable {S : String → Prop} {m m' m'' : LoggerManager} {d : LogDefine}

theorem Moves.refl (h : m.Owned) : Moves S m m :=
  ⟨h, fun _ hname => hname, fun _ _ hname => hname, fun _ _ => rfl, fun _ _ _ _ => rfl⟩

theorem Moves.trans (h : Moves S m m') (h' : Moves S m' m'') : Moves S m m'' where
  owned := h'.owned
  more name hname := h'.more name (h.more name hname)
  names name hS hname := h.names name hS (h'.names name hS hname)
  logger name hS := (h'.logger name hS).trans (h.logger name hS)
  appender name hS ap hap := by
    have hap' : ap ∈ (m'.objects.logger name).appenders := h.logger name hS ▸ hap
    exact (h'.appender name hS ap hap').trans (h.appender name hS ap hap)

theorem Moves.mono {S' : String → Prop} (hS : ∀ name, S name → S' name) (h : Moves S m m') : Moves S' m m' where
  owned := h.owned
  more := h.more
  names name hname := h.names name fun hs => hname (hS name hs)
  logger name hname := h.logger name fun hs => hname (hS name hs)
  appender name hname := h.appender name fun hs => hname (hS name hs)

/-- What is shown of a logger that was not reached. -/
theorem Moves.configured (h : Moves S m m') {d : LogDefine} (hS : ¬ S d.name) (hd : m.Configured d) : m'.Configured d where
  exists_ := h.more _ hd.exists_
  level := by rw [h.logger _ hS, hd.level]
  formatter := by rw [h.logger _ hS, hd.formatter]
  appenders := by
    rw [← hd.appenders, shownAppenders, shownAppenders, h.logger _ hS]
    exact List.map_congr_left fun ap hap => congrArg shown (h.appender _ hS ap hap)

theorem Moves.disabled (h : Moves S m m') {name : String} (hS : ¬ S name) (hd : m.Disabled name) : m'.Disabled name where
  level := by rw [h.logger _ hS, hd.level]
  appenders := by rw [h.logger _ hS, hd.appenders]

theorem init_owned : init.Owned where
  fresh name ap hap := by
    by_cases hroot : name = "root"
    · simp [init, Logging.addAppender, newLogger, Logger.new, hroot] at hap ⊢
      omega
    · simp [init, Logging.addAppender, newLogger, Logger.new, hroot] at hap
  one name name' ap hap hap' := by
    by_cases hroot : name = "root" <;> by_cases hroot' : name' = "root"
    · exact hroot.trans hroot'.symm
    · simp [init, Logging.addAppender, newLogger, Logger.new, hroot'] at hap'
    · simp [init, Logging.addAppender, newLogger, Logger.new, hroot] at hap
    · simp [init, Logging.addAppender, newLogger, Logger.new, hroot] at hap
  new name hname := by
    have hroot : name ≠ "root" := by simpa [init] using hname
    simp [init, Logging.addAppender, hroot]

/-! ### Operations on one logger -/

theorem getLogger_objects (h : m.Owned) (name : String) : (m.getLogger name).objects = m.objects := by
  unfold getLogger
  split_ifs with hin
  · rfl
  · simp [← h.new name hin]

theorem mem_getLogger (m : LoggerManager) (name : String) : name ∈ (m.getLogger name).names := by
  unfold getLogger
  split_ifs with hin
  · exact hin
  · exact List.mem_cons_self

theorem getLogger_moves (h : m.Owned) (name : String) : Moves (· = name) m (m.getLogger name) := by
  have hobjects := getLogger_objects h name
  have hfresh : (m.getLogger name).fresh = m.fresh := by
    unfold getLogger
    split_ifs <;> rfl
  have hnames : ∀ k, k ∈ (m.getLogger name).names ↔ k = name ∨ k ∈ m.names := by
    intro k
    unfold getLogger
    split_ifs with hin
    · constructor
      · exact .inr
      · rintro (rfl | hk)
        · exact hin
        · exact hk
    · exact List.mem_cons
  refine ⟨⟨?_, ?_, ?_⟩, fun k hk => (hnames k).2 (.inr hk), fun k hS hk => ((hnames k).1 hk).resolve_left hS,
    fun k _ => by rw [hobjects], fun k _ ap _ => by rw [hobjects]⟩
  · rw [hobjects, hfresh]
    exact h.fresh
  · rw [hobjects]
    exact h.one
  · intro k hk
    rw [hobjects]
    exact h.new k fun hin => hk ((hnames k).2 (.inr hin))

/-- An operation on the objects that stays with one logger and attaches nothing to it. -/
theorem on_moves (h : m.Owned) {name : String} (hname : name ∈ m.names)
    {f : Logging String ℕ LogFormatter → Logging String ℕ LogFormatter}
    (hlogger : ∀ k, k ≠ name → (f m.objects).logger k = m.objects.logger k)
    (hfewer : ∀ ap ∈ ((f m.objects).logger name).appenders, ap ∈ (m.objects.logger name).appenders)
    (happender : ∀ ap, ap ∉ (m.objects.logger name).appenders → (f m.objects).appender ap = m.objects.appender ap) :
    Moves (· = name) m (m.on f) := by
  have hsub : ∀ k, ∀ ap ∈ ((f m.objects).logger k).appenders, ap ∈ (m.objects.logger k).appenders := by
    intro k ap hap
    by_cases hk : k = name
    · subst hk
      exact hfewer ap hap
    · rwa [hlogger k hk] at hap
  refine ⟨⟨fun k ap hap => h.fresh k ap (hsub k ap hap), fun k k' ap hap hap' => h.one k k' ap (hsub k ap hap) (hsub k' ap hap'),
    fun k hk => ?_⟩, fun _ hk => hk, fun _ _ hk => hk, fun k hk => hlogger k hk, fun k hk ap hap => happender ap fun hin => ?_⟩
  · exact (hlogger k fun heq => hk (heq ▸ hname)).trans (h.new k hk)
  · exact hk (h.one k name ap hap hin)

theorem setLevel_moves (h : m.Owned) {name : String} (hname : name ∈ m.names) (level : ℕ) :
    Moves (· = name) m (m.on fun s => s.setLevel name level) :=
  on_moves h hname (fun k hk => by simp [Logging.setLevel, hk]) (fun ap hap => by simpa [Logging.setLevel] using hap)
    fun _ _ => rfl

theorem clearAppenders_moves (h : m.Owned) {name : String} (hname : name ∈ m.names) :
    Moves (· = name) m (m.on fun s => s.clearAppenders name) :=
  on_moves h hname (fun k hk => by simp [Logging.clearAppenders, hk]) (fun ap hap => by simp [Logging.clearAppenders] at hap)
    fun _ _ => rfl

theorem setFormatter_moves (h : m.Owned) {name : String} (hname : name ∈ m.names) (val : LogFormatter) :
    Moves (· = name) m (m.on fun s => s.setFormatter name (some val)) :=
  on_moves h hname (fun k hk => by simp [Logging.setFormatter, hk]) (fun ap hap => by simpa [Logging.setFormatter] using hap)
    fun ap hap => by simp [Logging.setFormatter, Logging.inherit_apply, hap]

theorem remove_moves (h : m.Owned) (name : String) : Moves (· = name) m (m.remove name) := by
  have hget := getLogger_moves h name
  have hlevel := setLevel_moves hget.owned (mem_getLogger m name) 100
  exact (hget.trans hlevel).trans (clearAppenders_moves hlevel.owned (mem_getLogger m name))

theorem remove_disabled (m : LoggerManager) (name : String) : (m.remove name).Disabled name where
  level := by simp [remove, on, Logging.setLevel, Logging.clearAppenders]
  appenders := by simp [remove, on, Logging.setLevel, Logging.clearAppenders]

/-! ### Configuring a logger -/

/-- A new appender at the next address, attached to one logger. -/
def attached (m : LoggerManager) (name : String) (x : LogAppender LogFormatter) : LoggerManager where
  names := m.names
  objects :=
    { logger := Function.update m.objects.logger name
        { m.objects.logger name with appenders := (m.objects.logger name).appenders ++ [m.fresh] }
      appender := Function.update m.objects.appender m.fresh x }
  fresh := m.fresh + 1

theorem addDefined_eq (m : LoggerManager) (name : String) {a : LogAppenderDefine} (htype : a.type = 1 ∨ a.type = 2)
    (hformatter : ValidFormatter a.formatter) :
    ∃ x, addDefined name m a = some (m.attached name x) ∧ shown x = asked a := by
  obtain ⟨k, hk, hasked⟩ : ∃ k, kind a = some k ∧ k = if a.type = 1 then AppenderKind.file a.file else .stdout := by
    rcases htype with htype | htype <;> simp [kind, htype]
  by_cases hempty : a.formatter = ""
  · refine ⟨⟨k, a.level, false, (m.objects.logger name).formatter⟩, ?_, ?_⟩
    · simp [addDefined, hk, hempty, create, on, Logging.setAppenderLevel, Logging.addAppender, attached, LogAppender.new]
    · simp [shown, asked, hempty, hasked]
  · have hvalid : (LogFormatter.mk a.formatter).isError = false := hformatter.resolve_left hempty
    refine ⟨⟨k, a.level, true, some ⟨a.formatter⟩⟩, ?_, ?_⟩
    · simp [addDefined, hk, hempty, hvalid, create, on, Logging.setAppenderLevel, Logging.setAppenderFormatter,
        Logging.addAppender, attached, LogAppender.new]
    · simp [shown, asked, hempty, hasked]

theorem attached_moves (h : m.Owned) {name : String} (hname : name ∈ m.names) (x : LogAppender LogFormatter) :
    Moves (· = name) m (m.attached name x) := by
  have hother : ∀ k, k ≠ name → (m.attached name x).objects.logger k = m.objects.logger k := fun k hk => by
    simp [attached, hk]
  have hself : ∀ ap, ap ∈ ((m.attached name x).objects.logger name).appenders ↔
      ap ∈ (m.objects.logger name).appenders ∨ ap = m.fresh := by simp [attached]
  have hold : ∀ k, ∀ ap ∈ ((m.attached name x).objects.logger k).appenders,
      ap ∈ (m.objects.logger k).appenders ∨ k = name ∧ ap = m.fresh := by
    intro k ap hap
    by_cases hk : k = name
    · subst hk
      exact ((hself ap).1 hap).imp_right fun heq => ⟨rfl, heq⟩
    · exact .inl (hother k hk ▸ hap)
  have hlt : ∀ k, m.fresh ∉ (m.objects.logger k).appenders := fun k hin => lt_irrefl _ (h.fresh k _ hin)
  refine ⟨⟨fun k ap hap => ?_, fun k k' ap hap hap' => ?_, fun k hk => ?_⟩, fun _ hk => hk, fun _ _ hk => hk, hother,
    fun k _ ap hap => ?_⟩
  · rcases hold k ap hap with hin | ⟨-, rfl⟩
    · exact (h.fresh k ap hin).trans (Nat.lt_succ_self _)
    · exact Nat.lt_succ_self _
  · rcases hold k ap hap with hin | ⟨hk, hnew⟩ <;> rcases hold k' ap hap' with hin' | ⟨hk', hnew'⟩
    · exact h.one k k' ap hin hin'
    · exact absurd (hnew' ▸ hin) (hlt k)
    · exact absurd (hnew ▸ hin') (hlt k')
    · exact hk.trans hk'.symm
  · exact (hother k fun heq => hk (heq ▸ hname)).trans (h.new k hk)
  · have hne : ap ≠ m.fresh := fun heq => hlt k (heq ▸ hap)
    exact Function.update_of_ne hne _ _

theorem attached_shown (h : m.Owned) (name : String) (x : LogAppender LogFormatter) :
    (m.attached name x).shownAppenders name = m.shownAppenders name ++ [shown x] := by
  have hkept : ∀ ap ∈ (m.objects.logger name).appenders, Function.update m.objects.appender m.fresh x ap = m.objects.appender ap :=
    fun ap hap => Function.update_of_ne (Nat.ne_of_lt (h.fresh name ap hap)) _ _
  simp only [shownAppenders, attached, Function.update_self, List.map_append, List.map_cons, List.map_nil]
  rw [List.map_congr_left fun ap hap => congrArg shown (hkept ap hap)]

/-- The loop over the appender definitions. -/
theorem addDefined_all (h : m.Owned) {name : String} (hname : name ∈ m.names) {appenders : List LogAppenderDefine}
    (htype : ∀ a ∈ appenders, a.type = 1 ∨ a.type = 2) (hformatter : ∀ a ∈ appenders, ValidFormatter a.formatter) :
    ∃ m', appenders.foldlM (addDefined name) m = some m' ∧ Moves (· = name) m m' ∧
      (m'.objects.logger name).level = (m.objects.logger name).level ∧
      (m'.objects.logger name).formatter = (m.objects.logger name).formatter ∧
      m'.shownAppenders name = m.shownAppenders name ++ appenders.map asked := by
  induction appenders generalizing m with
  | nil => exact ⟨m, rfl, .refl h, rfl, rfl, by simp⟩
  | cons a appenders ih =>
      obtain ⟨x, hadd, hshown⟩ := addDefined_eq m name (htype a List.mem_cons_self) (hformatter a List.mem_cons_self)
      have hmoves := attached_moves h hname x
      obtain ⟨m', hrest, hmoves', hlevel, hformatter', happenders⟩ := ih hmoves.owned (hmoves.more name hname)
        (fun b hb => htype b (List.mem_cons_of_mem _ hb)) fun b hb => hformatter b (List.mem_cons_of_mem _ hb)
      refine ⟨m', by simp [List.foldlM_cons, hadd, hrest], hmoves.trans hmoves', ?_, ?_, ?_⟩
      · rw [hlevel]
        simp [attached]
      · rw [hformatter']
        simp [attached]
      · rw [happenders, attached_shown h, hshown, List.map_cons, List.append_assoc, List.singleton_append]

/-- What a definition makes of its logger. Without a formatter in the definition the logger keeps the one it has. -/
theorem configure_eq (h : m.Owned) {d : LogDefine} (hd : d.Valid) :
    ∃ m', m.configure d = some m' ∧ Moves (· = d.name) m m' ∧ d.name ∈ m'.names ∧
      (m'.objects.logger d.name).level = d.level.value ∧
      (m'.objects.logger d.name).formatter =
        (if d.formatter = "" then (m.objects.logger d.name).formatter else some ⟨d.formatter⟩) ∧
      m'.shownAppenders d.name = d.appenders.map asked := by
  set m₁ := m.getLogger d.name with hm₁
  have hget : Moves (· = d.name) m m₁ := getLogger_moves h d.name
  have hin : d.name ∈ m₁.names := mem_getLogger m d.name
  set m₂ := m₁.on fun s => s.setLevel d.name d.level.value with hm₂
  have hlevel : Moves (· = d.name) m₁ m₂ := setLevel_moves hget.owned hin _
  set m₃ := if d.formatter ≠ "" then
    m₂.on fun s => s.setFormatterString LogFormatter.mk LogFormatter.isError d.name d.formatter else m₂ with hm₃
  have hm₃' : m₃ = if d.formatter = "" then m₂ else m₂.on fun s => s.setFormatter d.name (some ⟨d.formatter⟩) := by
    by_cases hempty : d.formatter = ""
    · simp [hm₃, hempty]
    · have hvalid : (LogFormatter.mk d.formatter).isError = false := hd.formatter.resolve_left hempty
      simp [hm₃, hempty, Logging.setFormatterString, hvalid]
  have hformatter : Moves (· = d.name) m₂ m₃ := by
    rw [hm₃']
    split_ifs
    · exact .refl hlevel.owned
    · exact setFormatter_moves hlevel.owned hin _
  have hin₃ : d.name ∈ m₃.names := hformatter.more _ hin
  set m₄ := m₃.on fun s => s.clearAppenders d.name with hm₄
  have hclear : Moves (· = d.name) m₃ m₄ := clearAppenders_moves hformatter.owned hin₃
  obtain ⟨m', hrun, hmoves, hl, hf, ha⟩ := addDefined_all hclear.owned hin₃ hd.type hd.appender
  refine ⟨m', hrun, (((hget.trans hlevel).trans hformatter).trans hclear).trans hmoves, hmoves.more _ hin₃, ?_, ?_, ?_⟩
  · rw [hl, hm₄, hm₃']
    split_ifs <;> simp [on, Logging.clearAppenders, Logging.setFormatter, hm₂, Logging.setLevel]
  · rw [hf, hm₄, hm₃']
    split_ifs <;> simp [on, Logging.clearAppenders, Logging.setFormatter, hm₂, Logging.setLevel, hm₁, getLogger_objects h]
  · rw [ha, hm₄]
    simp [shownAppenders, on, Logging.clearAppenders]

/-! ### The two loops of the listener -/

/-- A name of the old value that the new one does not have. -/
def Removed (old_value new_value : List LogDefine) (name : String) : Prop :=
  ∃ d ∈ old_value, d.name = name ∧ LogDefines.find new_value d = none

theorem find_congr (defines : List LogDefine) {d d' : LogDefine} (h : d.name = d'.name) :
    LogDefines.find defines d = LogDefines.find defines d' := by
  rw [LogDefines.find, LogDefines.find, h]

theorem removeAll_spec (h : m.Owned) (old_value new_value : List LogDefine) :
    Moves (Removed old_value new_value) m (removeAll new_value m old_value) ∧
      ∀ name, Removed old_value new_value name → (removeAll new_value m old_value).Disabled name := by
  induction old_value generalizing m with
  | nil => exact ⟨.refl h, by simp [Removed]⟩
  | cons i old_value ih =>
      have hmore : ∀ name, Removed old_value new_value name → Removed (i :: old_value) new_value name := by
        rintro name ⟨d, hd, hname⟩
        exact ⟨d, List.mem_cons_of_mem _ hd, hname⟩
      simp only [removeAll]
      split_ifs with hi
      · have hremove := remove_moves h i.name
        obtain ⟨hmoves, hall⟩ := ih hremove.owned
        refine ⟨(hremove.mono ?_).trans (hmoves.mono hmore), ?_⟩
        · rintro name rfl
          exact ⟨i, List.mem_cons_self, rfl, hi⟩
        · rintro name ⟨d, hd, rfl, hgone⟩
          by_cases hagain : Removed old_value new_value d.name
          · exact hall _ hagain
          · rcases List.mem_cons.1 hd with rfl | hd
            · exact hmoves.disabled hagain (remove_disabled m d.name)
            · exact absurd ⟨d, hd, rfl, hgone⟩ hagain
      · obtain ⟨hmoves, hall⟩ := ih h
        refine ⟨hmoves.mono hmore, ?_⟩
        rintro name ⟨d, hd, rfl, hgone⟩
        rcases List.mem_cons.1 hd with rfl | hd
        · exact absurd hgone hi
        · exact hall _ ⟨d, hd, rfl, hgone⟩

/-- The definition is new or differs from the old one of its name. -/
def Changed (old_value : List LogDefine) (d : LogDefine) : Prop := LogDefines.find old_value d ≠ some d

/-- A logger after the listener has brought it to a definition that was added or changed. -/
structure Patched (m m' : LoggerManager) (d : LogDefine) : Prop where
  exists_ : d.name ∈ m'.names
  level : (m'.objects.logger d.name).level = d.level.value
  formatter : (m'.objects.logger d.name).formatter =
    if d.formatter = "" then (m.objects.logger d.name).formatter else some ⟨d.formatter⟩
  appenders : m'.shownAppenders d.name = d.appenders.map asked

theorem Patched.after (h : Patched m m' d) (hmoves : Moves S m' m'') (hS : ¬ S d.name) : Patched m m'' d where
  exists_ := hmoves.more _ h.exists_
  level := by rw [hmoves.logger _ hS, h.level]
  formatter := by rw [hmoves.logger _ hS, h.formatter]
  appenders := by
    rw [← h.appenders, shownAppenders, shownAppenders, hmoves.logger _ hS]
    exact List.map_congr_left fun ap hap => congrArg shown (hmoves.appender _ hS ap hap)

theorem Patched.before (h : Patched m' m'' d) (hmoves : Moves S m m') (hS : ¬ S d.name) : Patched m m'' d where
  exists_ := h.exists_
  level := h.level
  formatter := by rw [h.formatter, hmoves.logger _ hS]
  appenders := h.appenders

/-- What an iteration over an added or changed definition reaches. -/
def Reached (old_value new_value rest : List LogDefine) (name : String) : Prop :=
  ∃ d ∈ rest, Changed old_value d ∧ (name = d.name ∨ Removed old_value new_value name)

theorem changeFrom_spec (h : m.Owned) (old_value : List LogDefine) {new_value rest : List LogDefine} (hvalid : ∀ d ∈ rest, d.Valid)
    (hsub : ∀ d ∈ rest, LogDefines.find new_value d ≠ none) (hnodup : (rest.map LogDefine.name).Nodup) :
    ∃ m', changeFrom old_value new_value m rest = some m' ∧ Moves (Reached old_value new_value rest) m m' ∧
      (∀ d ∈ rest, Changed old_value d → Patched m m' d) ∧
      ((∃ d ∈ rest, Changed old_value d) → ∀ name, Removed old_value new_value name → m'.Disabled name) := by
  induction rest generalizing m with
  | nil => exact ⟨m, rfl, .refl h, by simp, by simp⟩
  | cons i rest ih =>
      have hvalid' : ∀ d ∈ rest, d.Valid := fun d hd => hvalid d (List.mem_cons_of_mem _ hd)
      have hsub' : ∀ d ∈ rest, LogDefines.find new_value d ≠ none := fun d hd => hsub d (List.mem_cons_of_mem _ hd)
      obtain ⟨hi, hnodup'⟩ := List.nodup_cons.1 hnodup
      have hmore : ∀ name, Reached old_value new_value rest name → Reached old_value new_value (i :: rest) name := by
        rintro name ⟨d, hd, hname⟩
        exact ⟨d, List.mem_cons_of_mem _ hd, hname⟩
      simp only [changeFrom]
      split_ifs with hsame
      · obtain ⟨m', hrun, hmoves, hpatched, hdisabled⟩ := ih h hvalid' hsub' hnodup'
        refine ⟨m', hrun, hmoves.mono hmore, ?_, ?_⟩
        · rintro d hd hchanged
          rcases List.mem_cons.1 hd with rfl | hd
          · exact absurd hsame hchanged
          · exact hpatched d hd hchanged
        · rintro ⟨d, hd, hchanged⟩
          rcases List.mem_cons.1 hd with rfl | hd
          · exact absurd hsame hchanged
          · exact hdisabled ⟨d, hd, hchanged⟩
      · have hnot : ∀ d ∈ i :: rest, ¬ Removed old_value new_value d.name := by
          rintro d hd ⟨e, -, hname, hgone⟩
          exact hsub d hd (find_congr new_value hname ▸ hgone)
        obtain ⟨m₁, hconfigure, hmoves₁, hexists, hlevel, hformatter, happenders⟩ :=
          configure_eq h (hvalid i List.mem_cons_self)
        obtain ⟨hmoves₂, hgone₂⟩ := removeAll_spec hmoves₁.owned old_value new_value
        obtain ⟨m', hrun, hmoves, hpatched, hdisabled⟩ := ih hmoves₂.owned hvalid' hsub' hnodup'
        have hreached : ¬ Reached old_value new_value rest i.name := by
          rintro ⟨d, hd, -, hname | hremoved⟩
          · exact hi (hname ▸ List.mem_map_of_mem hd)
          · exact hnot i List.mem_cons_self hremoved
        refine ⟨m', by simp [hconfigure, hrun], ((hmoves₁.mono ?_).trans (hmoves₂.mono ?_)).trans (hmoves.mono hmore), ?_, ?_⟩
        · rintro name rfl
          exact ⟨i, List.mem_cons_self, hsame, .inl rfl⟩
        · exact fun name hremoved => ⟨i, List.mem_cons_self, hsame, .inr hremoved⟩
        · intro d hd hchanged
          rcases List.mem_cons.1 hd with rfl | hin
          · have hfirst : Patched m m₁ d := ⟨hexists, hlevel, hformatter, happenders⟩
            exact (hfirst.after hmoves₂ (hnot d hd)).after hmoves hreached
          · have hne : d.name ≠ i.name := fun heq => hi (heq ▸ List.mem_map_of_mem hin)
            exact ((hpatched d hin hchanged).before hmoves₂ (hnot d hd)).before hmoves₁ hne
        · rintro - name hremoved
          by_cases hmoreChanged : ∃ d ∈ rest, Changed old_value d
          · exact hdisabled hmoreChanged name hremoved
          · refine hmoves.disabled ?_ (hgone₂ name hremoved)
            rintro ⟨d, hd, hchanged, -⟩
            exact hmoreChanged ⟨d, hd, hchanged⟩

end LoggerManager

/-! ### Whole runs -/

namespace LogDefines

theorem names_nodup (v : LogDefines) : (v.defines.map LogDefine.name).Nodup := by
  refine List.pairwise_map.2 (v.sorted.imp fun {d d'} hlt (heq : d.name = d'.name) => ?_)
  rw [heq] at hlt
  exact String.lt_irrefl _ hlt

theorem find_eq_none {defines : List LogDefine} {d : LogDefine} :
    find defines d = none ↔ d.name ∉ defines.map LogDefine.name := by
  simp [find, List.find?_eq_none]

/-- A set finds its own elements. -/
theorem find_self (v : LogDefines) {d : LogDefine} (hd : d ∈ v.defines) : find v.defines d = some d := by
  cases hfind : find v.defines d with
  | none => exact absurd (List.mem_map_of_mem hd) (find_eq_none.1 hfind)
  | some e =>
      have he : e ∈ v.defines := List.mem_of_find?_eq_some hfind
      have hname : e.name = d.name := by simpa using List.find?_some hfind
      rw [List.inj_on_of_nodup_map v.names_nodup he hd hname]

theorem mem_of_find {defines : List LogDefine} {d e : LogDefine} (h : find defines d = some e) : e ∈ defines :=
  List.mem_of_find?_eq_some h

end LogDefines

namespace LogsState

open LoggerManager

structure Inv (s : LogsState) : Prop where
  owned : s.manager.Owned
  ever : ∀ d ∈ s.value.defines, d.name ∈ s.ever

theorem init_inv : init.Inv := ⟨init_owned, by simp [init, LogDefines.empty]⟩

/-- What an assignment of another value comes to. -/
theorem setValue_spec {s t : LogsState} {val : LogDefines} (h : s.Inv) (hne : val.defines ≠ s.value.defines)
    (hstep : s.step (.setValue val) = .next t) :
    t.value = val ∧ t.ever = val.defines.map LogDefine.name ++ s.ever ∧
      Moves (Reached s.value.defines val.defines val.defines) s.manager t.manager ∧
      (∀ d ∈ val.defines, Changed s.value.defines d → Patched s.manager t.manager d) ∧
      ((∃ d ∈ val.defines, Changed s.value.defines d) → ∀ name, Removed s.value.defines val.defines name →
        t.manager.Disabled name) := by
  have hsub : ∀ d ∈ val.defines, LogDefines.find val.defines d ≠ none := fun d hd => by simp [val.find_self hd]
  obtain ⟨m, hrun, hrest⟩ := changeFrom_spec h.owned s.value.defines val.valid hsub val.names_nodup
  simp only [step, if_neg hne, onLogsChanged, hrun] at hstep
  cases hstep
  exact ⟨rfl, rfl, hrest⟩

theorem step_inv (s : LogsState) (act : LogsAction) (t : LogsState) (h : s.Inv) (hstep : s.step act = .next t) : t.Inv := by
  cases act with
  | getLogger name =>
      cases hstep
      exact ⟨(getLogger_moves h.owned name).owned, h.ever⟩
  | setValue val =>
      by_cases hsame : val.defines = s.value.defines
      · simp only [step, if_pos hsame] at hstep
        cases hstep
        exact h
      · obtain ⟨hvalue, hever, hmoves, -⟩ := setValue_spec h hsame hstep
        refine ⟨hmoves.owned, fun d hd => ?_⟩
        rw [hvalue] at hd
        rw [hever]
        exact List.mem_append_left _ (List.mem_map_of_mem hd)

/-- The listener reaches only names of the old and the new value. -/
theorem not_reached {s : LogsState} {val : LogDefines} {name : String}
    (hname : name ∉ val.defines.map LogDefine.name) (hold : name ∉ s.value.defines.map LogDefine.name) :
    ¬ Reached s.value.defines val.defines val.defines name := by
  rintro ⟨d, hd, -, rfl | ⟨e, he, rfl, -⟩⟩
  · exact hname (List.mem_map_of_mem hd)
  · exact hold (List.mem_map_of_mem he)

/-- An unchanged definition of the new value is not reached. -/
theorem not_reached_of_same {s : LogsState} {val : LogDefines} {d : LogDefine} (hd : d ∈ val.defines)
    (hsame : ¬ Changed s.value.defines d) : ¬ Reached s.value.defines val.defines val.defines d.name := by
  rintro ⟨e, he, hchanged, heq | ⟨e', -, hname, hgone⟩⟩
  · obtain rfl : d = e := List.inj_on_of_nodup_map val.names_nodup hd he heq
    exact hsame hchanged
  · rw [find_congr val.defines hname, val.find_self hd] at hgone
    cases hgone

theorem setValue_follows_iff {s t : LogsState} {val : LogDefines} (h : s.Inv) (hfollows : s.Follows)
    (hne : val.defines ≠ s.value.defines) (hstep : s.step (.setValue val) = .next t) :
    t.Follows ↔ s.Complete (.setValue val) := by
  obtain ⟨hvalue, hever, hmoves, hpatched, hdisabled⟩ := setValue_spec h hne hstep
  constructor
  · intro hall
    refine ⟨?_, fun d hd hchanged hempty => ?_⟩
    · rintro ⟨d, hd, hgone⟩
      by_contra hnone
      have hlevel := (hall.2 d.name (by rw [hever]; exact List.mem_append_right _ (h.ever d hd))
        (by rw [hvalue]; exact LogDefines.find_eq_none.1 hgone)).level
      have hkept := hmoves.logger d.name fun ⟨e, he, hchanged, _⟩ => hnone ⟨e, he, hchanged⟩
      rw [hkept, (hfollows.1 d hd).level] at hlevel
      cases hd : d.level <;> simp [LogLevel.value, hd] at hlevel
    · have hformatter := (hall.1 d (hvalue ▸ hd)).formatter
      rw [(hpatched d hd hchanged).formatter, if_pos hempty] at hformatter
      simpa [patternOf, hempty] using hformatter
  · rintro ⟨hremoval, hdefault⟩
    refine ⟨fun d hd => ?_, fun name hname hgone => ?_⟩
    · rw [hvalue] at hd
      by_cases hchanged : Changed s.value.defines d
      · have hd' := hpatched d hd hchanged
        refine ⟨hd'.exists_, hd'.level, ?_, hd'.appenders⟩
        rw [hd'.formatter]
        by_cases hempty : d.formatter = ""
        · simp [patternOf, hempty, hdefault d hd hchanged hempty]
        · simp [patternOf, hempty]
      · have hold : d ∈ s.value.defines := LogDefines.mem_of_find (not_not.1 hchanged)
        exact hmoves.configured (not_reached_of_same hd hchanged) (hfollows.1 d hold)
    · rw [hever, hvalue] at *
      have hbefore : name ∈ s.ever := (List.mem_append.1 hname).resolve_left hgone
      by_cases hold : name ∈ s.value.defines.map LogDefine.name
      · obtain ⟨d, hd, rfl⟩ := List.mem_map.1 hold
        have hfind := LogDefines.find_eq_none.2 hgone
        exact hdisabled (hremoval ⟨d, hd, hfind⟩) d.name ⟨d, hd, rfl, hfind⟩
      · exact hmoves.disabled (not_reached hgone hold) (hfollows.2 name hbefore hold)

/-- Assigning the same value again is complete: it removes, adds and changes nothing. -/
theorem complete_of_same {s : LogsState} {val : LogDefines} (hsame : val.defines = s.value.defines) :
    s.Complete (.setValue val) := by
  refine ⟨?_, fun d hd hchanged => ?_⟩
  · rintro ⟨d, hd, hgone⟩
    rw [hsame, s.value.find_self hd] at hgone
    cases hgone
  · exact absurd (s.value.find_self (hsame ▸ hd)) hchanged

theorem step_follows_iff {s t : LogsState} {act : LogsAction} (h : s.Inv) (hfollows : s.Follows)
    (hstep : s.step act = .next t) : t.Follows ↔ s.Complete act := by
  cases act with
  | getLogger name =>
      cases hstep
      have hobjects := getLogger_objects h.owned name
      refine iff_of_true ⟨fun d hd => ?_, fun k hk hgone => ?_⟩ trivial
      · obtain ⟨hexists, hlevel, hformatter, happenders⟩ := hfollows.1 d hd
        refine ⟨(getLogger_moves h.owned name).more _ hexists, ?_, ?_, ?_⟩
        · simpa only [hobjects] using hlevel
        · simpa only [hobjects] using hformatter
        · simpa only [shownAppenders, hobjects] using happenders
      · obtain ⟨hlevel, happenders⟩ := hfollows.2 k hk hgone
        exact ⟨by simpa only [hobjects] using hlevel, by simpa only [hobjects] using happenders⟩
  | setValue val =>
      by_cases hsame : val.defines = s.value.defines
      · simp only [step, if_pos hsame] at hstep
        cases hstep
        exact iff_of_true hfollows (complete_of_same hsame)
      · exact setValue_follows_iff h hfollows hsame hstep

theorem othersKept {s : LogsState} (h : s.Inv) (act : LogsAction) : s.OthersKept act := by
  cases act with
  | getLogger name => trivial
  | setValue val =>
      intro t hstep name hname
      by_cases hsame : val.defines = s.value.defines
      · simp only [step, if_pos hsame] at hstep
        cases hstep
        exact ⟨Iff.rfl, rfl, fun _ _ => rfl⟩
      · obtain ⟨-, hever, hmoves, -⟩ := setValue_spec h hsame hstep
        rw [hever, List.mem_append, not_or] at hname
        have hold : name ∉ s.value.defines.map LogDefine.name := by
          intro hin
          obtain ⟨d, hd, rfl⟩ := List.mem_map.1 hin
          exact hname.2 (h.ever d hd)
        have hreached := not_reached hname.1 hold
        exact ⟨⟨hmoves.names name hreached, hmoves.more name⟩, hmoves.logger name hreached, hmoves.appender name hreached⟩

/-- Only an appender of an unknown type stops the listener, and a value has none. -/
theorem stuck_complete {s : LogsState} {act : LogsAction} (h : s.Inv) (hstuck : ∀ t, s.step act ≠ .next t) : s.Complete act := by
  cases act with
  | getLogger name => trivial
  | setValue val =>
      by_cases hsame : val.defines = s.value.defines
      · exact complete_of_same hsame
      · have hsub : ∀ d ∈ val.defines, LogDefines.find val.defines d ≠ none := fun d hd => by simp [val.find_self hd]
        obtain ⟨m, hrun, -⟩ := changeFrom_spec h.owned s.value.defines val.valid hsub val.names_nodup
        simp only [step, if_neg hsame, onLogsChanged, hrun] at hstuck
        exact absurd rfl (hstuck _)

/-- After every assignment of a run the loggers are as the last value says, and those it does not name are disabled or untouched, exactly as long as every assignment is complete. -/
theorem loggers_follow_iff (acts : List LogsAction) :
    Throughout step Follows init acts ∧ Along step OthersKept init acts ↔ Along step Complete init acts := by
  have hothers : Along step OthersKept init acts :=
    (throughout_of_along (P := fun _ _ => True) (fun s act t hs _ hstep => step_inv s act t hs hstep) init_inv
      (along_of_forall (fun _ _ _ => trivial) init)).2.mono fun s act hs => othersKept hs.1 act
  rw [and_iff_left hothers]
  exact throughout_iff_along step_inv (fun _ _ _ h hfollows hstep => step_follows_iff h hfollows hstep)
    (fun _ _ h hstuck => stuck_complete h hstuck) init_inv (by simp [Follows, init, LogDefines.empty]) acts

/-! ### Reloads that do not take effect -/

/-- A set of one definition without appenders. -/
def single (name : String) (level : LogLevel) (formatter : String) (h : ValidFormatter formatter) : LogDefines where
  defines := [{ name := name, level := level, formatter := formatter, appenders := [] }]
  sorted := List.pairwise_singleton _ _
  valid := by
    intro d hd
    obtain rfl := List.mem_singleton.1 hd
    exact ⟨h, by simp, by simp⟩

/-- A logger that is removed by an empty value keeps its level, and one whose definition loses its formatter keeps the formatter. -/
theorem reload_left_behind :
    (∃ s, run step init [.setValue (single "a" .ERROR "" (.inl rfl)), .setValue .empty] = .next s ∧
      "a" ∈ s.ever ∧ s.value.defines = [] ∧ (s.manager.objects.logger "a").level = LogLevel.ERROR.value) ∧
    ∃ s, run step init [.setValue (single "a" .INFO "%m" (.inr (by decide +kernel))),
        .setValue (single "a" .INFO "" (.inl rfl))] = .next s ∧
      s.value.defines = [{ name := "a", level := .INFO, formatter := "", appenders := [] }] ∧
      (s.manager.objects.logger "a").formatter = some ⟨"%m"⟩ :=
  ⟨⟨_, rfl, by decide, by decide, by decide⟩, _, rfl, by decide, by decide +kernel⟩

end LogsState

end Awcotn
