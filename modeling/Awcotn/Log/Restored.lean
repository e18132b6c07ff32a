import Awcotn.Log.Dump
import Awcotn.Log.Reloaded

/-!
# Loggers restored from their text

Runs of assignments to `logs`, of any values, and what becomes of the loggers of a state that they reach when their text is assigned to `logs` in a new process. The text has no level for a logger that a removal has disabled, and the level it has for an appender is not read.
-/

namespace Awcotn

open Transition

/-- The loggers and the value of `logs`. -/
structure LogsVar where
  manager : LoggerManager
  value : LogDefineSet

namespace LogsVar

/-- A new process. -/
def init : LogsVar := { manager := .init, value := .empty }

inductive Action
  | getLogger (name : String)
  | setValue (val : LogDefineSet)
  | fromString (val : String)

/-- `ConfigVar::setValue` with the listener of `LogIniter`, which stops at an appender of an unknown type. -/
def setValue (s : LogsVar) (val : LogDefineSet) : Outcome Unit LogsVar :=
  if val.defines = s.value.defines then .next s
  else
    match s.manager.onLogsChanged s.value.defines val.defines with
    | some m => .next { manager := m, value := val }
    | none => .abort ()

/-- `ConfigVar::fromString`: a text that is not a value changes nothing. -/
def fromString (Y : Yaml) (s : LogsVar) (val : String) : Outcome Unit LogsVar :=
  match LogDefineSet.ofString Y val with
  | some val => setValue s val
  | none => .next s

def step (Y : Yaml) (s : LogsVar) : Action → Outcome Unit LogsVar
  | .getLogger name => .next { s with manager := s.manager.getLogger name }
  | .setValue val => setValue s val
  | .fromString val => fromString Y s val

end LogsVar

/-! ### What is to be shown -/

namespace LoggerManager

/-- A logger has the same level, formatter pattern and appenders in both managers. -/
structure Alike (m m' : LoggerManager) (name : String) : Prop where
  exists_ : name ∈ m'.names
  level : (m'.objects.logger name).level = (m.objects.logger name).level
  formatter : (m'.objects.logger name).formatter = (m.objects.logger name).formatter
  appenders : m'.shownAppenders name = m.shownAppenders name

/-- The text of the loggers, assigned to `logs` in a new process, makes every one of them as it is. -/
def Restores (Y : Yaml) (m : LoggerManager) : Prop :=
  ∃ text t, m.toYamlString Y = some text ∧ LogsVar.init.fromString Y text = .next t ∧ ∀ name ∈ m.names, Alike m t.manager name

/-- No logger is disabled, and no appender has a level. -/
def Plain (m : LoggerManager) : Prop :=
  ∀ name ∈ m.names, (m.objects.logger name).level ≠ 100 ∧
    ∀ ap ∈ (m.objects.logger name).appenders, (m.objects.appender ap).level = .UNKNOW

end LoggerManager

/-! ### What operations on the objects keep -/

namespace Logging.Sound

variable {s : Logging String ℕ LogFormatter} {name : String}

theorem setLevel (h : s.Sound) {level : ℕ} (hlevel : level = 100 ∨ ∃ l : LogLevel, level = l.value) :
    (s.setLevel name level).Sound := by
  refine ⟨fun k => ?_, h.own, fun k => ?_⟩
  · by_cases hk : k = name
    · simpa [Logging.setLevel, hk] using h.formatter name
    · simpa [Logging.setLevel, hk] using h.formatter k
  · by_cases hk : k = name
    · simpa [Logging.setLevel, hk] using hlevel
    · simpa [Logging.setLevel, hk] using h.level k

theorem clearAppenders (h : s.Sound) : (s.clearAppenders name).Sound := by
  refine ⟨fun k => ?_, h.own, fun k => ?_⟩
  · by_cases hk : k = name
    · simpa [Logging.clearAppenders, hk] using h.formatter name
    · simpa [Logging.clearAppenders, hk] using h.formatter k
  · by_cases hk : k = name
    · simpa [Logging.clearAppenders, hk] using h.level name
    · simpa [Logging.clearAppenders, hk] using h.level k

theorem setFormatter (h : s.Sound) {val : LogFormatter} (hval : val.Usable) : (s.setFormatter name (some val)).Sound := by
  refine ⟨fun k => ?_, fun ap hown => ?_, fun k => ?_⟩
  · by_cases hk : k = name
    · exact ⟨val, by simp [Logging.setFormatter, hk], hval⟩
    · simpa [Logging.setFormatter, hk] using h.formatter k
  · simp only [Logging.setFormatter, Logging.inherit_apply] at hown ⊢
    split_ifs at hown ⊢ with hin
    · simp [hin.2] at hown
    · exact h.own ap hown
  · by_cases hk : k = name
    · simpa [Logging.setFormatter, hk] using h.level name
    · simpa [Logging.setFormatter, hk] using h.level k

theorem setFormatterString (h : s.Sound) {val : String} (hval : val ≠ "") :
    (s.setFormatterString LogFormatter.mk LogFormatter.isError name val).Sound := by
  unfold Logging.setFormatterString
  split_ifs with herror
  · exact h
  · exact h.setFormatter ⟨hval, by simpa using herror⟩

/-- A new value of one appender. -/
theorem update (h : s.Sound) {ap : ℕ} {x : LogAppender LogFormatter}
    (hx : x.hasFormatter = true → ∃ f, x.formatter = some f ∧ f.Usable) :
    Sound { s with appender := Function.update s.appender ap x } := by
  refine ⟨h.formatter, fun i hown => ?_, h.level⟩
  by_cases hi : i = ap
  · simp only [hi, Function.update_self] at hown ⊢
    exact hx hown
  · simp only [Function.update_of_ne hi] at hown ⊢
    exact h.own i hown

theorem addAppender (h : s.Sound) {ap : ℕ} : (s.addAppender name ap).Sound := by
  have happender : Sound { s with
      appender := if (s.appender ap).formatter.isNone then
        Function.update s.appender ap { s.appender ap with formatter := (s.logger name).formatter } else s.appender } := by
    split_ifs with hnone
    · refine h.update fun hown => ?_
      obtain ⟨f, hf, -⟩ := h.own ap hown
      simp [hf] at hnone
    · exact h
  refine ⟨fun k => ?_, happender.own, fun k => ?_⟩
  · by_cases hk : k = name
    · simpa [Logging.addAppender, hk] using h.formatter name
    · simpa [Logging.addAppender, hk] using h.formatter k
  · by_cases hk : k = name
    · simpa [Logging.addAppender, hk] using h.level name
    · simpa [Logging.addAppender, hk] using h.level k

end Logging.Sound

/-! ### What the listener keeps -/

namespace LoggerManager

/-- The objects are sound, and every logger is in the map once. -/
structure Sound (m : LoggerManager) : Prop where
  objects : m.objects.Sound
  names : m.names.Nodup
  root : m.names ≠ []

variable {m m' : LoggerManager}

theorem usable_default : LogFormatter.Usable ⟨LogFormatter.defaultPattern⟩ := ⟨by decide, by decide +kernel⟩

theorem init_sound : init.Sound where
  objects := by
    refine Logging.Sound.addAppender ⟨fun name => ⟨_, rfl, usable_default⟩, fun ap hown => ?_, fun name => .inr ⟨.DEBUG, rfl⟩⟩
    simp [LogAppender.new] at hown
  names := by simp [init]
  root := by simp [init]

theorem Sound.on (h : m.Sound) {f : Logging String ℕ LogFormatter → Logging String ℕ LogFormatter} (hf : (f m.objects).Sound) :
    (m.on f).Sound := ⟨hf, h.names, h.root⟩

theorem Sound.setLevel (h : m.Sound) (name : String) {level : ℕ} (hlevel : level = 100 ∨ ∃ l : LogLevel, level = l.value) :
    (m.on fun s => s.setLevel name level).Sound := h.on (f := fun s => s.setLevel name level) (h.objects.setLevel hlevel)

theorem Sound.clearAppenders (h : m.Sound) (name : String) : (m.on fun s => s.clearAppenders name).Sound :=
  h.on (f := fun s => s.clearAppenders name) h.objects.clearAppenders

theorem Sound.getLogger (h : m.Sound) (name : String) : (m.getLogger name).Sound := by
  unfold LoggerManager.getLogger
  split_ifs with hin
  · exact h
  · refine ⟨⟨fun k => ?_, h.objects.own, fun k => ?_⟩, List.nodup_cons.2 ⟨hin, h.names⟩, List.cons_ne_nil _ _⟩
    · by_cases hk : k = name
      · exact ⟨⟨LogFormatter.defaultPattern⟩, by simp [hk, newLogger, Logger.new], usable_default⟩
      · simpa [hk] using h.objects.formatter k
    · by_cases hk : k = name
      · exact .inr ⟨.DEBUG, by simp [hk, newLogger, Logger.new]⟩
      · simpa [hk] using h.objects.level k

theorem Sound.addDefined (h : m.Sound) {name : String} {a : LogAppenderDefine} (hrun : addDefined name m a = some m') :
    m'.Sound := by
  obtain ⟨kind, -, rfl⟩ := Option.map_eq_some_iff.1 hrun
  have hcreate : (m.create kind).Sound := ⟨h.objects.update (by simp [LogAppender.new]), h.names, h.root⟩
  have hlevel : ((m.create kind).on fun s => s.setAppenderLevel m.fresh a.level).Sound :=
    hcreate.on (hcreate.objects.update fun hown => hcreate.objects.own m.fresh hown)
  dsimp only
  split_ifs with hformatter
  · have hset := hlevel.on (f := fun s => s.setAppenderFormatter m.fresh (some ⟨a.formatter⟩))
      (hlevel.objects.update fun _ => ⟨⟨a.formatter⟩, rfl, hformatter.1, hformatter.2⟩)
    exact hset.on hset.objects.addAppender
  · exact hlevel.on hlevel.objects.addAppender

theorem Sound.configure (h : m.Sound) {d : LogDefine} (hrun : m.configure d = some m') : m'.Sound := by
  have hloop : ∀ (appenders : List LogAppenderDefine) (m : LoggerManager), m.Sound →
      appenders.foldlM (LoggerManager.addDefined d.name) m = some m' → m'.Sound := by
    intro appenders
    induction appenders with
    | nil =>
        intro m hm hrun
        cases hrun
        exact hm
    | cons a appenders ih =>
        intro m hm hrun
        rw [List.foldlM_cons] at hrun
        obtain ⟨m₁, hadd, hrest⟩ := Option.bind_eq_some_iff.1 hrun
        exact ih m₁ (hm.addDefined hadd) hrest
  have hget := h.getLogger d.name
  have hlevel := hget.setLevel d.name (.inr ⟨d.level, rfl⟩)
  simp only [LoggerManager.configure] at hrun
  split_ifs at hrun with hempty
  · have hformatter := hlevel.on (f := fun s => s.setFormatterString LogFormatter.mk LogFormatter.isError d.name d.formatter)
      (hlevel.objects.setFormatterString hempty)
    exact hloop d.appenders _ (hformatter.clearAppenders d.name) hrun
  · exact hloop d.appenders _ (hlevel.clearAppenders d.name) hrun

theorem Sound.removeAll (h : m.Sound) (new_value old_value : List LogDefine) : (removeAll new_value m old_value).Sound := by
  induction old_value generalizing m with
  | nil => exact h
  | cons i old_value ih =>
      simp only [LoggerManager.removeAll]
      split_ifs
      · exact ih (((h.getLogger i.name).setLevel i.name (.inl rfl)).clearAppenders i.name)
      · exact ih h

theorem Sound.changeFrom (h : m.Sound) {old_value new_value rest : List LogDefine}
    (hrun : changeFrom old_value new_value m rest = some m') : m'.Sound := by
  induction rest generalizing m with
  | nil =>
      cases hrun
      exact h
  | cons i rest ih =>
      simp only [LoggerManager.changeFrom] at hrun
      split_ifs at hrun
      · exact ih h hrun
      · obtain ⟨m₁, hconfigure, hrest⟩ := Option.bind_eq_some_iff.1 hrun
        exact ih ((h.configure hconfigure).removeAll new_value old_value) hrest

/-! ### One text -/

/-- A level other than the one of a disabled logger is read back. -/
theorem level_read_iff {level : ℕ} (h : level = 100 ∨ ∃ l : LogLevel, level = l.value) :
    (LogLevel.FromString (LogLevel.toStringOf level)).value = level ↔ level ≠ 100 := by
  rcases h with rfl | ⟨l, rfl⟩
  · decide
  · cases l <;> decide

/-- An appender made from its text shows the same, but for its level. -/
theorem asked_define {ap : LogAppender LogFormatter}
    (hown : ap.hasFormatter = true → ∃ f, ap.formatter = some f ∧ f.Usable) :
    asked (LogDefine.forget ap.define) = (ap.kind, .UNKNOW, (shown ap).2.2) := by
  have hkind : (if (LogDefine.forget ap.define).type = 1 then AppenderKind.file (LogDefine.forget ap.define).file
      else .stdout) = ap.kind := by
    cases hkind : ap.kind <;> simp [LogDefine.forget, LogAppender.define, hkind]
  have hformatter : (if (LogDefine.forget ap.define).formatter = "" then none
      else some (LogFormatter.mk (LogDefine.forget ap.define).formatter)) = (shown ap).2.2 := by
    cases hhas : ap.hasFormatter with
    | true =>
        obtain ⟨f, hf, husable⟩ := hown hhas
        simp [LogDefine.forget, LogAppender.define, shown, hhas, hf, husable.nonempty]
    | false => simp [LogDefine.forget, LogAppender.define, shown, hhas]
  exact Prod.ext hkind (Prod.ext rfl hformatter)

theorem Sound.dumped_valid (h : m.Sound) (name : String) : (m.dumped name).Valid where
  formatter := by
    obtain ⟨f, hf, husable⟩ := h.objects.formatter name
    refine .inr ?_
    simpa [dumped, hf] using husable.valid
  type a ha := by
    obtain ⟨ap, -, rfl⟩ := List.mem_map.1 ha
    exact (LogAppender.define_type _).imp_right And.left
  appender a ha := by
    obtain ⟨ap, -, rfl⟩ := List.mem_map.1 ha
    cases hhas : (m.objects.appender ap).hasFormatter with
    | true =>
        obtain ⟨f, hf, husable⟩ := h.objects.own ap hhas
        refine .inr ?_
        simpa [LogDefine.forget, LogAppender.define, hhas, hf] using husable.valid
    | false => exact .inl (by simp [LogDefine.forget, LogAppender.define, hhas])

/-- A logger that its definition has been applied to is as it was exactly if it is not disabled and its appenders have no levels. -/
theorem Sound.alike_iff (h : m.Sound) {name : String} {m₀ : LoggerManager} (hpatched : Patched m₀ m' (m.dumped name)) :
    Alike m m' name ↔ (m.objects.logger name).level ≠ 100 ∧
      ∀ ap ∈ (m.objects.logger name).appenders, (m.objects.appender ap).level = .UNKNOW := by
  obtain ⟨f, hf, husable⟩ := h.objects.formatter name
  have hformatter : (m'.objects.logger name).formatter = (m.objects.logger name).formatter := by
    have hnew := hpatched.formatter
    simp only [dumped, hf, Option.map_some, Option.getD_some, if_neg husable.nonempty] at hnew
    rw [hnew, hf]
  have hlevel : (m'.objects.logger name).level = (m.objects.logger name).level ↔ (m.objects.logger name).level ≠ 100 := by
    rw [← level_read_iff (h.objects.level name)]
    exact Eq.congr_left hpatched.level
  have happenders : m'.shownAppenders name = m.shownAppenders name ↔
      ∀ ap ∈ (m.objects.logger name).appenders, (m.objects.appender ap).level = .UNKNOW := by
    have hnew : m'.shownAppenders name = (m.objects.logger name).appenders.map fun ap =>
        ((m.objects.appender ap).kind, LogLevel.UNKNOW, (shown (m.objects.appender ap)).2.2) := by
      refine hpatched.appenders.trans ?_
      rw [dumped, List.map_map]
      exact List.map_congr_left fun ap _ => asked_define (h.objects.own ap)
    rw [hnew, shownAppenders, List.map_inj_left]
    refine forall₂_congr fun ap _ => ?_
    rw [Prod.ext_iff, Prod.ext_iff]
    exact ⟨fun hsame => hsame.2.1.symm, fun hlevel => ⟨rfl, hlevel.symm, rfl⟩⟩
  constructor
  · exact fun halike => ⟨hlevel.1 halike.level, happenders.1 halike.appenders⟩
  · rintro ⟨hl, ha⟩
    exact ⟨hpatched.exists_, hlevel.2 hl, hformatter, happenders.2 ha⟩

/-- In a new process every definition of a text is new. -/
theorem Sound.restored {Y : Yaml} (hY : Y.Lawful) (h : m.Sound) :
    ∃ text t, m.toYamlString Y = some text ∧ LogsVar.init.fromString Y text = .next t ∧
      ∀ name ∈ m.names, Patched init t.manager (m.dumped name) := by
  obtain ⟨text, value, htext, hvalue, hdefines⟩ := ofString_dump hY h.objects h.names h.root
  have hperm := loggers_perm h.names
  have hmem : ∀ d ∈ value.defines, ∃ name ∈ m.names, m.dumped name = d := by
    intro d hd
    rw [hdefines] at hd
    obtain ⟨name, hname, rfl⟩ := List.mem_map.1 hd
    exact ⟨name, hperm.mem_iff.1 hname, rfl⟩
  have hnames : (value.defines.map LogDefine.name).Nodup := by
    rw [hdefines, List.map_map]
    exact (List.map_id m.loggers).symm ▸ hperm.nodup_iff.2 h.names
  have hvalid : ∀ d ∈ value.defines, d.Valid := by
    intro d hd
    obtain ⟨name, -, rfl⟩ := hmem d hd
    exact h.dumped_valid name
  have hfound : ∀ d ∈ value.defines, LogDefines.find value.defines d ≠ none := by
    intro d hd hnone
    exact LogDefines.find_eq_none.1 hnone (List.mem_map_of_mem hd)
  obtain ⟨m', hrun, -, hpatched, -⟩ := changeFrom_spec init_owned [] hvalid hfound hnames
  have hne : value.defines ≠ [] := by
    rw [hdefines]
    exact fun hnil => h.root (by simpa [List.map_eq_nil_iff.1 hnil] using hperm.symm)
  have hset : LogsVar.init.fromString Y text = .next ⟨m', value⟩ := by
    have hsame : ¬ value.defines = LogsVar.init.value.defines := hne
    have hcall : LogsVar.init.manager.onLogsChanged LogsVar.init.value.defines value.defines = some m' := hrun
    simp only [LogsVar.fromString, hvalue, LogsVar.setValue, if_neg hsame, hcall]
  refine ⟨text, _, htext, hset, fun name hname => hpatched _ ?_ nofun⟩
  rw [hdefines]
  exact List.mem_map_of_mem (hperm.mem_iff.2 hname)

theorem Sound.restores_iff {Y : Yaml} (hY : Y.Lawful) (h : m.Sound) : m.Restores Y ↔ m.Plain := by
  obtain ⟨text, t, htext, hset, hpatched⟩ := h.restored hY
  constructor
  · rintro ⟨text', t', htext', hset', halike⟩
    obtain rfl : text = text' := Option.some.inj (htext.symm.trans htext')
    obtain rfl : t = t' := Outcome.next.inj (hset.symm.trans hset')
    exact fun name hname => (h.alike_iff (hpatched name hname)).1 (halike name hname)
  · exact fun hplain => ⟨text, t, htext, hset, fun name hname => (h.alike_iff (hpatched name hname)).2 (hplain name hname)⟩

end LoggerManager

namespace LogsVar

theorem setValue_sound {s t : LogsVar} {val : LogDefineSet} (h : s.manager.Sound) (hstep : setValue s val = .next t) :
    t.manager.Sound := by
  simp only [setValue] at hstep
  split_ifs at hstep
  · cases hstep
    exact h
  · split at hstep
    · rename_i m hrun
      cases hstep
      exact h.changeFrom hrun
    · cases hstep

theorem step_sound (Y : Yaml) (s : LogsVar) (a : Action) (t : LogsVar) (h : s.manager.Sound) (hstep : step Y s a = .next t) :
    t.manager.Sound := by
  cases a with
  | getLogger name =>
      cases hstep
      exact h.getLogger name
  | setValue val => exact setValue_sound h hstep
  | fromString val =>
      simp only [step, fromString] at hstep
      split at hstep
      · exact setValue_sound h hstep
      · cases hstep
        exact h

/-- After any sequence of assignments the text of the loggers restores them exactly if none of them is disabled and no appender has a level. -/
theorem restores_iff_plain {Y : Yaml} (hY : Y.Lawful) (acts : List Action) :
    Throughout (step Y) (fun s => s.manager.Restores Y ↔ s.manager.Plain) init acts :=
  (throughout_of_step (step_sound Y) LoggerManager.init_sound acts).mono fun _ hs => hs.restores_iff hY

/-- The logger "a" is added and removed again, and the root logger has one appender of some level. -/
def addAndRemove (level : LogLevel) : List Action :=
  [.setValue (LogDefineSet.empty.insert { name := "a", level := .INFO, formatter := "", appenders := [] }),
    .setValue (LogDefineSet.empty.insert
      { name := "root", level := .INFO, formatter := "%m%n", appenders := [{ type := 2, level := level, formatter := "", file := "" }] })]

/-- The root logger has an appender with a pattern of its own and no level, and the logger "a" writes to a file. -/
def addTwo : List Action :=
  [.getLogger "a", .setValue ((LogDefineSet.empty.insert
      { name := "root", level := .INFO, formatter := "%m%n",
        appenders := [{ type := 2, level := .UNKNOW, formatter := "%p %m%n", file := "" }] }).insert
      { name := "a", level := .ERROR, formatter := "",
        appenders := [{ type := 1, level := .UNKNOW, formatter := "", file := "a.txt" }] })]

/-- The loggers that `addTwo` makes are restored; those of the states along `addAndRemove` are restored or not as the condition says. -/
theorem restores_added :
    (∃ s, run (step Yaml.block) init addTwo = .next s ∧ s.manager.names.length = 2 ∧
      (s.manager.objects.logger "a").level = LogLevel.ERROR.value ∧ s.manager.Restores Yaml.block) ∧
    Throughout (step Yaml.block) (fun s => s.manager.Restores Yaml.block ↔ s.manager.Plain) init (addAndRemove .UNKNOW) := by
  have hiff := (restores_iff_plain Yaml.block_lawful addTwo).last rfl
  refine ⟨⟨_, rfl, by decide +kernel, by decide +kernel, hiff.2 ?_⟩, restores_iff_plain Yaml.block_lawful _⟩
  unfold LoggerManager.Plain
  decide +kernel

/-- The disabled logger comes back with level 0, and an appender's level is not read. -/
theorem levels_not_restored :
    (∃ s, run (step Yaml.block) init (addAndRemove .UNKNOW) = .next s ∧ (s.manager.objects.logger "a").level = 100 ∧
      ¬ s.manager.Restores Yaml.block) ∧
    ∃ s, run (step Yaml.block) init ((addAndRemove .ERROR).drop 1) = .next s ∧
      (∀ name ∈ s.manager.names, (s.manager.objects.logger name).level ≠ 100) ∧ ¬ s.manager.Restores Yaml.block := by
  have hsound : ∀ acts s, run (step Yaml.block) init acts = .next s → s.manager.Sound := fun acts s hrun =>
    invariant_of_run (I := fun s => s.manager.Sound) (step_sound Yaml.block) LoggerManager.init_sound hrun
  refine ⟨⟨_, rfl, by decide +kernel, fun h => ?_⟩, _, rfl, by decide +kernel, fun h => ?_⟩
  · have hplain := ((hsound (addAndRemove .UNKNOW) _ rfl).restores_iff Yaml.block_lawful).1 h
    exact (hplain "a" (by decide +kernel)).1 (by decide +kernel)
  · have hplain := ((hsound ((addAndRemove .ERROR).drop 1) _ rfl).restores_iff Yaml.block_lawful).1 h
    exact absurd ((hplain "root" (by decide +kernel)).2 1 (by decide +kernel)) (by decide +kernel)

end LogsVar

end Awcotn
