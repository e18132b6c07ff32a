import Awcotn.Log.Pattern
import Awcotn.Log.Restored

/-!
# What is written

From a log statement to the text: the macro compares the level with the logger's, the destructor of `LogEventWrap` passes the event to `Logger::log`, which passes it to the appenders, or to the root logger where there are none, and an appender writes the items of its formatter one after another.

What a logger does is fixed by its level, its pattern and what its appenders show, and `logs` changes these by whole definitions. `Settings` is what the values of `logs` say about the loggers, without any objects, and `reconfigured` is what a new value says. `written_as_configured` connects the two: for every run of log statements and assignments, the text that a statement adds is the one that the settings of its logger ask for.
-/

namespace Awcotn

open Transition

/-! ### The functions -/

/-- A `LogEvent`, with the name of its `m_logger`. -/
structure LogEvent where
  logger : String
  level : LogLevel
  file : String
  line : ℤ
  elapse : ℕ
  threadId : ℤ
  fiberId : ℕ
  time : ℕ
  threadName : String
  content : String
  deriving DecidableEq

/-- The pattern of a `DateTimeFormatItem` that is given none. -/
def defaultTimeFormat : List Char := "%Y-%m-%d %H:%M:%S".toList

/-- The functions `format` of the items. `strftime` is what is in the buffer for a format and a time. -/
def FormatItem.format (strftime : List Char → ℕ → String) (level : LogLevel) (event : LogEvent) : FormatItem → String
  | .StringFormatItem str => String.ofList str
  | .item .MessageFormatItem _ => event.content
  | .item .LevelFormatItem _ => level.ToString
  | .item .ElapseFormatItem _ => toString event.elapse
  | .item .NameFormatItem _ => event.logger
  | .item .ThreadFormatItem _ => toString event.threadId
  | .item .NewLineFormatItem _ => "\n"
  | .item .DateTimeFormatItem fmt => strftime (if fmt = [] then defaultTimeFormat else fmt) event.time
  | .item .FilenameFormatItem _ => event.file
  | .item .LineFormatItem _ => toString event.line
  | .item .TabFormatItem _ => "\t"
  | .item .FiberFormatItem _ => toString event.fiberId
  | .item .ThreadNameFormatItem _ => event.threadName

/-- `m_items`. The constructor always returns. -/
def LogFormatter.m_items (f : LogFormatter) : List FormatItem := ((init f.pattern.toList).map Prod.fst).getD []

/-- `LogFormatter::format`. -/
def LogFormatter.format (strftime : List Char → ℕ → String) (level : LogLevel) (event : LogEvent) (f : LogFormatter) : String :=
  String.join (f.m_items.map (FormatItem.format strftime level event))

/-- Something that is written to a file or to the standard output. -/
abbrev Written := AppenderKind × String

section

variable (strftime : List Char → ℕ → String)

/-- `log` of either type of appender. There is nothing to call where the formatter is null. -/
def LogAppender.log (ap : LogAppender LogFormatter) (level : LogLevel) (event : LogEvent) : Option (List Written) :=
  if ap.level.value ≤ level.value then ap.formatter.map fun f => [(ap.kind, f.format strftime level event)] else some []

/-- `Logger::log`, from what the root logger writes. -/
def Logging.log (s : Logging String ℕ LogFormatter) (name : String) (level : LogLevel) (event : LogEvent)
    (root : Option (List Written)) : Option (List Written) :=
  if (s.logger name).level ≤ level.value then
    if (s.logger name).appenders = [] then root
    else ((s.logger name).appenders.mapM fun i => (s.appender i).log strftime level event).map List.flatten
  else some []

/-- `Logger::log` of a logger of the manager, which has the root logger as its `m_root`, except for the root logger itself. -/
def LoggerManager.log (m : LoggerManager) (name : String) (level : LogLevel) (event : LogEvent) : Option (List Written) :=
  m.objects.log strftime name level event
    (if name = "root" then some [] else m.objects.log strftime "root" level event (some []))

/-- `AWCOTN_LOG_LEVEL`, with the destructor of the `LogEventWrap`. -/
def LoggerManager.AWCOTN_LOG_LEVEL (m : LoggerManager) (event : LogEvent) : Option (List Written) :=
  if (m.objects.logger event.logger).level ≤ event.level.value then m.log strftime event.logger event.level event else some []

/-! ### Runs -/

/-- What the values of `logs` say about a logger. -/
structure Settings where
  level : ℕ
  pattern : LogFormatter
  appenders : List (AppenderKind × LogLevel × Option LogFormatter)

namespace Settings

/-- Before any value names a logger. -/
def initial (name : String) : Settings where
  level := LogLevel.DEBUG.value
  pattern := ⟨LogFormatter.defaultPattern⟩
  appenders := if name = "root" then [(.stdout, .DEBUG, none)] else []

/-- A definition of the new value takes effect where it is not in the old one, and a name that is missing in the new one is disabled if any definition takes effect. -/
def reconfigured (old_value new_value : LogDefines) (settings : String → Settings) (name : String) : Settings :=
  match new_value.defines.find? fun d => d.name = name with
  | some d =>
    if LogDefines.find old_value.defines d = some d then settings name
    else
      { level := d.level.value
        pattern := if d.formatter = "" then (settings name).pattern else ⟨d.formatter⟩
        appenders := d.appenders.map LoggerManager.asked }
  | none =>
    if name ∈ old_value.defines.map LogDefine.name ∧ ∃ d ∈ new_value.defines, LogDefines.find old_value.defines d ≠ some d then
      { settings name with level := 100, appenders := [] }
    else settings name

/-- What an appender that shows something of itself writes, with the pattern of its logger unless it has its own. -/
def line (pattern : LogFormatter) (event : LogEvent) (shown : AppenderKind × LogLevel × Option LogFormatter) : List Written :=
  if shown.2.1.value ≤ event.level.value then [(shown.1, (shown.2.2.getD pattern).format strftime event.level event)] else []

/-- What is to be written for an event by the settings. -/
def written (settings : String → Settings) (event : LogEvent) : List Written :=
  if event.level.value < (settings event.logger).level then []
  else if (settings event.logger).appenders ≠ [] then
    (settings event.logger).appenders.flatMap (line strftime (settings event.logger).pattern event)
  else if event.level.value < (settings "root").level then []
  else (settings "root").appenders.flatMap (line strftime (settings "root").pattern event)

end Settings

/-- A statement logs an event to the logger of a name, or a value is assigned to `logs`; `at_` is the place of the statement in the listener. -/
inductive OutputAction
  | log (event : LogEvent)
  | setValue (val : LogDefines) (at_ : LogEvent)

/-- The loggers with what has been written, the oldest first. The settings are no part of the program. -/
structure Output where
  logs : LogsState
  written : List Written
  settings : String → Settings

namespace Output

def init : Output := { logs := .init, written := [], settings := Settings.initial }

/-- The event that the listener logs before it does anything else. -/
def changed (at_ : LogEvent) : LogEvent := { at_ with logger := "root", level := .INFO, content := "on_logger_conf_changed" }

/-- A statement asks for its logger by the name. An appender without a formatter ends the process. -/
def step (s : Output) : OutputAction → Outcome Unit Output
  | .log event =>
    let manager := s.logs.manager.getLogger event.logger
    match manager.AWCOTN_LOG_LEVEL strftime event with
    | some written => .next { s with logs := { s.logs with manager := manager }, written := s.written ++ written }
    | none => .abort ()
  | .setValue val at_ =>
    if val.defines = s.logs.value.defines then .next s
    else
      match s.logs.manager.AWCOTN_LOG_LEVEL strftime (changed at_) with
      | some written =>
        (s.logs.step (.setValue val)).map fun logs =>
          { logs := logs, written := s.written ++ written, settings := Settings.reconfigured s.logs.value val s.settings }
      | none => .abort ()

/-- What a call is to add. -/
def expected (s : Output) : OutputAction → List Written
  | .log event => Settings.written strftime s.settings event
  | .setValue val at_ =>
    if val.defines = s.logs.value.defines then [] else Settings.written strftime s.settings (changed at_)

end Output

end

/-! ### One statement -/

namespace LoggerManager

/-- A logger is as the settings say. -/
structure Shows (m : LoggerManager) (name : String) (c : Settings) : Prop where
  level : (m.objects.logger name).level = c.level
  formatter : (m.objects.logger name).formatter = some c.pattern
  appenders : m.shownAppenders name = c.appenders

/-- An appender with its own formatter, or with that of its logger. -/
def Given (formatter : Option LogFormatter) (ap : LogAppender LogFormatter) : Prop :=
  if ap.hasFormatter then ap.formatter.isSome = true else ap.formatter = formatter

/-- The appenders of a logger have their own formatters or that of the logger. -/
def Inherits (m : LoggerManager) (name : String) : Prop :=
  ∀ ap ∈ (m.objects.logger name).appenders, Given (m.objects.logger name).formatter (m.objects.appender ap)

variable {strftime : List Char → ℕ → String} {m m' : LoggerManager} {name : String}

/-- What an attached appender writes. -/
theorem appender_log {c : Settings} (hshows : m.Shows name c) (hinherits : m.Inherits name) (event : LogEvent) {ap : ℕ}
    (hap : ap ∈ (m.objects.logger name).appenders) : (m.objects.appender ap).log strftime event.level event =
      some (Settings.line strftime c.pattern event (shown (m.objects.appender ap))) := by
  have hformatter : (m.objects.appender ap).formatter =
      some ((shown (m.objects.appender ap)).2.2.getD c.pattern) := by
    have hown := hinherits ap hap
    rw [Given] at hown
    cases hhas : (m.objects.appender ap).hasFormatter with
    | false =>
        simp only [hhas, if_neg Bool.false_ne_true] at hown
        simp [shown, hhas, hown, hshows.formatter]
    | true =>
        simp only [hhas, if_true] at hown
        obtain ⟨f, hf⟩ := Option.isSome_iff_exists.1 hown
        simp [shown, hhas, hf]
  simp only [LogAppender.log, Settings.line, hformatter, Option.map_some]
  split_ifs with hlevel hlevel' hlevel'
  · rfl
  · exact absurd hlevel hlevel'
  · exact absurd hlevel' hlevel
  · rfl

theorem objects_log {c : Settings} (hshows : m.Shows name c) (hinherits : m.Inherits name) (event : LogEvent)
    (root : Option (List Written)) : m.objects.log strftime name event.level event root =
      if event.level.value < c.level then some []
      else if c.appenders ≠ [] then some (c.appenders.flatMap (Settings.line strftime c.pattern event)) else root := by
  have hempty : (m.objects.logger name).appenders = [] ↔ c.appenders = [] := by
    rw [← hshows.appenders, shownAppenders, List.map_eq_nil_iff]
  have hall : ((m.objects.logger name).appenders.mapM fun i => (m.objects.appender i).log strftime event.level event) =
      some ((m.objects.logger name).appenders.map fun ap =>
        Settings.line strftime c.pattern event (shown (m.objects.appender ap))) :=
    mapM_eq_some fun ap hap => appender_log hshows hinherits event hap
  rw [Logging.log, hshows.level, hall, Option.map_some]
  by_cases hlevel : event.level.value < c.level
  · rw [if_neg (by omega), if_pos hlevel]
  · rw [if_pos (by omega), if_neg hlevel]
    by_cases hnone : c.appenders = []
    · rw [if_pos (hempty.2 hnone), if_neg (by simpa using hnone)]
    · rw [if_neg (mt hempty.1 hnone), if_pos hnone, ← hshows.appenders, shownAppenders, List.flatMap_map]
      rfl

/-- A statement writes what the settings ask for. -/
theorem statement_eq {settings : String → Settings} (hshows : ∀ name, m.Shows name (settings name))
    (hinherits : ∀ name, m.Inherits name) (event : LogEvent) :
    m.AWCOTN_LOG_LEVEL strftime event = some (Settings.written strftime settings event) := by
  rw [AWCOTN_LOG_LEVEL, (hshows event.logger).level, log, objects_log (hshows event.logger) (hinherits event.logger),
    objects_log (hshows "root") (hinherits "root"), Settings.written]
  by_cases hlevel : event.level.value < (settings event.logger).level
  · rw [if_neg (by omega), if_pos hlevel]
  · rw [if_pos (by omega), if_neg hlevel, if_neg hlevel]
    by_cases hsome : (settings event.logger).appenders ≠ []
    · rw [if_pos hsome, if_pos hsome]
    · rw [if_neg hsome, if_neg hsome]
      by_cases hname : event.logger = "root"
      · rw [hname] at hsome hlevel
        rw [if_pos hname, if_neg hlevel, not_not.1 hsome]
        rfl
      · rw [if_neg hname]
        split_ifs with hlevel' hsome'
        · rfl
        · rfl
        · rw [not_not.1 hsome']
          rfl

/-! ### One assignment -/

theorem Moves.inherits {S : String → Prop} (h : Moves S m m') (hname : ¬ S name) (hinherits : m.Inherits name) :
    m'.Inherits name := by
  have hlogger := h.logger name hname
  intro ap hap
  rw [hlogger] at hap ⊢
  rw [h.appender name hname ap hap]
  exact hinherits ap hap

theorem inherits_of_empty (h : (m.objects.logger name).appenders = []) : m.Inherits name := by
  intro ap hap
  rw [h] at hap
  cases hap

theorem addDefined_given {a : LogAppenderDefine} (hrun : addDefined name m a = some m') :
    ∃ x, m' = m.attached name x ∧ Given (m.objects.logger name).formatter x := by
  obtain ⟨kind, -, rfl⟩ := Option.map_eq_some_iff.1 hrun
  by_cases hown : a.formatter ≠ "" ∧ (LogFormatter.mk a.formatter).isError = false
  · refine ⟨⟨kind, a.level, true, some ⟨a.formatter⟩⟩, ?_, by simp [Given]⟩
    simp [hown, create, on, Logging.setAppenderLevel, Logging.setAppenderFormatter, Logging.addAppender, attached,
      LogAppender.new]
  · refine ⟨⟨kind, a.level, false, (m.objects.logger name).formatter⟩, ?_, by simp [Given]⟩
    simp only [if_neg hown]
    simp [create, on, Logging.setAppenderLevel, Logging.addAppender, attached, LogAppender.new]

/-- An appender that is added takes the formatter of its logger or brings its own. -/
theorem attached_inherits (howned : m.Owned) (h : m.Inherits name) {x : LogAppender LogFormatter}
    (hx : Given (m.objects.logger name).formatter x) : (m.attached name x).Inherits name := by
  have hformatter : ((m.attached name x).objects.logger name).formatter = (m.objects.logger name).formatter := by
    simp [attached]
  intro ap hap
  have hap' : ap ∈ (m.objects.logger name).appenders ∨ ap = m.fresh := by simpa [attached] using hap
  rw [hformatter]
  rcases hap' with hold | rfl
  · have hkept : (m.attached name x).objects.appender ap = m.objects.appender ap :=
      Function.update_of_ne (Nat.ne_of_lt (howned.fresh name ap hold)) _ _
    rw [hkept]
    exact h ap hold
  · have hnew : (m.attached name x).objects.appender m.fresh = x := Function.update_self ..
    rw [hnew]
    exact hx

theorem addDefined_all_inherits (howned : m.Owned) (h : m.Inherits name) (hname : name ∈ m.names)
    {appenders : List LogAppenderDefine} (hrun : appenders.foldlM (addDefined name) m = some m') : m'.Inherits name := by
  induction appenders generalizing m with
  | nil =>
      cases hrun
      exact h
  | cons a appenders ih =>
      rw [List.foldlM_cons] at hrun
      obtain ⟨m₁, hadd, hrest⟩ := Option.bind_eq_some_iff.1 hrun
      obtain ⟨x, rfl, hx⟩ := addDefined_given hadd
      have hmoves := attached_moves howned hname x
      exact ih hmoves.owned (attached_inherits howned h hx) (hmoves.more name hname) hrest

/-- A definition leaves no appender of its logger without a formatter. -/
theorem configure_inherits (howned : m.Owned) (h : ∀ name, m.Inherits name) {d : LogDefine} (hd : d.Valid)
    (hrun : m.configure d = some m') (name : String) : m'.Inherits name := by
  obtain ⟨m₁, hrun', hmoves, -⟩ := configure_eq howned hd
  obtain rfl : m' = m₁ := Option.some.inj (hrun.symm.trans hrun')
  by_cases hname : name = d.name
  · subst hname
    have hget := getLogger_moves howned d.name
    have hin := mem_getLogger m d.name
    have hlevel := setLevel_moves hget.owned hin d.level.value
    simp only [configure] at hrun
    -- the appenders are cleared before the loop, whatever became of the formatter
    split_ifs at hrun with hformatter
    · have hset : Moves (· = d.name) ((m.getLogger d.name).on fun s => s.setLevel d.name d.level.value)
          (((m.getLogger d.name).on fun s => s.setLevel d.name d.level.value).on
            fun s => s.setFormatterString LogFormatter.mk LogFormatter.isError d.name d.formatter) := by
        have hvalid : (LogFormatter.mk d.formatter).isError = false := hd.formatter.resolve_left hformatter
        simp only [Logging.setFormatterString, hvalid, if_neg Bool.false_ne_true]
        exact setFormatter_moves hlevel.owned hin _
      have hclear := clearAppenders_moves hset.owned (hset.more _ hin)
      exact addDefined_all_inherits hclear.owned (inherits_of_empty (by simp [on, Logging.clearAppenders]))
        (hset.more _ hin) hrun
    · have hclear := clearAppenders_moves hlevel.owned hin
      exact addDefined_all_inherits hclear.owned (inherits_of_empty (by simp [on, Logging.clearAppenders])) hin hrun
  · exact hmoves.inherits hname (h name)

theorem removeAll_inherits (howned : m.Owned) (h : ∀ name, m.Inherits name) (new_value old_value : List LogDefine) :
    ∀ name, (removeAll new_value m old_value).Inherits name := by
  induction old_value generalizing m with
  | nil => exact h
  | cons i old_value ih =>
      simp only [removeAll]
      split_ifs
      · have hmoves := remove_moves howned i.name
        refine ih hmoves.owned fun name => ?_
        by_cases hname : name = i.name
        · rw [hname]
          exact inherits_of_empty (remove_disabled m i.name).appenders
        · exact hmoves.inherits hname (h name)
      · exact ih howned h

/-- A removal keeps the pattern of the logger. -/
theorem removeAll_formatter (howned : m.Owned) (new_value old_value : List LogDefine) (name : String) :
    ((removeAll new_value m old_value).objects.logger name).formatter = (m.objects.logger name).formatter := by
  induction old_value generalizing m with
  | nil => rfl
  | cons i old_value ih =>
      simp only [removeAll]
      split_ifs
      · rw [ih (remove_moves howned i.name).owned]
        by_cases hname : name = i.name
        · simp [hname, remove, on, Logging.setLevel, Logging.clearAppenders, getLogger_objects howned]
        · rw [(remove_moves howned i.name).logger name hname]
      · exact ih howned

theorem changeFrom_inherits (howned : m.Owned) (h : ∀ name, m.Inherits name) {old_value new_value rest : List LogDefine}
    (hvalid : ∀ d ∈ rest, d.Valid) (hrun : changeFrom old_value new_value m rest = some m') : ∀ name, m'.Inherits name := by
  induction rest generalizing m with
  | nil =>
      cases hrun
      exact h
  | cons i rest ih =>
      have hvalid' : ∀ d ∈ rest, d.Valid := fun d hd => hvalid d (List.mem_cons_of_mem _ hd)
      simp only [changeFrom] at hrun
      split_ifs at hrun
      · exact ih howned h hvalid' hrun
      · obtain ⟨m₁, hconfigure, hrest⟩ := Option.bind_eq_some_iff.1 hrun
        obtain ⟨m₂, hconfigure', hmoves, -⟩ := configure_eq howned (hvalid i List.mem_cons_self)
        obtain rfl : m₁ = m₂ := Option.some.inj (hconfigure.symm.trans hconfigure')
        have hinherits := configure_inherits howned h (hvalid i List.mem_cons_self) hconfigure
        exact ih (removeAll_spec hmoves.owned old_value new_value).1.owned (removeAll_inherits hmoves.owned hinherits _ _)
          hvalid' hrest

/-- A logger that no definition names keeps its pattern. -/
theorem changeFrom_formatter (howned : m.Owned) {old_value new_value rest : List LogDefine} (hvalid : ∀ d ∈ rest, d.Valid)
    (hname : name ∉ rest.map LogDefine.name) (hrun : changeFrom old_value new_value m rest = some m') :
    (m'.objects.logger name).formatter = (m.objects.logger name).formatter := by
  induction rest generalizing m with
  | nil =>
      cases hrun
      rfl
  | cons i rest ih =>
      have hvalid' : ∀ d ∈ rest, d.Valid := fun d hd => hvalid d (List.mem_cons_of_mem _ hd)
      rw [List.map_cons, List.mem_cons, not_or] at hname
      simp only [changeFrom] at hrun
      split_ifs at hrun
      · exact ih howned hvalid' hname.2 hrun
      · obtain ⟨m₁, hconfigure, hrest⟩ := Option.bind_eq_some_iff.1 hrun
        obtain ⟨m₂, hconfigure', hmoves, -⟩ := configure_eq howned (hvalid i List.mem_cons_self)
        obtain rfl : m₁ = m₂ := Option.some.inj (hconfigure.symm.trans hconfigure')
        rw [ih (removeAll_spec hmoves.owned old_value new_value).1.owned hvalid' hname.2 hrest,
          removeAll_formatter hmoves.owned, hmoves.logger name hname.1]

end LoggerManager

/-! ### Whole runs -/

namespace Output

open LoggerManager

variable {strftime : List Char → ℕ → String}

/-- The loggers are as the settings say, and no appender is without a formatter. -/
structure Inv (s : Output) : Prop where
  logs : s.logs.Inv
  shows : ∀ name, s.logs.manager.Shows name (s.settings name)
  inherits : ∀ name, s.logs.manager.Inherits name

theorem init_inv : init.Inv where
  logs := LogsState.init_inv
  shows name := by
    by_cases hroot : name = "root"
    · subst hroot
      constructor <;>
        simp [init, LogsState.init, LoggerManager.init, Logging.addAppender, newLogger, Logger.new, Settings.initial,
          shownAppenders, shown, LogAppender.new]
    · constructor <;>
        simp [init, LogsState.init, LoggerManager.init, Logging.addAppender, newLogger, Logger.new, Settings.initial,
          shownAppenders, hroot]
  inherits name ap hap := by
    by_cases hroot : name = "root"
    · subst hroot
      simp [init, LogsState.init, LoggerManager.init, Logging.addAppender, newLogger, Logger.new, Given, LogAppender.new] at hap ⊢
      simp [hap]
    · simp [init, LogsState.init, LoggerManager.init, Logging.addAppender, newLogger, Logger.new, hroot] at hap

/-- Asking for a logger changes none that there is. -/
theorem shows_getLogger {m : LoggerManager} (howned : m.Owned) {name : String} {c : Settings} (h : m.Shows name c)
    (hinherits : m.Inherits name) (asked : String) : (m.getLogger asked).Shows name c ∧ (m.getLogger asked).Inherits name := by
  have hobjects := getLogger_objects howned asked
  refine ⟨⟨?_, ?_, ?_⟩, ?_⟩
  · rw [hobjects, h.level]
  · rw [hobjects, h.formatter]
  · rw [shownAppenders, hobjects]
    exact h.appenders
  · rw [LoggerManager.Inherits, hobjects]
    exact hinherits

/-- What the listener has run. -/
theorem onLogsChanged_of_step {s t : LogsState} {val : LogDefines} (hne : val.defines ≠ s.value.defines)
    (hstep : s.step (.setValue val) = .next t) :
    changeFrom s.value.defines val.defines s.manager val.defines = some t.manager := by
  simp only [LogsState.step, if_neg hne, onLogsChanged] at hstep
  split at hstep
  · rename_i m hm
    cases hstep
    exact hm
  · cases hstep

theorem shows_of_moves {S : String → Prop} {m m' : LoggerManager} (hmoves : Moves S m m') {name : String} (hname : ¬ S name)
    {c : Settings} (h : m.Shows name c) : m'.Shows name c where
  level := by rw [hmoves.logger name hname, h.level]
  formatter := by rw [hmoves.logger name hname, h.formatter]
  appenders := by
    rw [← h.appenders, shownAppenders, shownAppenders, hmoves.logger name hname]
    exact List.map_congr_left fun ap hap => congrArg shown (hmoves.appender name hname ap hap)

/-- The loggers after an assignment of another value. -/
theorem shows_setValue {s : Output} (h : s.Inv) {val : LogDefines} (hne : val.defines ≠ s.logs.value.defines) {t : LogsState}
    (hstep : s.logs.step (.setValue val) = .next t) (name : String) :
    t.manager.Shows name (Settings.reconfigured s.logs.value val s.settings name) := by
  obtain ⟨-, -, hmoves, hpatched, hdisabled⟩ := LogsState.setValue_spec h.logs hne hstep
  have hbefore := h.shows name
  rw [Settings.reconfigured]
  cases hfind : val.defines.find? fun d => d.name = name with
  | some d =>
      have hd := List.mem_of_find?_eq_some hfind
      obtain rfl : d.name = name := by simpa using List.find?_some hfind
      dsimp only
      by_cases hsame : LogDefines.find s.logs.value.defines d = some d
      · rw [if_pos hsame]
        exact shows_of_moves hmoves (LogsState.not_reached_of_same hd (not_not.2 hsame)) hbefore
      · rw [if_neg hsame]
        have hpatch := hpatched d hd hsame
        refine ⟨hpatch.level, ?_, hpatch.appenders⟩
        rw [hpatch.formatter, hbefore.formatter]
        split_ifs <;> rfl
  | none =>
      have hnone : name ∉ val.defines.map LogDefine.name := by
        rw [List.find?_eq_none] at hfind
        rintro hin
        obtain ⟨d, hd, rfl⟩ := List.mem_map.1 hin
        have hother := hfind d hd
        simp at hother
      dsimp only
      by_cases hgone : name ∈ s.logs.value.defines.map LogDefine.name ∧
          ∃ d ∈ val.defines, LogDefines.find s.logs.value.defines d ≠ some d
      · rw [if_pos hgone]
        obtain ⟨hin, hchanged⟩ := hgone
        obtain ⟨e, he, rfl⟩ := List.mem_map.1 hin
        have hoff := hdisabled hchanged e.name ⟨e, he, rfl, LogDefines.find_eq_none.2 hnone⟩
        refine ⟨hoff.level, ?_, ?_⟩
        · rw [changeFrom_formatter h.logs.owned val.valid hnone (onLogsChanged_of_step hne hstep), hbefore.formatter]
        · rw [shownAppenders, hoff.appenders, List.map_nil]
      · rw [if_neg hgone]
        refine shows_of_moves hmoves ?_ hbefore
        rintro ⟨d, hd, hchanged, rfl | ⟨e, he, rfl, -⟩⟩
        · exact hnone (List.mem_map_of_mem hd)
        · exact hgone ⟨List.mem_map_of_mem he, d, hd, hchanged⟩

/-- An assignment of another value always returns. -/
theorem setValue_returns {s : LogsState} (h : s.Inv) {val : LogDefines} (hne : val.defines ≠ s.value.defines) :
    ∃ t, s.step (.setValue val) = .next t := by
  have hsub : ∀ d ∈ val.defines, LogDefines.find val.defines d ≠ none := fun d hd => by simp [val.find_self hd]
  obtain ⟨m, hrun, -⟩ := changeFrom_spec h.owned s.value.defines val.valid hsub val.names_nodup
  simp only [LogsState.step, if_neg hne, onLogsChanged, hrun]
  exact ⟨_, rfl⟩

/-- What a step comes to. -/
theorem step_expected {s : Output} (h : s.Inv) (a : OutputAction) :
    ∃ t, step strftime s a = .next t ∧ t.written = s.written ++ expected strftime s a ∧ t.Inv := by
  cases a with
  | log event =>
      have howned := h.logs.owned
      have hget := fun name => shows_getLogger howned (h.shows name) (h.inherits name) event.logger
      have hstatement : (s.logs.manager.getLogger event.logger).AWCOTN_LOG_LEVEL strftime event =
          some (Settings.written strftime s.settings event) :=
        statement_eq (fun name => (hget name).1) (fun name => (hget name).2) event
      simp only [step, hstatement]
      refine ⟨_, rfl, rfl, ⟨(getLogger_moves howned event.logger).owned, h.logs.ever⟩, fun name => (hget name).1,
        fun name => (hget name).2⟩
  | setValue val at_ =>
      by_cases hsame : val.defines = s.logs.value.defines
      · refine ⟨s, by simp only [step, if_pos hsame], ?_, h⟩
        rw [expected, if_pos hsame, List.append_nil]
      · have hstatement : s.logs.manager.AWCOTN_LOG_LEVEL strftime (changed at_) =
            some (Settings.written strftime s.settings (changed at_)) := statement_eq h.shows h.inherits (changed at_)
        obtain ⟨t, ht⟩ := setValue_returns h.logs hsame
        simp only [step, if_neg hsame, hstatement, ht, Outcome.map]
        refine ⟨_, rfl, ?_, LogsState.step_inv _ _ _ h.logs ht, shows_setValue h hsame ht, ?_⟩
        · rw [expected, if_neg hsame]
        · exact changeFrom_inherits h.logs.owned h.inherits val.valid (onLogsChanged_of_step hsame ht)

end Output

end Awcotn
