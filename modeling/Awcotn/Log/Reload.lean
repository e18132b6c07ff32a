import Awcotn.Log.Define

/-!
# Reloading the log configuration

`LoggerManager` and the listener of `LogIniter` in `log.cc`, which compares the old and the new value of the variable `logs` and brings the loggers from one to the other. A logger is found by its name, so the name is its address; appenders are created at new addresses. The functions return `none` where an appender of an unknown type would be a null pointer.
-/

namespace Awcotn

open Transition

/-- The names in `m_loggers`, the objects, and the next address for an appender. -/
structure LoggerManager where
  names : List String
  objects : Logging String ℕ LogFormatter
  fresh : ℕ

namespace LoggerManager

/-- A logger as it is constructed. -/
def newLogger : Logger ℕ LogFormatter := Logger.new ⟨LogFormatter.defaultPattern⟩

/-- `LoggerManager::LoggerManager`: the root logger with an appender for the standard output. -/
def init : LoggerManager where
  names := ["root"]
  objects := Logging.addAppender { logger := fun _ => newLogger, appender := fun _ => LogAppender.new .stdout } "root" 0
  fresh := 1

def getLogger (m : LoggerManager) (name : String) : LoggerManager :=
  if name ∈ m.names then m
  else
    { m with
      names := name :: m.names
      objects := { m.objects with logger := Function.update m.objects.logger name newLogger } }

/-- Apply an operation to the objects. -/
def on (m : LoggerManager) (f : Logging String ℕ LogFormatter → Logging String ℕ LogFormatter) : LoggerManager :=
  { m with objects := f m.objects }

/-- The object of an appender definition's type. -/
def kind (a : LogAppenderDefine) : Option AppenderKind :=
  if a.type = 1 then some (.file a.file)
  else if a.type = 2 then some .stdout
  else none

/-- Create an appender. -/
def create (m : LoggerManager) (kind : AppenderKind) : LoggerManager :=
  { m with
    objects := { m.objects with appender := Function.update m.objects.appender m.fresh (LogAppender.new kind) }
    fresh := m.fresh + 1 }

/-- One iteration of the loop over the appender definitions of a logger. -/
def addDefined (name : String) (m : LoggerManager) (a : LogAppenderDefine) : Option LoggerManager :=
  (kind a).map fun kind =>
    let ap := m.fresh
    let m := (m.create kind).on fun s => s.setAppenderLevel ap a.level
    let m :=
      if a.formatter ≠ "" ∧ (LogFormatter.mk a.formatter).isError = false then
        m.on fun s => s.setAppenderFormatter ap (some ⟨a.formatter⟩)
      else m
    m.on fun s => s.addAppender name ap

/-- What the listener does with an added or changed definition. -/
def configure (m : LoggerManager) (i : LogDefine) : Option LoggerManager :=
  let m := m.getLogger i.name
  let m := m.on fun s => s.setLevel i.name i.level.value
  let m :=
    if i.formatter ≠ "" then m.on fun s => s.setFormatterString LogFormatter.mk LogFormatter.isError i.name i.formatter
    else m
  let m := m.on fun s => s.clearAppenders i.name
  i.appenders.foldlM (addDefined i.name) m

/-- What the listener does with a removed definition. -/
def remove (m : LoggerManager) (name : String) : LoggerManager :=
  ((m.getLogger name).on fun s => s.setLevel name 100).on fun s => s.clearAppenders name

/-- The loop over the old value at the end of an iteration over the new one. -/
def removeAll (new_value : List LogDefine) (m : LoggerManager) : List LogDefine → LoggerManager
  | [] => m
  | i :: old_value =>
    if LogDefines.find new_value i = none then removeAll new_value (m.remove i.name) old_value
    else removeAll new_value m old_value

/-- The loop over the new value, from some definition on. -/
def changeFrom (old_value new_value : List LogDefine) : LoggerManager → List LogDefine → Option LoggerManager
  | m, [] => some m
  | m, i :: rest =>
    if LogDefines.find old_value i = some i then changeFrom old_value new_value m rest
    else
      (m.configure i).bind fun m => changeFrom old_value new_value (removeAll new_value m old_value) rest

/-- The listener on `logs`. -/
def onLogsChanged (m : LoggerManager) (old_value new_value : List LogDefine) : Option LoggerManager :=
  changeFrom old_value new_value m new_value

end LoggerManager

/-! ### Runs -/

/-- A logger is asked for, or a value is assigned to `logs`. -/
inductive LogsAction
  | getLogger (name : String)
  | setValue (val : LogDefines)

/-- The loggers, the value of `logs`, and the names in the values it has had. -/
structure LogsState where
  manager : LoggerManager
  value : LogDefines
  ever : List String

namespace LogsState

def init : LogsState := { manager := .init, value := .empty, ever := [] }

/-- `setValue` calls the listener unless the value is the same. -/
def step (s : LogsState) : LogsAction → Outcome Unit LogsState
  | .getLogger name => .next { s with manager := s.manager.getLogger name }
  | .setValue val =>
    if val.defines = s.value.defines then .next s
    else
      match s.manager.onLogsChanged s.value.defines val.defines with
      | some m => .next { manager := m, value := val, ever := val.defines.map LogDefine.name ++ s.ever }
      | none => .abort ()

end LogsState

/-! ### What a configuration asks for -/

namespace LoggerManager

/-- What an appender shows of itself: its type and file, its level, and its own formatter. -/
def shown (ap : LogAppender LogFormatter) : AppenderKind × LogLevel × Option LogFormatter :=
  (ap.kind, ap.level, if ap.hasFormatter then ap.formatter else none)

/-- What the appenders of a logger show, in order. -/
def shownAppenders (m : LoggerManager) (name : String) : List (AppenderKind × LogLevel × Option LogFormatter) :=
  (m.objects.logger name).appenders.map fun ap => shown (m.objects.appender ap)

/-- The pattern a definition gives, the default pattern when it gives none. -/
def patternOf (d : LogDefine) : LogFormatter := if d.formatter = "" then ⟨LogFormatter.defaultPattern⟩ else ⟨d.formatter⟩

/-- What an appender definition asks an appender to show. -/
def asked (a : LogAppenderDefine) : AppenderKind × LogLevel × Option LogFormatter :=
  (if a.type = 1 then .file a.file else .stdout, a.level, if a.formatter = "" then none else some ⟨a.formatter⟩)

/-- The logger of a definition is as the definition says. -/
structure Configured (m : LoggerManager) (d : LogDefine) : Prop where
  exists_ : d.name ∈ m.names
  level : (m.objects.logger d.name).level = d.level.value
  formatter : (m.objects.logger d.name).formatter = some (patternOf d)
  appenders : m.shownAppenders d.name = d.appenders.map asked

/-- The logger of a name is disabled. -/
structure Disabled (m : LoggerManager) (name : String) : Prop where
  level : (m.objects.logger name).level = 100
  appenders : (m.objects.logger name).appenders = []

end LoggerManager

namespace LogsState

/-- Every logger named in the value is as the value says, and every logger named before and not any more is disabled. -/
def Follows (s : LogsState) : Prop :=
  (∀ d ∈ s.value.defines, s.manager.Configured d) ∧
    ∀ name ∈ s.ever, name ∉ s.value.defines.map LogDefine.name → s.manager.Disabled name

/-- An assignment leaves every logger that no value has named as it is. -/
def OthersKept (s : LogsState) : LogsAction → Prop
  | .getLogger _ => True
  | .setValue val => ∀ t, s.step (.setValue val) = .next t → ∀ name, name ∉ t.ever →
    (name ∈ t.manager.names ↔ name ∈ s.manager.names) ∧
      t.manager.objects.logger name = s.manager.objects.logger name ∧
      ∀ ap ∈ (s.manager.objects.logger name).appenders, t.manager.objects.appender ap = s.manager.objects.appender ap

/-- A change that removes a definition also adds or changes one, and each definition that it adds or changes without a formatter finds its logger with the default pattern. -/
def Complete (s : LogsState) : LogsAction → Prop
  | .getLogger _ => True
  | .setValue val =>
    ((∃ d ∈ s.value.defines, LogDefines.find val.defines d = none) →
      ∃ d ∈ val.defines, LogDefines.find s.value.defines d ≠ some d) ∧
    ∀ d ∈ val.defines, LogDefines.find s.value.defines d ≠ some d → d.formatter = "" →
      (s.manager.objects.logger d.name).formatter = some ⟨LogFormatter.defaultPattern⟩

end LogsState

end Awcotn
