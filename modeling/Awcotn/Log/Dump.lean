import Awcotn.Config.RoundTrip
import Awcotn.Foundation.OrderedSet
import Awcotn.Log.Codec
import Awcotn.Log.Reload
import Mathlib.Data.String.Basic

/-!
# Loggers as text

The functions `toYamlString` of the appenders, of a logger and of the `LoggerManager`, and the cast from a text to a value of `logs`. What they write of a logger is what the cast makes a definition of: `ofString_dump` says which one.
-/

namespace Awcotn

open Yaml

/-- `LogLevel::ToString` of any number that was cast to a level. -/
def LogLevel.toStringOf : ℕ → String
  | 1 => "DEBUG"
  | 2 => "INFO"
  | 3 => "WARN"
  | 4 => "ERROR"
  | 5 => "FATAL"
  | _ => "UNKNOW"

/-! ### The writers -/

namespace LogAppender

/-- What both types of appenders write behind their own fields. -/
def common (ap : LogAppender LogFormatter) (node : Node) : Option Node := do
  let node ← if ap.level ≠ .UNKNOW then node.assign "level" (.Scalar ap.level.ToString) else pure node
  match ap.formatter with
  | some f => if ap.hasFormatter then node.assign "formatter" (.Scalar f.pattern) else pure node
  | none => pure node

/-- The node of `StdoutLogAppender::toYamlString`. -/
def stdoutNode (ap : LogAppender LogFormatter) : Option Node := do
  common ap (← Node.Null.assign "type" (.Scalar "StdoutLogAppender"))

/-- The node of `FileLogAppender::toYamlString`. -/
def fileNode (ap : LogAppender LogFormatter) (filename : String) : Option Node := do
  let node ← Node.Null.assign "type" (.Scalar "FileLogAppender")
  common ap (← node.assign "file" (.Scalar filename))

/-- `LogAppender::toYamlString`. -/
def toYamlString (Y : Yaml) (ap : LogAppender LogFormatter) : Option String :=
  (match ap.kind with
    | .stdout => stdoutNode ap
    | .file filename => fileNode ap filename).map Y.emit

end LogAppender

/-- `node["appenders"].push_back(item)`. -/
def Logger.pushAppender (node item : Node) : Option Node := do
  let appenders ← node.get "appenders"
  node.assign "appenders" (← (appenders.getD .Null).push_back item)

/-- `Logger::toYamlString`. -/
def Logger.toYamlString (Y : Yaml) (m_name : String) (l : Logger ℕ LogFormatter) (appender : ℕ → LogAppender LogFormatter) :
    Option String := do
  let node ← Node.Null.assign "name" (.Scalar m_name)
  let node ← node.assign "level" (.Scalar (LogLevel.toStringOf l.level))
  let node ←
    match l.formatter with
    | some f => node.assign "formatter" (.Scalar f.pattern)
    | none => pure node
  let node ← l.appenders.foldlM (fun node i => do
    Logger.pushAppender node (← Y.Load (← (appender i).toYamlString Y))) node
  return Y.emit node

namespace LoggerManager

/-- The names in the order of the map `m_loggers`. -/
def loggers (m : LoggerManager) : List String := m.names.foldr (OrderedSet.insert (· < ·) id) []

/-- `LoggerManager::toYamlString`. -/
def toYamlString (Y : Yaml) (m : LoggerManager) : Option String := do
  let node ← m.loggers.foldlM (fun (node : Node) name => do
    node.push_back (← Y.Load (← Logger.toYamlString Y name (m.objects.logger name) m.objects.appender))) Node.Null
  return Y.emit node

end LoggerManager

/-! ### The reader -/

/-- A `std::set<LogDefine>`, whose definitions may be of any kind. -/
structure LogDefineSet where
  defines : List LogDefine
  sorted : OrderedSet.Sorted (· < ·) LogDefine.name defines

namespace LogDefineSet

theorem sorted_nil : OrderedSet.Sorted (· < ·) LogDefine.name [] := List.Pairwise.nil

def empty : LogDefineSet := { defines := [], sorted := sorted_nil }

def insert (s : LogDefineSet) (d : LogDefine) : LogDefineSet where
  defines := OrderedSet.insert (· < ·) LogDefine.name d s.defines
  sorted := OrderedSet.sorted_insert s.sorted

/-- `LexicalCast<std::string, std::set<LogDefine>>`. -/
def ofString (Y : Yaml) (v : String) : Option LogDefineSet :=
  (LexicalCast.sequenceItems Y (LogDefine.decode Y) v).map fun items => items.foldl insert empty

/-- A set that definitions are inserted into in the order of their names holds them in that order. -/
theorem foldl_insert {items : List LogDefine} (hsorted : OrderedSet.Sorted (· < ·) LogDefine.name items) :
    (items.foldl insert empty).defines = items := by
  have hdefines : ∀ (items : List LogDefine) (s : LogDefineSet), (items.foldl insert s).defines =
      items.foldl (fun l d => OrderedSet.insert (· < ·) LogDefine.name d l) s.defines := by
    intro items
    induction items with
    | nil => intro s; rfl
    | cons d items ih => intro s; exact ih (s.insert d)
  rw [hdefines]
  exact OrderedSet.foldl_insert_of_sorted (l := []) hsorted

end LogDefineSet

/-! ### What is written -/

/-- A formatter that a logger or an appender can have been given. -/
structure LogFormatter.Usable (f : LogFormatter) : Prop where
  nonempty : f.pattern ≠ ""
  valid : f.isError = false

/-- Loggers have formatters, and an appender that has its own has one. Levels are levels, or 100. -/
structure Logging.Sound (s : Logging String ℕ LogFormatter) : Prop where
  formatter : ∀ name, ∃ f, (s.logger name).formatter = some f ∧ f.Usable
  own : ∀ ap, (s.appender ap).hasFormatter = true → ∃ f, (s.appender ap).formatter = some f ∧ f.Usable
  level : ∀ name, (s.logger name).level = 100 ∨ ∃ level : LogLevel, (s.logger name).level = level.value

/-- The definition that an appender is written as. -/
def LogAppender.define (ap : LogAppender LogFormatter) : LogAppenderDefine where
  type := match ap.kind with
    | .file _ => 1
    | .stdout => 2
  level := ap.level
  formatter := if ap.hasFormatter then (ap.formatter.map LogFormatter.pattern).getD "" else ""
  file := match ap.kind with
    | .file filename => filename
    | .stdout => ""

/-- The definition that is read from what is written of a logger. -/
def LoggerManager.dumped (m : LoggerManager) (name : String) : LogDefine where
  name := name
  level := LogLevel.FromString (LogLevel.toStringOf (m.objects.logger name).level)
  formatter := ((m.objects.logger name).formatter.map LogFormatter.pattern).getD ""
  appenders := (m.objects.logger name).appenders.map fun ap => LogDefine.forget (m.objects.appender ap).define

theorem LogAppender.define_type (ap : LogAppender LogFormatter) :
    ap.define.type = 1 ∨ ap.define.type = 2 ∧ ap.define.file = "" := by
  cases hkind : ap.kind with
  | file filename => exact .inl (by simp [define, hkind])
  | stdout => exact .inr ⟨by simp [define, hkind], by simp [define, hkind]⟩

/-- An appender is written like its definition. -/
theorem LogAppender.toYamlString_eq (Y : Yaml) {ap : LogAppender LogFormatter}
    (hown : ap.hasFormatter = true → ∃ f, ap.formatter = some f ∧ f.Usable) :
    ap.toYamlString Y = some (Y.emit (.Map (LogDefine.appenderEntries ap.define))) := by
  rw [← Option.map_some, ← LogDefine.encodeAppender_eq (ap.define_type.imp_right And.left)]
  refine congrArg (Option.map Y.emit) ?_
  have hcommon : ∀ node : Node, common ap node = (do
      let na ← if ap.define.level ≠ .UNKNOW then node.assign "level" (.Scalar ap.define.level.ToString) else pure node
      if ap.define.formatter ≠ "" then na.assign "formatter" (.Scalar ap.define.formatter) else pure na) := by
    intro node
    cases hhas : ap.hasFormatter with
    | true =>
        obtain ⟨f, hf, husable⟩ := hown hhas
        simp [common, define, hhas, hf, husable.nonempty]
    | false =>
        simp only [common, define, hhas]
        cases ap.formatter <;> simp
  cases hkind : ap.kind with
  | stdout =>
      have htype : ap.define.type = 2 := by simp [define, hkind]
      simp [stdoutNode, hcommon, LogDefine.encodeAppender, htype]
  | file filename =>
      have htype : ap.define.type = 1 := by simp [define, hkind]
      have hfile : ap.define.file = filename := by simp [define, hkind]
      simp [fileNode, hcommon, LogDefine.encodeAppender, htype, hfile]

namespace LoggerManager

variable {Y : Yaml} {m : LoggerManager}

/-- What is written of a logger in front of its appenders. -/
def head (m : LoggerManager) (name : String) : List (String × Node) :=
  [("name", .Scalar name), ("level", .Scalar (LogLevel.toStringOf (m.objects.logger name).level)),
    ("formatter", .Scalar (((m.objects.logger name).formatter.map LogFormatter.pattern).getD ""))]

/-- The definitions of the appenders of a logger. -/
def defines (m : LoggerManager) (name : String) : List LogAppenderDefine :=
  (m.objects.logger name).appenders.map fun ap => (m.objects.appender ap).define

theorem defines_type (m : LoggerManager) (name : String) : ∀ a ∈ m.defines name, a.type = 1 ∨ a.type = 2 ∧ a.file = "" := by
  intro a ha
  obtain ⟨ap, -, rfl⟩ := List.mem_map.1 ha
  exact LogAppender.define_type _

/-- The node of a logger. -/
def dumpNode (m : LoggerManager) (name : String) : Node := .Map (m.head name ++ LogDefine.appendersEntry (m.defines name))

theorem dump_logger (hY : Y.Lawful) (hs : m.objects.Sound) (name : String) :
    Logger.toYamlString Y name (m.objects.logger name) m.objects.appender = some (Y.emit (m.dumpNode name)) := by
  obtain ⟨f, hf, -⟩ := hs.formatter name
  have hpush : (fun (node : Node) i => do
      Logger.pushAppender node (← Y.Load (← (m.objects.appender i).toYamlString Y))) =
      fun node i => LogDefine.pushAppender node (m.objects.appender i).define := by
    funext node i
    rw [LogAppender.toYamlString_eq Y (hs.own i)]
    simp only [LogDefine.pushAppender, LogDefine.encodeAppender_eq ((LogAppender.define_type _).imp_right And.left),
      Option.bind_eq_bind, Option.bind_some, hY.load_emit, Logger.pushAppender]
  have hloop : (m.objects.logger name).appenders.foldlM (fun node i =>
      LogDefine.pushAppender node (m.objects.appender i).define) (.Map (m.head name)) = some (m.dumpNode name) := by
    rw [← List.foldlM_map (f := fun i => (m.objects.appender i).define)]
    exact LogDefine.foldlM_appenders (by simp [head]) fun a ha => (m.defines_type name a ha).imp_right And.left
  simp only [Logger.toYamlString, hpush, hf]
  rw [head, hf, Option.map_some, Option.getD_some] at hloop
  simp [Node.assign, Node.assignEntry, hloop]

theorem decode_dump (hY : Y.Lawful) (name : String) :
    LogDefine.decode Y (Y.emit (m.dumpNode name)) = some (m.dumped name) := by
  have hnew : "appenders" ∉ (m.head name).map Prod.fst := by simp [head]
  have happenders := LogDefine.decodeAppenders_eq hY hnew (m.defines_type name)
  have hname : (m.dumpNode name).get "name" = some (some (.Scalar name)) := by simp [dumpNode, Node.get, head]
  have hlevel : Y.text (m.dumpNode name) "level" "" = some (LogLevel.toStringOf (m.objects.logger name).level) := by
    simp [text, dumpNode, Node.get, head, List.lookup_cons, hY.asString_scalar]
  have hformatter : Y.text (m.dumpNode name) "formatter" "" =
      some (((m.objects.logger name).formatter.map LogFormatter.pattern).getD "") := by
    simp [text, dumpNode, Node.get, head, List.lookup_cons, hY.asString_scalar]
  rw [← dumpNode] at happenders
  simp only [LogDefine.decode, hY.load_emit, hname, hlevel, hformatter, happenders, hY.asString_scalar,
    Option.bind_eq_bind, Option.bind_some]
  simp [dumped, defines]

/-! ### The whole text -/

theorem loggers_perm (hnames : m.names.Nodup) : m.loggers.Perm m.names :=
  OrderedSet.foldr_insert_perm (by simpa using hnames)

theorem dump_eq (hY : Y.Lawful) (hs : m.objects.Sound) (hne : m.loggers ≠ []) :
    m.toYamlString Y = some (Y.emit (.Sequence (m.loggers.map m.dumpNode))) := by
  have hnodes : m.loggers.mapM (fun name =>
      (Logger.toYamlString Y name (m.objects.logger name) m.objects.appender).bind Y.Load) = some (m.loggers.map m.dumpNode) :=
    mapM_eq_some fun name _ => by rw [dump_logger hY hs, Option.bind_some, hY.load_emit]
  have hloop := foldlM_push_back (fun name =>
    (Logger.toYamlString Y name (m.objects.logger name) m.objects.appender).bind Y.Load) [] m.loggers
  rw [hnodes, Option.map_some, List.nil_append] at hloop
  have hshape : m.toYamlString Y = (m.loggers.foldlM (fun (node : Node) name => do
      node.push_back (← (Logger.toYamlString Y name (m.objects.logger name) m.objects.appender).bind Y.Load)) .Null).map
      Y.emit := by
    simp only [toYamlString, Option.bind_eq_bind, Option.bind_assoc, Option.map_eq_bind]
    rfl
  obtain ⟨name, rest, hcons⟩ := List.exists_cons_of_ne_nil hne
  rw [hcons] at hloop hshape ⊢
  -- the first item makes a sequence of the Null node
  have hnull : ∀ item : Node, Node.push_back .Null item = Node.push_back (.Sequence []) item := fun _ => rfl
  simp only [List.foldlM_cons, ← hnull] at hloop
  rw [hshape, List.foldlM_cons, hloop, Option.map_some]

/-- The text of the loggers is read as their definitions. -/
theorem ofString_dump (hY : Y.Lawful) (hs : m.objects.Sound) (hnames : m.names.Nodup) (hne : m.names ≠ []) :
    ∃ text value, m.toYamlString Y = some text ∧ LogDefineSet.ofString Y text = some value ∧
      value.defines = m.loggers.map m.dumped := by
  have hperm := loggers_perm hnames
  have hne' : m.loggers ≠ [] := fun h => hne (by simpa [h] using hperm.symm)
  have hitems : LexicalCast.sequenceItems Y (LogDefine.decode Y) (Y.emit (.Sequence (m.loggers.map m.dumpNode))) =
      some (m.loggers.map m.dumped) := by
    rw [LexicalCast.items_of_sequence hY, List.mapM_map]
    exact mapM_eq_some fun name _ => decode_dump hY name
  have hsorted : OrderedSet.Sorted (· < ·) LogDefine.name (m.loggers.map m.dumped) := by
    rw [OrderedSet.Sorted, List.pairwise_map]
    exact OrderedSet.sorted_foldr_insert m.names
  refine ⟨_, _, dump_eq hY hs hne', by rw [LogDefineSet.ofString, hitems, Option.map_some], ?_⟩
  exact LogDefineSet.foldl_insert hsorted

end LoggerManager

end Awcotn
