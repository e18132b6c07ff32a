import Awcotn.Foundation.BlockStyle
import Awcotn.Log.Define
import Mathlib.Data.List.ReduceOption

/-!
# Log definitions as text

`LogLevel::ToString` and `LogLevel::FromString`, and the two `LexicalCast` between a `LogDefine` and its YAML text. The writer puts out the level of an appender and the reader does not look for it: `decode_encode` says what comes back.
-/

namespace Awcotn

open Yaml

namespace LogLevel

def ToString : LogLevel → String
  | DEBUG => "DEBUG"
  | INFO => "INFO"
  | WARN => "WARN"
  | ERROR => "ERROR"
  | FATAL => "FATAL"
  | UNKNOW => "UNKNOW"

def FromString (str : String) : LogLevel :=
  if str = "debug" then DEBUG
  else if str = "info" then INFO
  else if str = "warn" then WARN
  else if str = "error" then ERROR
  else if str = "fatal" then FATAL
  else if str = "DEBUG" then DEBUG
  else if str = "INFO" then INFO
  else if str = "WARN" then WARN
  else if str = "ERROR" then ERROR
  else if str = "FATAL" then FATAL
  else UNKNOW

theorem fromString_toString (level : LogLevel) : FromString (ToString level) = level := by
  cases level <;> decide

end LogLevel

/-- A `LogAppenderDefine` as it is constructed. -/
def LogAppenderDefine.new : LogAppenderDefine := { type := 0, level := .UNKNOW, formatter := "", file := "" }

namespace LogDefine

/-! ### The writer -/

/-- The node of an appender. -/
def encodeAppender (a : LogAppenderDefine) : Option Node := do
  let na := Node.Null
  let na ←
    if a.type = 1 then do (← na.assign "type" (.Scalar "FileLogAppender")).assign "file" (.Scalar a.file)
    else if a.type = 2 then na.assign "type" (.Scalar "StdoutLogAppender")
    else pure na
  let na ← if a.level ≠ .UNKNOW then na.assign "level" (.Scalar a.level.ToString) else pure na
  if a.formatter ≠ "" then na.assign "formatter" (.Scalar a.formatter) else pure na

/-- `n["appenders"].push_back(na)`. -/
def pushAppender (n : Node) (a : LogAppenderDefine) : Option Node := do
  let na ← encodeAppender a
  let appenders ← n.get "appenders"
  n.assign "appenders" (← (appenders.getD .Null).push_back na)

/-- The node of a definition. -/
def encodeNode (i : LogDefine) : Option Node := do
  let n := Node.Null
  let n ← n.assign "name" (.Scalar i.name)
  let n ← if i.level ≠ .UNKNOW then n.assign "level" (.Scalar i.level.ToString) else pure n
  let n ← if i.formatter ≠ "" then n.assign "formatter" (.Scalar i.formatter) else pure n
  i.appenders.foldlM pushAppender n

/-- `LexicalCast<LogDefine, std::string>`. -/
def encode (Y : Yaml) (i : LogDefine) : Option String := (encodeNode i).map Y.emit

/-! ### The reader -/

/-- An iteration of the loop over the appenders: an appender that is skipped is `some none`. -/
def decodeAppender (Y : Yaml) (a : Option Node) : Option (Option LogAppenderDefine) :=
  match a with
  | none => some none
  | some a => do
    match ← a.get "type" with
    | none => return none
    | some type =>
      let type ← Y.asString type
      let lad := LogAppenderDefine.new
      if type = "FileLogAppender" then
        match ← a.get "file" with
        | none => return none
        | some file =>
          return some { lad with type := 1, file := ← Y.asString file, formatter := ← Y.text a "formatter" lad.formatter }
      else if type = "StdoutLogAppender" then
        return some { lad with type := 2, formatter := ← Y.text a "formatter" lad.formatter }
      else return none

/-- The appenders of a definition. -/
def decodeAppenders (Y : Yaml) (n : Node) : Option (List LogAppenderDefine) := do
  match ← n.get "appenders" with
  | none => return []
  | some appenders =>
    return (← (List.range appenders.size).mapM fun x => decodeAppender Y (Y.index x appenders)).reduceOption

/-- `LexicalCast<std::string, LogDefine>`. A definition without a name is refused. -/
def decode (Y : Yaml) (v : String) : Option LogDefine := do
  let n ← Y.Load v
  match ← n.get "name" with
  | none => none
  | some name =>
    return {
      name := ← Y.asString name
      level := LogLevel.FromString (← Y.text n "level" "")
      formatter := ← Y.text n "formatter" ""
      appenders := ← decodeAppenders Y n }

/-! ### What is written -/

/-- The entry of a field that is left out where it has its default. -/
def optional (present : Prop) [Decidable present] (key value : String) : List (String × Node) :=
  if present then [(key, .Scalar value)] else []

/-- The fields that a definition and an appender share. -/
def optionals (level : LogLevel) (formatter : String) : List (String × Node) :=
  optional (level ≠ .UNKNOW) "level" level.ToString ++ optional (formatter ≠ "") "formatter" formatter

/-- What only one type of appender has. -/
def typeEntries (a : LogAppenderDefine) : List (String × Node) :=
  if a.type = 1 then [("type", .Scalar "FileLogAppender"), ("file", .Scalar a.file)]
  else [("type", .Scalar "StdoutLogAppender")]

def appenderEntries (a : LogAppenderDefine) : List (String × Node) := typeEntries a ++ optionals a.level a.formatter

theorem encodeAppender_eq {a : LogAppenderDefine} (h : a.type = 1 ∨ a.type = 2) :
    encodeAppender a = some (.Map (appenderEntries a)) := by
  rcases h with htype | htype
  all_goals
    by_cases hlevel : a.level = .UNKNOW
    all_goals
      by_cases hformatter : a.formatter = ""
      all_goals
        simp [encodeAppender, appenderEntries, typeEntries, optionals, optional, Node.assign, Node.assignEntry, htype, hlevel, hformatter]

/-- The entries of a definition but its appenders. -/
def headEntries (i : LogDefine) : List (String × Node) :=
  ("name", .Scalar i.name) :: optionals i.level i.formatter

def appendersEntry (appenders : List LogAppenderDefine) : List (String × Node) :=
  if appenders = [] then [] else [("appenders", .Sequence (appenders.map fun a => .Map (appenderEntries a)))]

theorem keys_optionals (level : LogLevel) (formatter : String) :
    ∀ key ∈ (optionals level formatter).map Prod.fst, key = "level" ∨ key = "formatter" := by
  by_cases hlevel : level = .UNKNOW
  all_goals by_cases hformatter : formatter = ""
  all_goals simp [optionals, optional, hlevel, hformatter]

theorem lookup_level (level : LogLevel) (formatter : String) :
    (optionals level formatter).lookup "level" = if level ≠ .UNKNOW then some (.Scalar level.ToString) else none := by
  by_cases hlevel : level = .UNKNOW
  all_goals by_cases hformatter : formatter = ""
  all_goals simp [optionals, optional, hlevel, hformatter]

theorem lookup_formatter (level : LogLevel) (formatter : String) :
    (optionals level formatter).lookup "formatter" = if formatter ≠ "" then some (.Scalar formatter) else none := by
  by_cases hlevel : level = .UNKNOW
  all_goals by_cases hformatter : formatter = ""
  all_goals simp [optionals, optional, hlevel, hformatter, List.lookup_cons]

/-- Once there is a sequence of appenders, the others are appended to it. -/
theorem foldlM_pushAppender {entries : List (String × Node)} (hnew : "appenders" ∉ entries.map Prod.fst)
    (items : List Node) {appenders : List LogAppenderDefine} (h : ∀ a ∈ appenders, a.type = 1 ∨ a.type = 2) :
    appenders.foldlM pushAppender (.Map (entries ++ [("appenders", .Sequence items)])) =
      some (.Map (entries ++ [("appenders", .Sequence (items ++ appenders.map fun a => .Map (appenderEntries a)))])) := by
  induction appenders generalizing items with
  | nil => simp
  | cons a appenders ih =>
      have hstep : pushAppender (.Map (entries ++ [("appenders", .Sequence items)])) a =
          some (.Map (entries ++ [("appenders", .Sequence (items ++ [.Map (appenderEntries a)]))])) := by
        have hget : (Node.Map (entries ++ [("appenders", .Sequence items)])).get "appenders" = some (some (.Sequence items)) := by
          rw [Node.get, List.lookup_append, lookup_of_new hnew, Option.none_or, List.lookup_cons_self]
        simp [pushAppender, encodeAppender_eq (h a List.mem_cons_self), hget, Node.push_back, Node.assign,
          assignEntry_of_last hnew]
      rw [List.foldlM_cons, hstep]
      refine (ih (items ++ [.Map (appenderEntries a)]) fun b hb => h b (List.mem_cons_of_mem a hb)).trans ?_
      rw [List.map_cons, List.append_assoc, List.singleton_append]

theorem headEntries_new (i : LogDefine) : "appenders" ∉ (headEntries i).map Prod.fst := by
  intro h
  simp only [headEntries, List.map_cons, List.mem_cons] at h
  rcases h with h | h
  · exact absurd h (by decide)
  · rcases keys_optionals i.level i.formatter _ h with h | h
    · exact absurd h (by decide)
    · exact absurd h (by decide)

/-- The loop over the appenders. -/
theorem foldlM_appenders {entries : List (String × Node)} (hnew : "appenders" ∉ entries.map Prod.fst)
    {appenders : List LogAppenderDefine} (h : ∀ a ∈ appenders, a.type = 1 ∨ a.type = 2) :
    appenders.foldlM pushAppender (.Map entries) = some (.Map (entries ++ appendersEntry appenders)) := by
  cases appenders with
  | nil => simp [appendersEntry]
  | cons a appenders =>
      have hstep : pushAppender (.Map entries) a =
          some (.Map (entries ++ [("appenders", .Sequence [.Map (appenderEntries a)])])) := by
        simp [pushAppender, encodeAppender_eq (h a List.mem_cons_self), Node.get, lookup_of_new hnew, Node.push_back,
          Node.assign, assignEntry_of_new hnew]
      rw [List.foldlM_cons, hstep]
      exact foldlM_pushAppender hnew _ fun b hb => h b (List.mem_cons_of_mem a hb)

theorem encodeNode_eq {i : LogDefine} (h : ∀ a ∈ i.appenders, a.type = 1 ∨ a.type = 2) :
    encodeNode i = some (.Map (headEntries i ++ appendersEntry i.appenders)) := by
  rw [← foldlM_appenders (headEntries_new i) h]
  by_cases hlevel : i.level = .UNKNOW
  all_goals by_cases hformatter : i.formatter = ""
  all_goals simp [encodeNode, headEntries, optionals, optional, Node.assign, Node.assignEntry, hlevel, hformatter]

/-! ### What is read back -/

section

variable {Y : Yaml} (hY : Y.Lawful)

include hY

theorem text_formatter (entries rest : List (String × Node)) (level : LogLevel) (formatter : String)
    (hentries : "formatter" ∉ entries.map Prod.fst) (hrest : "formatter" ∉ rest.map Prod.fst) :
    Y.text (.Map (entries ++ optionals level formatter ++ rest)) "formatter" "" = some formatter := by
  have hlookup : (entries ++ optionals level formatter ++ rest).lookup "formatter" =
      if formatter ≠ "" then some (.Scalar formatter) else none := by
    rw [List.lookup_append, List.lookup_append, lookup_of_new hentries, lookup_of_new hrest, lookup_formatter]
    simp
  rw [text_eq hY hlookup]
  by_cases hformatter : formatter = ""
  · simp [hformatter]
  · simp [hformatter]

theorem text_level (entries rest : List (String × Node)) (level : LogLevel) (formatter : String)
    (hentries : "level" ∉ entries.map Prod.fst) (hrest : "level" ∉ rest.map Prod.fst) :
    (Y.text (.Map (entries ++ optionals level formatter ++ rest)) "level" "").map LogLevel.FromString = some level := by
  have hlookup : (entries ++ optionals level formatter ++ rest).lookup "level" =
      if level ≠ .UNKNOW then some (.Scalar level.ToString) else none := by
    rw [List.lookup_append, List.lookup_append, lookup_of_new hentries, lookup_of_new hrest, lookup_level]
    simp
  rw [text_eq hY hlookup]
  by_cases hlevel : level = .UNKNOW
  · simp [hlevel, LogLevel.FromString]
  · simp [hlevel, LogLevel.fromString_toString]

/-- What the reader makes of an appender: its level is the one of a new definition. -/
def forget (a : LogAppenderDefine) : LogAppenderDefine := { a with level := LogAppenderDefine.new.level }

omit hY in
theorem forget_eq_iff (a : LogAppenderDefine) : forget a = a ↔ a.level = .UNKNOW := by
  obtain ⟨type, level, formatter, file⟩ := a
  simp [forget, LogAppenderDefine.new, eq_comm]

theorem decodeAppender_eq {a : LogAppenderDefine} (h : a.type = 1 ∨ a.type = 2 ∧ a.file = "") :
    decodeAppender Y (some (.Map (appenderEntries a))) = some (some (forget a)) := by
  have hformatter : Y.text (.Map (appenderEntries a)) "formatter" "" = some a.formatter := by
    have htext := text_formatter hY (typeEntries a) [] a.level a.formatter
      (by unfold typeEntries; split <;> simp) (by simp)
    rwa [List.append_nil] at htext
  rcases h with htype | ⟨htype, hfile⟩
  · have hget : (Node.Map (appenderEntries a)).get "type" = some (some (.Scalar "FileLogAppender")) ∧
        (Node.Map (appenderEntries a)).get "file" = some (some (.Scalar a.file)) := by
      simp [Node.get, appenderEntries, typeEntries, htype, List.lookup_cons]
    simp [decodeAppender, hget.1, hget.2, hY.asString_scalar, hformatter, forget, LogAppenderDefine.new, htype]
  · have hget : (Node.Map (appenderEntries a)).get "type" = some (some (.Scalar "StdoutLogAppender")) := by
      simp [Node.get, appenderEntries, typeEntries, htype]
    simp [decodeAppender, hget, hY.asString_scalar, hformatter, forget, LogAppenderDefine.new, htype, hfile]

omit hY in
theorem keys_appendersEntry (appenders : List LogAppenderDefine) {key : String} (hkey : key ≠ "appenders") :
    key ∉ (appendersEntry appenders).map Prod.fst := by
  unfold appendersEntry
  split_ifs <;> simp [hkey]

theorem decodeAppenders_eq {entries : List (String × Node)} (hnew : "appenders" ∉ entries.map Prod.fst)
    {appenders : List LogAppenderDefine} (h : ∀ a ∈ appenders, a.type = 1 ∨ a.type = 2 ∧ a.file = "") :
    decodeAppenders Y (.Map (entries ++ appendersEntry appenders)) = some (appenders.map forget) := by
  by_cases hempty : appenders = []
  · have hget : (Node.Map (entries ++ appendersEntry appenders)).get "appenders" = some none := by
      rw [appendersEntry, if_pos hempty, List.append_nil, Node.get, lookup_of_new hnew]
    rw [decodeAppenders, hget, hempty]
    rfl
  · have hget : (Node.Map (entries ++ appendersEntry appenders)).get "appenders" =
        some (some (.Sequence (appenders.map fun a => .Map (appenderEntries a)))) := by
      rw [appendersEntry, if_neg hempty, Node.get, List.lookup_append, lookup_of_new hnew, Option.none_or,
        List.lookup_cons_self]
    have hloop : ((appenders.map fun a => Node.Map (appenderEntries a)).mapM fun n => decodeAppender Y (some n)) =
        some ((appenders.map forget).map some) := by
      rw [List.mapM_map, List.map_map]
      exact mapM_eq_some fun a ha => decodeAppender_eq hY (h a ha)
    have hsize : (Node.Sequence (appenders.map fun a => Node.Map (appenderEntries a))).size =
        (appenders.map fun a => Node.Map (appenderEntries a)).length := rfl
    simp only [decodeAppenders, hget, hsize, Option.bind_eq_bind, Option.bind_some, mapM_index, hloop]
    simp [List.reduceOption]

/-- The text of a definition is read back as the definition without the levels of its appenders. -/
theorem decode_encode {i : LogDefine} (h : ∀ a ∈ i.appenders, a.type = 1 ∨ a.type = 2 ∧ a.file = "") :
    (encode Y i).bind (decode Y) = some { i with appenders := i.appenders.map forget } := by
  have hnode := encodeNode_eq fun a ha => (h a ha).imp_right And.left
  have hentries : headEntries i = [("name", .Scalar i.name)] ++ optionals i.level i.formatter := rfl
  have hname : (Node.Map (headEntries i ++ appendersEntry i.appenders)).get "name" = some (some (.Scalar i.name)) := by
    rw [hentries]
    simp [Node.get]
  have hlevel := text_level hY [("name", .Scalar i.name)] (appendersEntry i.appenders) i.level i.formatter (by simp)
    (keys_appendersEntry _ (by decide))
  have hformatter := text_formatter hY [("name", .Scalar i.name)] (appendersEntry i.appenders) i.level i.formatter (by simp)
    (keys_appendersEntry _ (by decide))
  rw [← hentries] at hlevel hformatter
  obtain ⟨level, htext, hfrom⟩ := Option.map_eq_some_iff.1 hlevel
  have happenders := decodeAppenders_eq hY (headEntries_new i) h
  simp only [encode, hnode, Option.map_some, Option.bind_some, decode, hY.load_emit, Option.bind_eq_bind, hname,
    hY.asString_scalar, htext, hfrom, hformatter, happenders]
  rfl

/-- A definition whose appenders are files, or the standard output without a file name, is read back as it is exactly when no appender has a level of its own. -/
theorem decode_encode_iff {i : LogDefine} (h : ∀ a ∈ i.appenders, a.type = 1 ∨ a.type = 2 ∧ a.file = "") :
    (encode Y i).bind (decode Y) = some i ↔ ∀ a ∈ i.appenders, a.level = .UNKNOW := by
  rw [decode_encode hY h, Option.some_inj]
  constructor
  · intro heq a ha
    have hmap : i.appenders.map forget = i.appenders.map id := by
      rw [List.map_id]
      exact congrArg LogDefine.appenders heq
    exact (forget_eq_iff a).1 (List.map_inj_left.1 hmap a ha)
  · intro hlevels
    have hmap : i.appenders.map forget = i.appenders := by
      refine (List.map_congr_left fun a ha => ?_).trans (List.map_id _)
      exact (forget_eq_iff a).2 (hlevels a ha)
    rw [hmap]

end

/-- Two appenders without a level of their own. -/
theorem decode_encode_plain :
    let i : LogDefine := {
      name := "root", level := .INFO, formatter := "%d%m%n"
      appenders := [
        { type := 1, level := .UNKNOW, formatter := "%m", file := "log.txt" },
        { type := 2, level := .UNKNOW, formatter := "", file := "" }] }
    (encode Yaml.block i).bind (decode Yaml.block) = some i :=
  (decode_encode_iff Yaml.block_lawful (by decide)).2 (by decide)

/-- The level of an appender is written and not read. -/
theorem appender_level_lost :
    let i : LogDefine := {
      name := "root", level := .INFO, formatter := ""
      appenders := [{ type := 2, level := .ERROR, formatter := "", file := "" }] }
    Yaml.block.Lawful ∧ (encode Yaml.block i).bind (decode Yaml.block) ≠ some i := by
  refine ⟨Yaml.block_lawful, ?_⟩
  decide

end LogDefine

end Awcotn
