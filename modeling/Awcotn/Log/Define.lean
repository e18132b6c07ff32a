import Awcotn.Log.Formatter
import Awcotn.Log.Logger

/-!
# Log definitions

The values of the configuration variable `logs`: what a logger is to be, and what its appenders are to be.
-/

namespace Awcotn

/-- A `LogFormatter`; the pattern determines its items and its error flag. -/
structure LogFormatter where
  pattern : String
  deriving DecidableEq

/-- `LogFormatter::isError` after the constructor has run `init`. -/
def LogFormatter.isError (f : LogFormatter) : Bool := (LogFormatter.init f.pattern.toList).any Prod.snd

/-- What a logger's constructor gives its formatter. -/
def LogFormatter.defaultPattern : String := "%d{%Y-%m-%d %H:%M:%S}%T%t%T%N%T%F%T[%p]%T[%c]%T%f:%l%T%m%n"

/-- `LogAppenderDefine`; type 1 is a file and type 2 the standard output. -/
structure LogAppenderDefine where
  type : ℤ
  level : LogLevel
  formatter : String
  file : String
  deriving DecidableEq

structure LogDefine where
  name : String
  level : LogLevel
  formatter : String
  appenders : List LogAppenderDefine
  deriving DecidableEq

/-- A formatter text is empty or a pattern without errors. -/
def ValidFormatter (formatter : String) : Prop :=
  formatter = "" ∨ (LogFormatter.mk formatter).isError = false

/-- Formatters are empty or valid, and appenders are of type 1 or 2. -/
structure LogDefine.Valid (d : LogDefine) : Prop where
  formatter : ValidFormatter d.formatter
  type : ∀ a ∈ d.appenders, a.type = 1 ∨ a.type = 2
  appender : ∀ a ∈ d.appenders, ValidFormatter a.formatter

/-- A `std::set<LogDefine>`, which is ordered by the names, of valid definitions. -/
structure LogDefines where
  defines : List LogDefine
  sorted : defines.Pairwise fun d d' => d.name < d'.name
  valid : ∀ d ∈ defines, d.Valid

namespace LogDefines

/-- `std::set::find`: definitions are equivalent if they have the same name. -/
def find (defines : List LogDefine) (d : LogDefine) : Option LogDefine := defines.find? fun d' => d'.name = d.name

def empty : LogDefines := { defines := [], sorted := List.Pairwise.nil, valid := by simp }

end LogDefines

end Awcotn
