import Scriptlet.Number.Numeral
import Scriptlet.Text.Upper

/-! Settings from environment variables. -/

namespace Scriptlet

/-- How important a log line is. -/
inductive LogLevel where
  | debug | info | warning | error | critical
  deriving DecidableEq, Repr

namespace LogLevel

def text : LogLevel → String
  | debug => "DEBUG"
  | info => "INFO"
  | warning => "WARNING"
  | error => "ERROR"
  | critical => "CRITICAL"

/-- The level of a name. -/
def ofText? (s : String) : Option LogLevel :=
  [debug, info, warning, error, critical].find? (·.text = s)

end LogLevel

/-- The settings. -/
structure Settings where
  logLevel : LogLevel := .warning
  recursionLimit : Option Nat := none
  deriving DecidableEq, Repr

/-- A value that was not used, and why. -/
inductive SettingsWarning where
  | unknownLevel (value : String)
  | limitNotInteger (value : String)
  | limitNotPositive (value : String)
  deriving DecidableEq, Repr

namespace Settings

/-- The variable that holds the level of the log. -/
def levelVariable : String := "BQL_LOG_LEVEL"
/-- The variable that holds the limit on stack frames. -/
def limitVariable : String := "BQL_RECURSION_LIMIT"

end Settings

/-- The text of a warning. -/
def SettingsWarning.text : SettingsWarning → String
  | unknownLevel v =>
    "Unknown " ++ Settings.levelVariable ++ " value '" ++ v ++ "'. Using '" ++ LogLevel.warning.text
      ++ "'."
  | limitNotInteger v =>
    "Ignoring non-integer " ++ Settings.limitVariable ++ " value '" ++ v ++ "'."
  | limitNotPositive v =>
    "Ignoring non-positive " ++ Settings.limitVariable ++ " value '" ++ v ++ "'."

namespace Settings

/-- The level that a variable's value names in any case; the default if it is blank or none. -/
def readLevel (value : String) : LogLevel × Option SettingsWarning :=
  let name := Text.trim (Text.upper value)
  if name = "" then (.warning, none)
  else
    match LogLevel.ofText? name with
    | some level => (level, none)
    | none => (.warning, some (.unknownLevel name))

/-- The positive limit in a variable's value, if there is one. -/
def readLimit (value : String) : Option Nat × Option SettingsWarning :=
  let numeral := Text.trim value
  if numeral = "" then (none, none)
  else
    match Number.readInteger numeral with
    | .error _ => (none, some (.limitNotInteger numeral))
    | .ok n => if 0 < n then (some n.toNat, none) else (none, some (.limitNotPositive numeral))

/-- The settings in some environment variables, and the warnings about them. -/
def read (environment : List (String × String)) : Settings × List SettingsWarning :=
  let value (name : String) := (environment.lookup name).getD ""
  let (logLevel, levelWarning) := readLevel (value levelVariable)
  let (recursionLimit, limitWarning) := readLimit (value limitVariable)
  ({ logLevel, recursionLimit }, levelWarning.toList ++ limitWarning.toList)

end Settings

end Scriptlet
