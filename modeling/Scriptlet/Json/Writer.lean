import Scriptlet.Host.Basic
import Scriptlet.Syntax.Canonical
import Scriptlet.Text.Quoted

/-! Results of programs written as JSON: a space behind every comma and colon, and all characters
but quotes, backslashes and controls as they are. -/

namespace Scriptlet.Json

/-- One character of a string. -/
def escapeChar (c : Char) : List Char :=
  if c = '"' then ['\\', '"']
  else if c = '\\' then ['\\', '\\']
  else if c = '\n' then ['\\', 'n']
  else if c = '\r' then ['\\', 'r']
  else if c = '\t' then ['\\', 't']
  else if c = '\x08' then ['\\', 'b']
  else if c = '\x0c' then ['\\', 'f']
  else if c.toNat < 0x20 then '\\' :: 'u' :: Text.hexDigits 4 c.toNat
  else [c]

/-- A string. -/
def stringText (s : String) : String := String.ofList ('"' :: s.toList.flatMap escapeChar ++ ['"'])

/-- A key of a map. -/
def keyText : HostKey → String
  | .text s => stringText s
  | .other typeName => stringText typeName

mutual

/-- The JSON text of host data. What no result holds is written as null. -/
def write : Host → String
  | .null | .real _ | .foreign _ | .up _ => "null"
  | .bool b => if b then "true" else "false"
  | .int n => toString n
  | .text s => stringText s
  | .list items | .tuple items => "[" ++ joined ", " (writeAll items) ++ "]"
  | .map entries => "\x7b" ++ joined ", " (writeEntries entries) ++ "\x7d"

/-- The JSON texts of some items. -/
def writeAll : List Host → List String
  | [] => []
  | v :: vs => write v :: writeAll vs

/-- The JSON texts of the entries of a map. -/
def writeEntries : List (HostKey × Host) → List String
  | [] => []
  | (k, v) :: es => (keyText k ++ ": " ++ write v) :: writeEntries es

end

end Scriptlet.Json
