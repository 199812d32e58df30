import Scriptlet.Text.Printable

/-! Text shown between quotes on one line. -/

namespace Scriptlet.Text

/-- A number in lower-case hexadecimal, with zeros in front up to the given width. -/
def hexDigits (width n : Nat) : List Char :=
  let digits := Nat.toDigits 16 n
  List.replicate (width - digits.length) '0' ++ digits

/-- The quote that surrounds a text: single, unless that is the only one the text holds. -/
def delimiter (cs : List Char) : Char :=
  if cs.contains '\'' && !cs.contains '"' then '"' else '\''

/-- One character between quotes. -/
def escapeChar (delimiter c : Char) : List Char :=
  if c = delimiter || c = '\\' then ['\\', c]
  else if c = '\n' then ['\\', 'n']
  else if c = '\r' then ['\\', 'r']
  else if c = '\t' then ['\\', 't']
  else if isPrintable c then [c]
  else if c.toNat < 0x100 then '\\' :: 'x' :: hexDigits 2 c.toNat
  else if c.toNat < 0x10000 then '\\' :: 'u' :: hexDigits 4 c.toNat
  else '\\' :: 'U' :: hexDigits 8 c.toNat

/-- A text between quotes, on one line and with all that cannot be shown written as escapes. -/
def quoted (s : String) : String :=
  let cs := s.toList
  let d := delimiter cs
  String.ofList (d :: cs.flatMap (escapeChar d) ++ [d])

end Scriptlet.Text
