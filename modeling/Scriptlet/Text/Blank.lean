import Scriptlet.Text.Ranges

/-! White space of every script, and text without it at its ends. -/

namespace Scriptlet.Text

/-- The code points of white space. -/
def blanks : Ranges :=
  [(0x09, 0x0d), (0x1c, 0x20), (0x85, 0x85), (0xa0, 0xa0), (0x1680, 0x1680), (0x2000, 0x200a),
   (0x2028, 0x2029), (0x202f, 0x202f), (0x205f, 0x205f), (0x3000, 0x3000)]

/-- Whether a character is white space. -/
def isBlank (c : Char) : Bool := blanks.holds c

/-- The characters up to the last that is not white space. -/
def trimEnd (cs : List Char) : List Char := (cs.reverse.dropWhile isBlank).reverse

/-- The characters between the first and the last that are not white space. -/
def trimChars (cs : List Char) : List Char := trimEnd (cs.dropWhile isBlank)

/-- A text without white space at its ends. -/
def trim (s : String) : String := String.ofList (trimChars s.toList)

end Scriptlet.Text
