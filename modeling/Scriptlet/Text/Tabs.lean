import Scriptlet.Text.Lines
import Scriptlet.Text.Width

/-! Blanks in place of tabs. -/

namespace Scriptlet.Text

/-- The cells between two tab stops. -/
def tabStop : Nat := 8

/-- The pieces between tabs, from a column on, with blanks in place of the tabs. A tab takes one
blank at least and ends at a tab stop. -/
def joinTabs (column : Nat) : List (List Char) → List Char
  | [] => []
  | [piece] => piece
  | piece :: pieces =>
    let behind := column + cellsOf (piece ++ [' '])
    let missing := (tabStop - behind % tabStop) % tabStop
    piece ++ List.replicate (missing + 1) ' ' ++ joinTabs (behind + missing) pieces

/-- A line with blanks in place of its tabs. -/
def expandTabs (line : List Char) : List Char := joinTabs 0 (pieces '\t' line)

end Scriptlet.Text
