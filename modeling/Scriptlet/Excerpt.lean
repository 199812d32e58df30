import Scriptlet.Number.Numeral
import Scriptlet.Syntax.Canonical
import Scriptlet.Text.Lines

/-! The part of a text around a place, shown with line numbers and a caret. -/

namespace Scriptlet

/-- A place and the lines shown around it. -/
structure Excerpt where
  line : Int
  column : Int
  name : Option String
  lines : List String
  firstLine : Int
  deriving DecidableEq, Repr

namespace Excerpt

/-- The items from a place up to another one, which counts from the end if it is negative. -/
def slice (items : List String) (start : Nat) (stop : Int) : List String :=
  let stop := if stop < 0 then stop + items.length else stop
  (items.take stop.toNat).drop start

/-- The excerpt with so many lines before and after the line of a place. -/
def ofSource (source : String) (line column : Int) (name : Option String) (radius : Int) : Excerpt :=
  let all := Text.lines source
  let first := max 1 (line - radius)
  let last := min (all.length : Int) (line + radius)
  { line, column, name, lines := slice all (first - 1).toNat last, firstLine := first }

/-- How many lines are shown on either side unless told otherwise. -/
def defaultRadius : Int := 2

variable (e : Excerpt)

/-- The place as text, behind the name if there is one. -/
def location : String :=
  let place := toString e.line ++ ":" ++ toString e.column
  match e.name with
  | none | some "" => place
  | some name => name ++ ":" ++ place

/-- Blanks in front of a text up to a width. -/
def padLeft (width : Nat) (s : String) : String :=
  String.ofList (List.replicate (width - s.length) ' ') ++ s

/-- The number in front of a line. -/
def gutter (number : Int) : String := padLeft 4 (toString number) ++ " | "

/-- A caret under a column of a line with the given number. -/
def caretLine (number column : Int) : String :=
  String.ofList (List.replicate (((gutter number).length : Int) + column - 1).toNat ' ') ++ "^"

/-- Lines with their numbers, and a caret line behind the line of the place. -/
def numbered : Int → List String → List String
  | _, [] => []
  | number, l :: ls =>
    let shown := gutter number ++ l
    if number = e.line then shown :: caretLine number e.column :: numbered (number + 1) ls
    else shown :: numbered (number + 1) ls

/-- The location and the lines. -/
def text : String := joined "\n" (e.location :: e.numbered e.firstLine e.lines)

/-- A message behind the excerpt. -/
def withMessage (message : String) : String := e.text ++ "\n" ++ message

end Excerpt

/-- The parts of a text in front of its first two colons, if it has two. -/
def positionParts (text : List Char) : Option (List Char × List Char) :=
  let (line, rest) := text.span (· ≠ ':')
  let (column, rest') := (rest.drop 1).span (· ≠ ':')
  if rest.isEmpty || rest'.isEmpty then none else some (line, column)

/-- Whether a text is of characters that stand for digits, and of one at least. -/
def allDigits (cs : List Char) : Bool := !cs.isEmpty && cs.all Text.isDigitLike

/-- Some syntax errors as texts, and the place of the first one in its source. -/
structure SyntaxReport where
  errors : List String
  excerpt : Option Excerpt
  deriving DecidableEq, Repr

namespace SyntaxReport

/-- The report of some errors. There is an excerpt if there is a source and the first error starts
with a position. -/
def ofErrors (errors : List String) (source name : Option String) :
    Except Number.NumeralError SyntaxReport := do
  match errors, source with
  | first :: _, some source =>
    match positionParts first.toList with
    | some (line, column) =>
      if allDigits line && allDigits column then
        let line ← Number.readInteger (String.ofList line)
        let column ← Number.readInteger (String.ofList column)
        return ⟨errors, some (.ofSource source line column name Excerpt.defaultRadius)⟩
      else return ⟨errors, none⟩
    | none => return ⟨errors, none⟩
  | _, _ => return ⟨errors, none⟩

/-- The errors, one on a line. -/
def message (r : SyntaxReport) : String := joined "\n" r.errors

/-- The excerpt and the errors. -/
def text (r : SyntaxReport) : String :=
  match r.excerpt with
  | some e => e.withMessage r.message
  | none => r.message

end SyntaxReport

end Scriptlet
