import Scriptlet.Text.Markup
import Scriptlet.Text.Quoted
import Scriptlet.Text.Wrap
import Scriptlet.Token.Basic

/-! Tokens as a table with borders. -/

namespace Scriptlet

namespace Listing

/-- Blanks. -/
def blanks (n : Nat) : String := String.ofList (List.replicate n ' ')

/-- A text with blanks behind it up to a width in cells. -/
def padRight (width : Nat) (s : String) : String := s ++ blanks (width - Text.cells s)

/-- A text with blanks on both sides up to a width in cells; an odd one goes behind it. -/
def centred (width : Nat) (s : String) : String :=
  let excess := width - Text.cells s
  blanks (excess / 2) ++ s ++ blanks (excess - excess / 2)

/-- The width of a column: that of its widest cell. -/
def columnWidth (column : List String) : Nat := (column.map Text.cells).foldl max 0

/-- Pieces with one text in front, one between them and one behind. -/
def bordered (left middle right : String) (pieces : List String) : String :=
  left ++ middle.intercalate pieces ++ right

/-- A horizontal border over columns of the given widths. -/
def rule (left line middle right : String) (widths : List Nat) : String :=
  bordered left middle right (widths.map fun w => String.join (List.replicate (w + 2) line))

/-- A row between vertical borders. -/
def row (border : String) (widths : List Nat) (cells : List String) : String :=
  bordered border border border
    (widths.zipWith (fun w cell => " " ++ padRight w cell ++ " ") cells)

/-- The lines of a title, which is markup, over a table of the given width. -/
def titleLines (width : Nat) (title : String) : List String :=
  (Text.Markup.lines title).flatMap fun line =>
    (Text.wrap width line).map fun l => centred width (String.ofList (Text.trimEnd l))

/-- A table of three columns, each as wide as its widest cell, with a title over it, as lines. -/
def table (title : String) (header : String × String × String)
    (rows : List (String × String × String)) : List String :=
  let all := header :: rows
  let widths := [columnWidth (all.map (·.1)), columnWidth (all.map (·.2.1)),
    columnWidth (all.map (·.2.2))]
  let cells (r : String × String × String) := [r.1, r.2.1, r.2.2]
  titleLines (widths.foldl (· + ·) 10) title
    ++ [rule "┏" "━" "┳" "┓" widths, row "┃" widths (cells header),
      rule "┡" "━" "╇" "┩" widths] ++ rows.map (fun r => row "│" widths (cells r))
    ++ [rule "└" "─" "┴" "┘" widths]

end Listing

/-- The lines of a table of tokens: position, kind and text of each. -/
def tokenListing (title : String) (tokens : List Token) : List String :=
  Listing.table title ("Pos", "Kind", "Value")
    (tokens.map fun t => (t.pos.text, t.kind.name,
      Text.Markup.text (Text.Markup.escape (Text.quoted t.text))))

end Scriptlet
