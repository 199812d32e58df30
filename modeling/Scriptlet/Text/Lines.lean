/-! Text as pieces and lines. -/

namespace Scriptlet.Text

/-- The pieces between the places of a separator, one more than there are places. -/
def pieces (separator : Char) : List Char → List (List Char)
  | [] => [[]]
  | c :: cs =>
    if c = separator then [] :: pieces separator cs
    else
      match pieces separator cs with
      | [] => [[c]]
      | p :: ps => (c :: p) :: ps

/-- The pieces between line feeds. -/
def splitLines : List Char → List (List Char) := pieces '\n'

/-- The lines of a text. -/
def lines (s : String) : List String := (splitLines s.toList).map String.ofList

/-- Every line end written as a line feed alone. -/
def unifyLineEnds : List Char → List Char
  | '\r' :: '\n' :: cs => '\n' :: unifyLineEnds cs
  | '\r' :: cs => '\n' :: unifyLineEnds cs
  | c :: cs => c :: unifyLineEnds cs
  | [] => []

theorem pieces_ne_nil (separator : Char) (cs : List Char) : pieces separator cs ≠ [] := by
  cases cs with
  | nil => simp [pieces]
  | cons c cs =>
    simp only [pieces]
    split
    · simp
    · split <;> simp

theorem splitLines_ne_nil (cs : List Char) : splitLines cs ≠ [] := pieces_ne_nil '\n' cs

/-- The pieces with the separator between them are the text. -/
theorem intercalate_pieces (separator : Char) (cs : List Char) :
    [separator].intercalate (pieces separator cs) = cs := by
  induction cs with
  | nil => simp [pieces, List.intercalate]
  | cons c cs ih =>
    have hne := pieces_ne_nil separator cs
    simp only [pieces]
    generalize pieces separator cs = ps at ih hne ⊢
    cases ps with
    | nil => exact absurd rfl hne
    | cons p ps =>
      split
      · simp_all [List.intercalate]
      · cases ps <;> simp_all [List.intercalate]

end Scriptlet.Text
