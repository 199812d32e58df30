import Scriptlet.Text.Blank
import Scriptlet.Text.Width

/-!
Lines of text that are no wider than a limit. A line ends in front of a word that would go beyond
it; only a word that fits on no line is cut.
-/

namespace Scriptlet.Text

/-- Characters that are shown together, and the cells they take. -/
structure Cluster where
  chars : List Char
  cells : Nat
  deriving DecidableEq, Repr

/-- A cluster with more characters in front. -/
def Cluster.before (chars : List Char) (cells : Nat) (k : Cluster) : Cluster :=
  ⟨chars ++ k.chars, cells + k.cells⟩

/-- What belongs to the cluster in front of a text, and the clusters of the rest. The character that
can still become a picture is given, if there is one. -/
def clustersBehind : Option Char → List Char → Cluster × List Cluster
  | _, [] => (⟨[], 0⟩, [])
  | last, c :: cs =>
    if c = joiner then
      match cs with
      | [] => (⟨[c], 0⟩, [])
      | d :: cs =>
        let (k, ks) := clustersBehind last cs
        (k.before [c, d] 0, ks)
    else if c = pictureSelector then
      if last.any picturable.holds then
        let (k, ks) := clustersBehind none cs
        (k.before [c] 1, ks)
      else
        let (k, ks) := clustersBehind last cs
        (k.before [c] 0, ks)
    else if cellsOfChar c = 0 then
      let (k, ks) := clustersBehind last cs
      (k.before [c] 0, ks)
    else
      let (k, ks) := clustersBehind (some c) cs
      (⟨[], 0⟩, k.before [c] (cellsOfChar c) :: ks)

/-- The clusters of a text. The first character begins one, whatever it is. -/
def clusters : List Char → List Cluster
  | [] => []
  | c :: cs =>
    let (k, ks) := clustersBehind (if cellsOfChar c = 0 then none else some c) cs
    k.before [c] (cellsOfChar c) :: ks

/-- Lines filled with clusters, of which the first has some characters already. -/
def fill (width : Nat) : (line : List Char) → (column : Nat) → List Cluster → List (List Char)
  | line, _, [] => [line]
  | line, column, k :: ks =>
    if column + k.cells ≤ width then fill width (line ++ k.chars) (column + k.cells) ks
    else line :: fill width k.chars k.cells ks

/-- Nothing is lost between the lines. -/
theorem flatten_fill (width column : Nat) (line : List Char) (ks : List Cluster) :
    (fill width line column ks).flatten = line ++ (ks.map Cluster.chars).flatten := by
  induction ks generalizing line column with
  | nil => simp [fill]
  | cons k ks ih =>
    simp only [fill]
    split <;> simp [ih]

/-- The words of a text, each with the white space behind it, the first also with that in front. -/
def words (cs : List Char) : List (List Char) :=
  match (cs.dropWhile isBlank).splitBy fun c d => !isBlank c || isBlank d with
  | [] => [cs]
  | word :: others => (cs.takeWhile isBlank ++ word) :: others

/-- Lines filled with words, of which the first has some characters already. White space at the end
of a line may go beyond the width. -/
def wrapWords (width : Nat) : (line : List Char) → (column : Nat) → List (List Char) →
    List (List Char)
  | line, _, [] => [line]
  | line, column, word :: others =>
    let needed := cellsOf (trimEnd word)
    if column + needed ≤ width then wrapWords width (line ++ word) (column + cellsOf word) others
    else if needed ≤ width then line :: wrapWords width word (cellsOf word) others
    else
      let parts := fill width [] 0 (clusters word)
      let last := parts.getLast?.getD []
      (if line.isEmpty then [] else [line]) ++ parts.dropLast
        ++ wrapWords width last (cellsOf last) others

/-- The lines of a text that has no line ends. -/
def wrap (width : Nat) (cs : List Char) : List (List Char) := wrapWords width [] 0 (words cs)

end Scriptlet.Text
