import Scriptlet.Text.Tabs

/-!
Markup: text in which tags in brackets ask for a style. A tag with an odd number of backslashes in
front is meant literally, and so is a bracket that opens no tag. Where there are no styles, tags are
left out.
-/

namespace Scriptlet.Text.Markup

/-- Whether a character can stand behind the opening bracket of a tag. -/
def opensTag (c : Char) : Bool := ('a' ≤ c && c ≤ 'z') || c = '#' || c = '/' || c = '@'

/-- The length of a tag that a text starts with. A tag goes up to the first closing bracket and
holds no other opening one. -/
def tagLength? : List Char → Option Nat
  | '[' :: c :: cs =>
    if opensTag c then
      let body := cs.takeWhile fun d => d ≠ '[' && d ≠ ']'
      if (cs.drop body.length).head? = some ']' then some (body.length + 3) else none
    else none
  | _ => none

/-- So many backslashes. -/
def slashes (n : Nat) : List Char := List.replicate n '\\'

/-- The text that markup stands for, from so many characters on, behind so many backslashes. Of the
backslashes in front of a tag every pair stands for one, and one before any other opening bracket is
left out. -/
def plainFrom : (skipped backslashes : Nat) → List Char → List Char
  | _, k, [] => slashes k
  | n + 1, k, _ :: cs => plainFrom n k cs
  | 0, k, c :: cs =>
    if c = '\\' then plainFrom 0 (k + 1) cs
    else if c = '[' then
      match tagLength? (c :: cs) with
      | some n =>
        slashes (k / 2) ++ if k % 2 = 0 then plainFrom (n - 1) 0 cs else c :: plainFrom 0 0 cs
      | none => slashes (k - 1) ++ c :: plainFrom 0 0 cs
    else slashes k ++ c :: plainFrom 0 0 cs

/-- The text that markup stands for. -/
def plain (cs : List Char) : List Char := plainFrom 0 0 cs

/-- Markup for a text behind so many backslashes. In front of a tag they are doubled and one is
added. -/
def escapeFrom : (backslashes : Nat) → List Char → List Char
  | k, [] => slashes k
  | k, c :: cs =>
    if c = '\\' then escapeFrom (k + 1) cs
    else
      slashes (if (tagLength? (c :: cs)).isSome then 2 * k + 1 else k) ++ c :: escapeFrom 0 cs

/-- Markup in which the tags of a text are meant literally. -/
def escape (s : String) : String := String.ofList (escapeFrom 0 s.toList)

/-- Whether a character is a control that a drawing leaves out. -/
def isSilent (c : Char) : Bool := c = '\x07' || c = '\x08' || c = '\x0b' || c = '\x0c' || c = '\r'

/-- The text that a drawing shows for markup. -/
def text (s : String) : String := String.ofList ((plain s.toList).filter fun c => !isSilent c)

/-- The lines that a drawing shows for markup. -/
def lines (s : String) : List (List Char) := (splitLines (text s).toList).map expandTabs

end Scriptlet.Text.Markup
