import Scriptlet.Syntax.Basic

/-! The canonical text of programs: every operation in parentheses, one space between parts. -/

namespace Scriptlet

/-- Texts with a separator between them. -/
def joined (separator : String) : List String → String
  | [] => ""
  | [s] => s
  | s :: t :: rest => s ++ separator ++ joined separator (t :: rest)

/-- A text without the semicolons at its end. -/
def dropSemicolons (s : String) : String :=
  String.ofList (s.toList.reverse.dropWhile (· = ';')).reverse

/-- The text of a block from the texts of its statements. -/
def blockText (statements : List String) : String :=
  let body := joined "; " (statements.map dropSemicolons)
  if body = "" then "\x7b \x7d" else "\x7b " ++ body ++ " \x7d"

mutual

/-- The canonical text of an expression. -/
def Expr.text : Expr → String
  | .int n => toString n
  | .bool b => if b then "true" else "false"
  | .string s => "\"" ++ s ++ "\""
  | .ident name => name
  | .unary op right => "(" ++ op.text ++ right.text ++ ")"
  | .binary op left right => "(" ++ left.text ++ " " ++ op.text ++ " " ++ right.text ++ ")"
  | .ifThen condition consequence none =>
    "if (" ++ condition.text ++ ") " ++ blockText (stmtTexts consequence)
  | .ifThen condition consequence (some alternative) =>
    "if (" ++ condition.text ++ ") " ++ blockText (stmtTexts consequence) ++ " else "
      ++ blockText (stmtTexts alternative)
  | .function params body => "fn(" ++ joined ", " params ++ ") " ++ blockText (stmtTexts body)
  | .call callee args => callee.text ++ "(" ++ joined ", " (exprTexts args) ++ ")"
  | .array elements => "[" ++ joined ", " (exprTexts elements) ++ "]"
  | .index left index => "(" ++ left.text ++ "[" ++ index.text ++ "])"
  | .hashmap pairs => "\x7b" ++ joined ", " (pairTexts pairs) ++ "\x7d"

/-- The canonical text of a statement. -/
def Stmt.text : Stmt → String
  | .assign name value => name ++ " = " ++ value.text ++ ";"
  | .ret value => "return " ++ value.text ++ ";"
  | .expr value => value.text
  | .block body => blockText (stmtTexts body)

/-- The canonical texts of some expressions. -/
def exprTexts : List Expr → List String
  | [] => []
  | e :: es => e.text :: exprTexts es

/-- The canonical texts of some statements. -/
def stmtTexts : List Stmt → List String
  | [] => []
  | s :: ss => s.text :: stmtTexts ss

/-- The canonical texts of the entries of a hashmap. -/
def pairTexts : List (Expr × Expr) → List String
  | [] => []
  | (k, v) :: ps => (k.text ++ ": " ++ v.text) :: pairTexts ps

end

theorem exprTexts_eq_map (es : List Expr) : exprTexts es = es.map Expr.text := by
  induction es with
  | nil => rfl
  | cons e es ih => simp [exprTexts, ih]

theorem stmtTexts_eq_map (ss : List Stmt) : stmtTexts ss = ss.map Stmt.text := by
  induction ss with
  | nil => rfl
  | cons s ss ih => simp [stmtTexts, ih]

theorem pairTexts_eq_map (ps : List (Expr × Expr)) :
    pairTexts ps = ps.map fun p => p.1.text ++ ": " ++ p.2.text := by
  induction ps with
  | nil => rfl
  | cons p ps ih => obtain ⟨k, v⟩ := p; simp [pairTexts, ih]

/-- The canonical text of a program: the texts of its statements, one behind the other. -/
def programText (body : List Stmt) : String := joined "" (stmtTexts body)

/-- The canonical text of a node; what is no part of a program has none. -/
def Node.text? : Node → Option String
  | .program body => some (programText body)
  | .stmt s => some s.text
  | .expr e => some e.text
  | .foreign _ => none

end Scriptlet
