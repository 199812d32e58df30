import Scriptlet.Syntax.Basic
import Scriptlet.Text.Markup
import Scriptlet.Text.Quoted

/-! Programs drawn as trees. -/

namespace Scriptlet

/-- A tree of labels, which are markup. -/
inductive Outline where
  | node (label : String) (children : List Outline)

/-- What an expression is called. -/
def Expr.label : Expr → String
  | .int _ => "IntegerLiteral"
  | .bool _ => "BooleanLiteral"
  | .string _ => "StringLiteral"
  | .ident _ => "Identifier"
  | .unary .. => "PrefixExpression"
  | .binary .. => "InfixExpression"
  | .ifThen .. => "IfExpression"
  | .function .. => "FunctionLiteral"
  | .call .. => "CallExpression"
  | .array _ => "ArrayLiteral"
  | .index .. => "IndexExpression"
  | .hashmap _ => "HashMapLiteral"

/-- What a statement is called. -/
def Stmt.label : Stmt → String
  | .assign .. => "AssignStatement"
  | .ret _ => "ReturnStatement"
  | .expr _ => "ExpressionStatement"
  | .block _ => "BlockStatement"

namespace Outline

/-- A part that is a text or number. -/
def leaf (field value : String) : Outline :=
  node (field ++ " = " ++ Text.Markup.escape value) []

/-- A part that is a node with parts of its own. -/
def field (name label : String) (parts : List Outline) : Outline := node (name ++ ": " ++ label) parts

/-- A name as a node. -/
def identifierParts (name : String) : List Outline := [leaf "name" (Text.quoted name)]

/-- A block as a part. -/
def blockField (name : String) (statements : List Outline) : Outline :=
  field name "BlockStatement" [node "statements" statements]

end Outline

open Outline

mutual

/-- The parts of an expression. -/
def Expr.parts : Expr → List Outline
  | .int n => [leaf "value" (toString n)]
  | .bool b => [leaf "value" (if b then "True" else "False")]
  | .string s => [leaf "value" (Text.quoted s)]
  | .ident name => identifierParts name
  | .unary op right =>
    [leaf "operator" (Text.quoted op.text), field "right" right.label right.parts]
  | .binary op left right =>
    [leaf "operator" (Text.quoted op.text), field "left" left.label left.parts,
      field "right" right.label right.parts]
  | .ifThen condition consequence none =>
    [field "condition" condition.label condition.parts,
      blockField "consequence" (stmtOutlines consequence)]
  | .ifThen condition consequence (some alternative) =>
    [field "condition" condition.label condition.parts,
      blockField "consequence" (stmtOutlines consequence),
      blockField "alternative" (stmtOutlines alternative)]
  | .function params body =>
    [node "parameters" (params.map fun name => node "Identifier" (identifierParts name)),
      blockField "body" (stmtOutlines body)]
  | .call callee args =>
    [field "function" callee.label callee.parts, node "arguments" (exprOutlines args)]
  | .array elements => [node "elements" (exprOutlines elements)]
  | .index left index =>
    [field "left" left.label left.parts, field "index" index.label index.parts]
  | .hashmap pairs => [node "pairs" (pairOutlines pairs)]

/-- The parts of a statement. -/
def Stmt.parts : Stmt → List Outline
  | .assign name value =>
    [field "name" "Identifier" (identifierParts name), field "value" value.label value.parts]
  | .ret value => [field "value" value.label value.parts]
  | .expr value => [field "expression" value.label value.parts]
  | .block body => [node "statements" (stmtOutlines body)]

/-- The trees of some expressions. -/
def exprOutlines : List Expr → List Outline
  | [] => []
  | e :: es => node e.label e.parts :: exprOutlines es

/-- The trees of some statements. -/
def stmtOutlines : List Stmt → List Outline
  | [] => []
  | s :: ss => node s.label s.parts :: stmtOutlines ss

/-- The trees of the entries of a hashmap. -/
def pairOutlines : List (Expr × Expr) → List Outline
  | [] => []
  | (k, v) :: ps =>
    node "pair" [field "key" k.label k.parts, field "value" v.label v.parts] :: pairOutlines ps

end

/-- The lines of a branch, of which the first one gets the branch sign in front. -/
def branchFrom (sign : String) : List String → List String
  | [] => []
  | l :: ls => (sign ++ l) :: ls

/-- The lines of a label, every line but the first behind guides. -/
def labelLines (guides label : String) : List String :=
  match (Text.Markup.lines label).map String.ofList with
  | [] => []
  | l :: ls => l :: ls.map (guides ++ ·)

mutual

/-- The lines of a tree, every line but the first behind the guides of the branches around. -/
def Outline.linesBehind (guides : String) : Outline → List String
  | .node label children => labelLines guides label ++ branchLines guides children

/-- The lines of the branches of a tree. -/
def branchLines (guides : String) : List Outline → List String
  | [] => []
  | [t] => branchFrom (guides ++ "└── ") (t.linesBehind (guides ++ "    "))
  | t :: u :: ts =>
    branchFrom (guides ++ "├── ") (t.linesBehind (guides ++ "│   ")) ++ branchLines guides (u :: ts)

end

/-- The lines of a tree. -/
def Outline.lines (t : Outline) : List String := t.linesBehind ""

/-- The lines of a program as a tree under a title. -/
def programOutline (title : String) (body : List Stmt) : List String :=
  (Outline.node title (stmtOutlines body)).lines

end Scriptlet
