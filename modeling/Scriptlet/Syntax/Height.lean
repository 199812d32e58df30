import Scriptlet.Syntax.Basic

/-! How deeply programs are nested. -/

namespace Scriptlet

mutual

/-- The number of levels of an expression. -/
def Expr.height : Expr → Nat
  | .int _ | .bool _ | .string _ | .ident _ => 1
  | .unary _ right => right.height + 1
  | .binary _ left right => max left.height right.height + 1
  | .ifThen condition consequence none => max condition.height (stmtsHeight consequence) + 1
  | .ifThen condition consequence (some alternative) =>
    max condition.height (max (stmtsHeight consequence) (stmtsHeight alternative)) + 1
  | .function _ body => stmtsHeight body + 1
  | .call callee args => max callee.height (exprsHeight args) + 1
  | .array elements => exprsHeight elements + 1
  | .index left index => max left.height index.height + 1
  | .hashmap pairs => pairsHeight pairs + 1

/-- The number of levels of a statement. -/
def Stmt.height : Stmt → Nat
  | .assign _ e | .ret e | .expr e => e.height + 1
  | .block body => stmtsHeight body + 1

/-- The number of levels of the highest of some expressions. -/
def exprsHeight : List Expr → Nat
  | [] => 0
  | e :: es => max e.height (exprsHeight es)

/-- The number of levels of the highest of some statements. -/
def stmtsHeight : List Stmt → Nat
  | [] => 0
  | s :: ss => max s.height (stmtsHeight ss)

/-- The number of levels of the highest key or value. -/
def pairsHeight : List (Expr × Expr) → Nat
  | [] => 0
  | (k, v) :: ps => max k.height (max v.height (pairsHeight ps))

end

/-- The number of levels of a node. -/
def Node.height : Node → Nat
  | .program body => stmtsHeight body + 1
  | .stmt s => s.height
  | .expr e => e.height
  | .foreign _ => 0

end Scriptlet
