/-! Programs as trees. -/

namespace Scriptlet

/-- The operators in front of an operand. -/
inductive PrefixOp where
  | not | neg
  /-- a text that is no operator of the language -/
  | other (text : String)
  deriving DecidableEq, Repr

/-- The operators between two operands. -/
inductive InfixOp where
  | or | and | eq | ne | lt | gt | le | ge | add | sub | mul | div | mod
  /-- a text that is no operator of the language -/
  | other (text : String)
  deriving DecidableEq, Repr

namespace PrefixOp

def text : PrefixOp → String
  | not => "!"
  | neg => "-"
  | other text => text

/-- The operator with the given text. -/
def ofText : String → PrefixOp
  | "!" => not
  | "-" => neg
  | text => other text

theorem text_ofText (s : String) : (ofText s).text = s := by
  unfold ofText
  split <;> rfl

end PrefixOp

namespace InfixOp

def text : InfixOp → String
  | or => "||"
  | and => "&&"
  | eq => "=="
  | ne => "!="
  | lt => "<"
  | gt => ">"
  | le => "<="
  | ge => ">="
  | add => "+"
  | sub => "-"
  | mul => "*"
  | div => "/"
  | mod => "%"
  | other text => text

/-- The operator with the given text. -/
def ofText : String → InfixOp
  | "||" => or
  | "&&" => and
  | "==" => eq
  | "!=" => ne
  | "<" => lt
  | ">" => gt
  | "<=" => le
  | ">=" => ge
  | "+" => add
  | "-" => sub
  | "*" => mul
  | "/" => div
  | "%" => mod
  | text => other text

theorem text_ofText (s : String) : (ofText s).text = s := by
  unfold ofText
  split <;> rfl

end InfixOp

mutual

/-- Expressions. -/
inductive Expr where
  | int (value : Int)
  | bool (value : Bool)
  | string (value : String)
  | ident (name : String)
  | unary (op : PrefixOp) (right : Expr)
  | binary (op : InfixOp) (left right : Expr)
  | ifThen (condition : Expr) (consequence : List Stmt) (alternative : Option (List Stmt))
  | function (params : List String) (body : List Stmt)
  | call (callee : Expr) (args : List Expr)
  | array (elements : List Expr)
  | index (left index : Expr)
  | hashmap (pairs : List (Expr × Expr))

/-- Statements. A block opens no scope of its own. -/
inductive Stmt where
  | assign (name : String) (value : Expr)
  | ret (value : Expr)
  | expr (value : Expr)
  | block (body : List Stmt)

end

instance : Inhabited Expr := ⟨.bool false⟩
instance : Inhabited Stmt := ⟨.block []⟩

/-- Anything that can be evaluated. -/
inductive Node where
  | program (body : List Stmt)
  | stmt (s : Stmt)
  | expr (e : Expr)
  /-- a thing of the host that is no part of a program, with the name of its type -/
  | foreign (typeName : String)

end Scriptlet
