import Scriptlet.Number.Word
import Scriptlet.Value.Basic

/-! Operators on values. -/

namespace Scriptlet
open Number Value

/-- An operator in front of its operand. All but `false` negates to `false`. -/
def PrefixOp.apply : PrefixOp → Value → Value
  | not, v => .bool (v = .bool false)
  | neg, .int n _ => ofInt (wrap (-n))
  | op, v => ofFault (.unknownPrefix op v.tag)

/-- An operator between integers. Results are words; division cuts off toward zero. -/
def InfixOp.onInts (op : InfixOp) (a b : Int) : Value :=
  match op with
  | add => ofInt (wrap (a + b))
  | sub => ofInt (wrap (a - b))
  | mul => ofInt (wrap (a * b))
  | div => if b = 0 then ofFault .divisionByZero else ofInt (wrap (a.tdiv b))
  | mod => if b = 0 then ofFault .moduloByZero else ofInt (wrap (a.tmod b))
  | eq => .bool (a = b)
  | ne => .bool (a ≠ b)
  | lt => .bool (a < b)
  | gt => .bool (b < a)
  | le => .bool (a ≤ b)
  | ge => .bool (b ≤ a)
  | op => ofFault (.unknownInfix .integer op .integer)

/-- An operator between texts, which are in the order of their code points. -/
def InfixOp.onStrings (op : InfixOp) (a b : String) : Value :=
  match op with
  | add => ofString (a ++ b)
  | eq => .bool (a = b)
  | ne => .bool (a ≠ b)
  | lt => .bool (a < b)
  | gt => .bool (b < a)
  | le => .bool (!(b < a : Bool))
  | ge => .bool (!(a < b : Bool))
  | op => ofFault (.unknownInfix .string op .string)

/-- An operator between operands, both of which have been evaluated. Collections and functions are
equal only to themselves. -/
def InfixOp.apply (op : InfixOp) (l r : Value) : Value :=
  if l.tag ≠ r.tag then ofFault (.typeMismatch l.tag op r.tag)
  else
    match op, l, r with
    | and, .bool a, .bool b => .bool (a && b)
    | or, .bool a, .bool b => .bool (a || b)
    | and, l, r => ofFault (.typeMismatch l.tag and r.tag)
    | or, l, r => ofFault (.typeMismatch l.tag or r.tag)
    | op, .int a _, .int b _ => op.onInts a b
    | op, .string a _, .string b _ => op.onStrings a b
    | eq, l, r => .bool (l = r)
    | ne, l, r => .bool (l ≠ r)
    | op, l, r => ofFault (.unknownInfix l.tag op r.tag)

end Scriptlet
