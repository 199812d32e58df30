import Scriptlet.Syntax.Basic
import Scriptlet.Token.Basic

/-! How strongly operators bind. -/

namespace Scriptlet

namespace Power

/-- Binds nothing. -/
def lowest : Nat := 0
/-- The power of an operator in front of its operand. -/
def unary : Nat := 7
/-- The power of calls and indexing. -/
def postfixed : Nat := 8

end Power

/-- How strongly a token binds to the operand in front of it. -/
def Kind.power : Kind → Nat
  | .or => 1
  | .and => 2
  | .eq | .ne => 3
  | .lt | .gt | .le | .ge => 4
  | .plus | .minus => 5
  | .star | .slash | .percent => 6
  | .lparen | .lbracket => Power.postfixed
  | _ => Power.lowest

/-- The operator that a token between two operands stands for. -/
def InfixOp.ofKind? : Kind → Option InfixOp
  | .or => some or
  | .and => some and
  | .eq => some eq
  | .ne => some ne
  | .lt => some lt
  | .gt => some gt
  | .le => some le
  | .ge => some ge
  | .plus => some add
  | .minus => some sub
  | .star => some mul
  | .slash => some div
  | .percent => some mod
  | _ => none

end Scriptlet
