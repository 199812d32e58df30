import Scriptlet.Number.Numeral
import Scriptlet.Number.Word
import Scriptlet.Parse.Power
import Scriptlet.Parse.State

/-!
The rules of the grammar. A rule is written over the rules for what it nests, so that the rules for
every depth come from the ones for one level less, and those for no depth at all stop.

Repetitions are bounded by the number of tokens ahead. Every round moves on by a token at least, so
the bound cuts nothing off.
-/

namespace Scriptlet.Parser

/-- The rules for expressions and statements at some depth of nesting. -/
structure Rules where
  /-- an expression whose operators bind more strongly than the given power -/
  expression : Nat → Parser Expr
  statement : Parser Stmt

namespace Rules
variable (r : Rules)

/-- Further elements of a list, each behind a comma. -/
def moreItems : Nat → Parser (List Expr)
  | 0 => return []
  | n + 1 => do
    if (← peek).kind = .comma then
      advance
      skipLineEnds
      advance
      let item ← r.expression Power.lowest
      skipLineEnds
      return item :: (← moreItems n)
    else return []

/-- The expressions between an opening bracket, on which the reader stands, and its closing one. -/
def list (close : Kind) : Parser (List Expr) := do
  skipLineEnds
  if (← peek).kind = close then
    advance
    return []
  else
    advance
    let item ← r.expression Power.lowest
    skipLineEnds
    let items := item :: (← r.moreItems (← ahead))
    expect close
    return items

/-- The rest of an entry of a hashmap whose key has been read. -/
def entry (key : Expr) : Parser (Expr × Expr) := do
  expect .colon
  advance
  let value ← r.expression Power.lowest
  skipLineEnds
  return (key, value)

/-- Further entries of a hashmap, each behind a comma. -/
def moreEntries : Nat → Parser (List (Expr × Expr))
  | 0 => return []
  | n + 1 => do
    if (← peek).kind = .comma then
      advance
      skipLineEnds
      advance
      let pair ← r.entry (← r.expression Power.lowest)
      return pair :: (← moreEntries n)
    else return []

/-- The rest of a hashmap whose first key has been read. -/
def hashmapFrom (key : Expr) : Parser Expr := do
  let pair ← r.entry key
  let pairs := pair :: (← r.moreEntries (← ahead))
  expect .rbrace
  return .hashmap pairs

/-- A hashmap, with the reader on its opening brace. -/
def hashmap : Parser Expr := do
  skipLineEnds
  if (← peek).kind = .rbrace then
    advance
    return .hashmap []
  else
    advance
    r.hashmapFrom (← r.expression Power.lowest)

/-- The end of a statement, which was read or was not. The reader moves behind the terminator, or
onto a closing brace or the end. -/
def terminate : Option Stmt → Parser (Option Stmt)
  | none => do
    synchronize
    return none
  | some stmt => do
    let t ← peek
    match t.kind with
    | .semicolon =>
      advance
      advance
    | .rbrace | .eof => advance
    | _ =>
      record t.pos (.unterminated t)
      advance
      synchronize
    return some stmt

/-- A statement and its end, or a semicolon alone. -/
def terminated : Parser (Option Stmt) := do
  if (← current).kind = .semicolon then
    advance
    return none
  else terminate (← attempt r.statement)

/-- The statements up to a closing brace or the end. -/
def moreStatements : Nat → Parser (List Stmt)
  | 0 => return []
  | n + 1 => do
    match (← current).kind with
    | .rbrace | .eof => return []
    | _ =>
      let stmt ← r.terminated
      return stmt.toList ++ (← moreStatements n)

/-- The rest of a block, through its closing brace. -/
def blockRest : Parser (List Stmt) := do
  let body ← r.moreStatements (← ahead)
  let t ← current
  if t.kind = .rbrace then return body else fail t.pos (.expected .rbrace t)

/-- A block, with the reader on its opening brace. -/
def block : Parser (List Stmt) := do
  advance
  r.blockRest

/-- Further parameters, each behind a comma. -/
def moreParams : Nat → Parser (List String)
  | 0 => return []
  | n + 1 => do
    if (← peek).kind = .comma then
      advance
      expect .ident
      let name := (← current).text
      return name :: (← moreParams n)
    else return []

/-- The parameters of a function, with the reader on the opening parenthesis. -/
def params : Parser (List String) := do
  if (← peek).kind = .rparen then
    advance
    return []
  else
    expect .ident
    let name := (← current).text
    let names := name :: (← moreParams (← ahead))
    expect .rparen
    return names

/-- A function, with the reader on its keyword. -/
def function : Parser Expr := do
  expect .lparen
  let names ← params
  expect .lbrace
  return .function names (← r.block)

/-- A conditional, with the reader on its keyword. -/
def conditional : Parser Expr := do
  expect .lparen
  advance
  let condition ← r.expression Power.lowest
  expect .rparen
  expect .lbrace
  let consequence ← r.block
  if (← peek).kind = .kwElse then
    advance
    expect .lbrace
    return .ifThen condition consequence (some (← r.block))
  else return .ifThen condition consequence none

/-- An expression in parentheses, with the reader on the opening one. -/
def group : Parser Expr := do
  advance
  let e ← r.expression Power.lowest
  skipLineEnds
  expect .rparen
  return e

/-- An integer. -/
def integer (t : Token) : Parser Expr := do
  let digits := t.text.toList
  if Number.digitLimit < digits.length then throw (.literalTooLong digits.length)
  let value := Number.ofAsciiDigits digits
  if Number.maxWord < value then fail t.pos (.intTooLarge t.text)
  return .int value

/-- An operand of operators between operands. -/
def operand : Parser Expr := do
  let t ← current
  match t.kind with
  | .ident => return .ident t.text
  | .int => integer t
  | .string => return .string t.text
  | .kwTrue => return .bool true
  | .kwFalse => return .bool false
  | .bang =>
    advance
    return .unary .not (← r.expression Power.unary)
  | .minus =>
    advance
    return .unary .neg (← r.expression Power.unary)
  | .lparen => r.group
  | .kwIf => r.conditional
  | .kwFn => r.function
  | .lbracket => return .array (← r.list .rbracket)
  | .lbrace => r.hashmap
  | .illegal => fail t.pos (.illegal t.text)
  | kind => fail t.pos (.noExpression kind)

/-- What follows an operand: a call, an index, or an operator with its right operand. The reader
stands on the first token of it. -/
def extend (left : Expr) : Parser Expr := do
  let kind := (← current).kind
  match kind with
  | .lparen => return .call left (← r.list .rparen)
  | .lbracket =>
    advance
    let index ← r.expression Power.lowest
    skipLineEnds
    expect .rbracket
    return .index left index
  | _ =>
    match InfixOp.ofKind? kind with
    | none => return left
    | some op =>
      advance
      return .binary op left (← r.expression kind.power)

/-- All that follows an operand and binds more strongly than the given power. -/
def chain (power : Nat) : Nat → Expr → Parser Expr
  | 0, left => return left
  | n + 1, left => do
    if power < (← peek).kind.power then
      advance
      chain power n (← r.extend left)
    else return left

/-- An expression whose first operand has been read. -/
def expressionFrom (power : Nat) (left : Expr) : Parser Expr := do
  r.chain power (← ahead) left

/-- A statement that starts with a brace: an expression that starts with a hashmap if the brace is
closed at once or a colon follows the first item, and a block otherwise. -/
def braced : Parser Stmt := do
  skipLineEnds
  if (← peek).kind = .rbrace then
    advance
    return .expr (← r.expressionFrom Power.lowest (.hashmap []))
  else
    advance
    if (← current).kind = .semicolon then return .block (← r.blockRest)
    else
      let first ← attempt r.statement
      match first, (← peek).kind with
      | some (.expr key), .colon =>
        let left ← r.hashmapFrom key
        return .expr (← r.expressionFrom Power.lowest left)
      | _, _ =>
        let stmt ← terminate first
        return .block (stmt.toList ++ (← r.blockRest))

/-- A statement without its end. -/
def statementRule : Parser Stmt := do
  let t ← current
  match t.kind with
  | .kwReturn =>
    advance
    return .ret (← r.expression Power.lowest)
  | .lbrace => r.braced
  | kind =>
    if kind = .ident && (← peek).kind = .assign then
      advance
      advance
      return .assign t.text (← r.expression Power.lowest)
    else return .expr (← r.expression Power.lowest)

/-- An expression. -/
def expressionRule (power : Nat) : Parser Expr := do
  r.expressionFrom power (← r.operand)

end Rules

/-- The rules for a depth of nesting. -/
def rules : Nat → Rules
  | 0 => ⟨fun _ => throw .tooDeep, throw .tooDeep⟩
  | n + 1 => ⟨fun power => (rules n).expressionRule power, fun s => (rules n).statementRule s⟩

end Scriptlet.Parser
