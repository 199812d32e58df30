import Scriptlet.Text.Quoted
import Scriptlet.Token.Basic

/-! What can be wrong with the syntax of a program. -/

namespace Scriptlet

/-- What is wrong at one place of a program text. -/
inductive SyntaxFault where
  /-- another kind of token is needed -/
  | expected (kind : Kind) (got : Token)
  /-- no expression starts with a token of this kind -/
  | noExpression (kind : Kind)
  /-- a character outside the language -/
  | illegal (text : String)
  /-- an integer that no word holds -/
  | intTooLarge (literal : String)
  /-- a statement that goes on where it has to end -/
  | unterminated (got : Token)
  /-- a closing brace that closes nothing -/
  | strayBrace
  /-- more nesting than there is room for -/
  | tooDeep
  deriving DecidableEq, Repr

/-- A token as it is called in a message. -/
def Token.described (t : Token) : String :=
  if t.kind = .illegal then "illegal character " ++ Text.quoted t.text else t.kind.text

/-- The message for a fault. -/
def SyntaxFault.message : SyntaxFault → String
  | expected kind got => "expected next token: " ++ kind.text ++ ", got " ++ got.described
  | noExpression kind => "prefix parse function for " ++ kind.text ++ " not found"
  | illegal text => "illegal character " ++ Text.quoted text
  | intTooLarge literal => "could not parse " ++ Text.quoted literal ++ " as integer"
  | unterminated got => "expected ; or newline after statement, got " ++ got.described
  | strayBrace => "unexpected \x7d"
  | tooDeep => "maximum nesting depth exceeded"

/-- A fault and its place. -/
structure SyntaxError where
  pos : Position
  fault : SyntaxFault
  deriving DecidableEq, Repr

/-- The text of an error: its position and the message. -/
def SyntaxError.text (e : SyntaxError) : String := e.pos.text ++ ": " ++ e.fault.message

end Scriptlet
