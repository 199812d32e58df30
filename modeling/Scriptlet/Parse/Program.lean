import Scriptlet.Parse.Rules
import Scriptlet.Token.Scanner

/-! Program text as a program and the list of its syntax errors. -/

namespace Scriptlet

/-- A program as far as it could be read, and the errors in the order in which they were found. -/
structure Parsed where
  body : List Stmt
  errors : List SyntaxError

namespace Parser

/-- The statements up to the end. A closing brace that closes nothing is an error, unless the
statement before it had one, which may have read the opening brace. -/
def Rules.program (r : Rules) : Nat → (recovering : Bool) → Parser (List Stmt)
  | 0, _ => return []
  | n + 1, recovering => do
    let s ← get
    match s.current.kind with
    | .eof => return []
    | .rbrace =>
      unless recovering do record s.current.pos .strayBrace
      advance
      program r n false
    | _ =>
      let stmt ← r.terminated
      let found := (← get).errors.length
      return stmt.toList ++ (← program r n (s.errors.length < found))

/-- Reads tokens as a program with the rules for a depth of nesting, and says how it ended. -/
def run (depth : Nat) (tokens : List Token) : EStateM.Result Stop State (List Stmt) :=
  let s := State.ofTokens tokens
  (rules depth).program s.rest.length false s

end Parser

/-- An integer with more digits than can be read. -/
structure LiteralTooLong where
  digits : Nat
  deriving DecidableEq, Repr

def LiteralTooLong.message (e : LiteralTooLong) : String := Number.tooLongMessage e.digits

/-- Reads tokens as a program. With more nesting than the depth allows there is no program, and the
last error says so. -/
def parseTokens (depth : Nat) (tokens : List Token) : Except LiteralTooLong Parsed :=
  match Parser.run depth tokens with
  | .ok body s => .ok ⟨body, s.errors⟩
  | .error (.literalTooLong digits) _ => .error ⟨digits⟩
  | .error _ s => .ok ⟨[], (s.record s.current.pos .tooDeep).errors⟩

/-- Reads a text as a program. -/
def parse (depth : Nat) (source : String) : Except LiteralTooLong Parsed :=
  parseTokens depth (tokenize source)

end Scriptlet
