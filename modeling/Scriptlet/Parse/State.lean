import Scriptlet.Parse.Error

/-! A reader of tokens: the token it stands on, the ones ahead, and the errors found so far. -/

namespace Scriptlet

/-- Why a rule gives no result. -/
inductive Stop where
  /-- a syntax error, which has been recorded -/
  | failed
  /-- more nesting than there is room for -/
  | tooDeep
  /-- an integer of more digits than can be read -/
  | literalTooLong (digits : Nat)
  deriving DecidableEq, Repr

/-- The state of a reader of tokens. -/
structure Parser.State where
  current : Token
  rest : List Token
  errors : List SyntaxError := []
  /-- how many times the reader was moved to the next token -/
  moves : Nat := 0
  deriving Repr

/-- A rule of the grammar: it reads tokens, may record errors, and gives a result or stops. When it
succeeds the reader stands on the last token it has read. -/
abbrev Parser := EStateM Stop Parser.State

namespace Parser

/-- The token ahead. Behind the last token there are only more of its kind. -/
def State.peek (s : State) : Token := s.rest.headD s.current

/-- The reader on the next token. -/
def State.advance (s : State) : State :=
  match s.rest with
  | [] => { s with moves := s.moves + 1 }
  | t :: ts => { s with current := t, rest := ts, moves := s.moves + 1 }

/-- One more error. -/
def State.record (s : State) (pos : Position) (fault : SyntaxFault) : State :=
  { s with errors := s.errors ++ [⟨pos, fault⟩] }

/-- The reader in front of some tokens. -/
def State.ofTokens : List Token → State
  | [] => { current := ⟨.eof, "", ⟨1, 1⟩⟩, rest := [] }
  | t :: ts => { current := t, rest := ts }

def advance : Parser Unit := modify State.advance

def current : Parser Token := return (← get).current

def peek : Parser Token := return (← get).peek

/-- The number of tokens ahead, which bounds every repetition. -/
def ahead : Parser Nat := return (← get).rest.length

def record (pos : Position) (fault : SyntaxFault) : Parser Unit := modify (·.record pos fault)

/-- Records an error and gives up. -/
def fail {α : Type} (pos : Position) (fault : SyntaxFault) : Parser α := do
  record pos fault
  throw .failed

/-- Moves to the token ahead if it is of the given kind. -/
def expect (kind : Kind) : Parser Unit := do
  let t ← peek
  if t.kind = kind then advance else fail t.pos (.expected kind t)

/-- A rule whose failure is no failure of the whole. -/
def attempt {α : Type} (p : Parser α) : Parser (Option α) := fun s =>
  match p s with
  | .ok a t => .ok (some a) t
  | .error .failed t => .ok none t
  | .error e t => .error e t

/-- Passes over line ends ahead, at most the given number. -/
def skipLineEndsUpTo : Nat → Parser Unit
  | 0 => return
  | n + 1 => do
    if (← peek).isLineEnd then
      advance
      skipLineEndsUpTo n

/-- Passes over the line ends ahead. -/
def skipLineEnds : Parser Unit := do skipLineEndsUpTo (← ahead)

/-- Moves on to where the next statement can start, at most the given number of tokens. Braces
opened on the way are passed with all between them and their closing braces. -/
def synchronizeWithin : Nat → (opened : Nat) → Parser Unit
  | 0, _ => return
  | n + 1, opened => do
    match (← current).kind with
    | .eof => return
    | .lbrace =>
      advance
      synchronizeWithin n (opened + 1)
    | .rbrace =>
      if opened = 0 then return
      advance
      synchronizeWithin n (opened - 1)
    | .semicolon =>
      advance
      if opened ≠ 0 then synchronizeWithin n opened
    | _ =>
      advance
      synchronizeWithin n opened

/-- Moves on to where the next statement can start: behind a semicolon, or onto the closing brace
of the block around. -/
def synchronize : Parser Unit := do synchronizeWithin (← ahead) 0

end Parser

end Scriptlet
