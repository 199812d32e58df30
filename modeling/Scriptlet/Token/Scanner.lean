import Scriptlet.Token.Basic

/-! Program text as tokens. A line end is a token where the token before it can end a statement,
and white space elsewhere. -/

namespace Scriptlet

/-- The characters that begin a name. -/
def isLetter (c : Char) : Bool := ('a' ≤ c && c ≤ 'z') || ('A' ≤ c && c ≤ 'Z') || c == '_'

/-- The characters of an integer. -/
def isDigit (c : Char) : Bool := '0' ≤ c && c ≤ '9'

/-- The characters that continue a name. -/
def isWordChar (c : Char) : Bool := isLetter c || isDigit c

/-- A place between two tokens of a program text. -/
structure Scanner where
  /-- the text still to be read -/
  rest : List Char
  /-- the number of characters read -/
  offset : Nat := 0
  /-- the current line, counted from one -/
  line : Nat := 1
  /-- the offset of the current line's first character -/
  lineStart : Nat := 0
  /-- whether the last token can end a statement -/
  atEnd : Bool := false
  deriving Repr

namespace Scanner
variable (s : Scanner)

/-- The position of the next character. -/
def pos : Position := ⟨s.line, s.offset - s.lineStart + 1⟩

/-- One character read, which is not a line end. -/
def step (rest : List Char) : Scanner := { s with rest, offset := s.offset + 1 }

/-- A line end read. -/
def newline (rest : List Char) : Scanner :=
  { s with rest, offset := s.offset + 1, line := s.line + 1, lineStart := s.offset + 1 }

/-- One character read. -/
def read (c : Char) (rest : List Char) : Scanner :=
  if c = '\n' then s.newline rest else s.step rest

/-- Some characters read, none of which is a line end. -/
def skip (n : Nat) (rest : List Char) : Scanner := { s with rest, offset := s.offset + n }

/-- White space is passed over; a line end only where it ends no statement. -/
def skipBlank (s : Scanner) : Scanner := go s.rest s
where
  go : List Char → Scanner → Scanner
    | [], s => s
    | c :: cs, s =>
      if c = ' ' || c = '\t' || c = '\r' then go cs (s.step cs)
      else if c = '\n' && !s.atEnd then go cs (s.newline cs)
      else s

/-- The characters up to a quote, and the place after that quote or at the end of the text. -/
def readString (s : Scanner) : List Char × Scanner := go s.rest s
where
  go : List Char → Scanner → List Char × Scanner
    | [], s => ([], s)
    | c :: cs, s =>
      if c = '"' then ([], s.step cs)
      else
        let (text, t) := go cs (s.read c cs)
        (c :: text, t)

/-- A run of characters of one class. -/
def readRun (p : Char → Bool) (s : Scanner) : List Char × Scanner :=
  let run := s.rest.takeWhile p
  (run, s.skip run.length (s.rest.dropWhile p))

/-- The token that starts at the next character, and the place behind it. -/
def scan (s : Scanner) : Token × Scanner :=
  match s.rest with
  | [] => (⟨.eof, "", s.pos⟩, s)
  | c :: cs =>
    if c = '\n' then (⟨.semicolon, "\n", s.pos⟩, s.newline cs)
    else if c = '"' then
      let (text, t) := (s.step cs).readString
      (⟨.string, String.ofList text, s.pos⟩, t)
    else if isLetter c then
      let (word, t) := s.readRun isWordChar
      (⟨.ofWord word, String.ofList word, s.pos⟩, t)
    else if isDigit c then
      let (digits, t) := s.readRun isDigit
      (⟨.int, String.ofList digits, s.pos⟩, t)
    else
      match cs.head?.bind (Kind.ofPair? c) with
      | some kind => (⟨kind, kind.text, s.pos⟩, s.skip 2 (cs.drop 1))
      | none => (⟨(Kind.ofChar? c).getD .illegal, String.singleton c, s.pos⟩, s.step cs)

/-- The next token. At the end of the text it is the end token, any number of times. -/
def next (s : Scanner) : Token × Scanner :=
  let (token, t) := s.skipBlank.scan
  (token, { t with atEnd := token.kind.endsStatement })

/-- The tokens up to the first end token, at most the given number of others. -/
def tokens : Nat → Scanner → List Token
  | 0, s => [s.next.1]
  | n + 1, s =>
    let (token, t) := s.next
    if token.kind = .eof then [token] else token :: tokens n t

end Scanner

/-- The place before the first token of a text. -/
def Scanner.ofText (source : String) : Scanner := { rest := source.toList }

/-- The tokens of a text; the last one is the end token. -/
def tokenize (source : String) : List Token :=
  let s := Scanner.ofText source
  s.tokens s.rest.length

end Scriptlet
