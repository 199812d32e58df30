/-! The tokens of program text: what kinds there are, how each is called, and where a token
stands. -/

namespace Scriptlet

/-- The kinds of tokens. -/
inductive Kind where
  | illegal | eof
  | ident | int | string
  | assign | plus | minus | star | slash | percent | bang
  | eq | ne | lt | gt | le | ge | and | or
  | comma | semicolon | colon
  | lparen | rparen | lbrace | rbrace | lbracket | rbracket
  | kwIf | kwElse | kwTrue | kwFalse | kwFn | kwReturn
  deriving DecidableEq, Repr

namespace Kind

/-- What a kind is called in messages: its spelling, or a word where the spelling varies. -/
def text : Kind → String
  | illegal => "ILLEGAL"
  | eof => "EOF"
  | ident => "IDENT"
  | int => "INT"
  | string => "STRING"
  | assign => "="
  | plus => "+"
  | minus => "-"
  | star => "*"
  | slash => "/"
  | percent => "%"
  | bang => "!"
  | eq => "=="
  | ne => "!="
  | lt => "<"
  | gt => ">"
  | le => "<="
  | ge => ">="
  | and => "&&"
  | or => "||"
  | comma => ","
  | semicolon => ";"
  | colon => ":"
  | lparen => "("
  | rparen => ")"
  | lbrace => "\x7b"
  | rbrace => "\x7d"
  | lbracket => "["
  | rbracket => "]"
  | kwIf => "IF"
  | kwElse => "ELSE"
  | kwTrue => "TRUE"
  | kwFalse => "FALSE"
  | kwFn => "FUNCTION"
  | kwReturn => "RETURN"

/-- The name of a kind in listings. -/
def name : Kind → String
  | illegal => "ILLEGAL"
  | eof => "EOF"
  | ident => "IDENT"
  | int => "INT"
  | string => "STRING"
  | assign => "ASSIGN"
  | plus => "PLUS"
  | minus => "MINUS"
  | star => "STAR"
  | slash => "SLASH"
  | percent => "PERCENT"
  | bang => "BANG"
  | eq => "EQ"
  | ne => "NE"
  | lt => "LT"
  | gt => "GT"
  | le => "LE"
  | ge => "GE"
  | and => "AND"
  | or => "OR"
  | comma => "COMMA"
  | semicolon => "SEMICOLON"
  | colon => "COLON"
  | lparen => "LPAREN"
  | rparen => "RPAREN"
  | lbrace => "LBRACE"
  | rbrace => "RBRACE"
  | lbracket => "LBRACKET"
  | rbracket => "RBRACKET"
  | kwIf => "IF"
  | kwElse => "ELSE"
  | kwTrue => "TRUE"
  | kwFalse => "FALSE"
  | kwFn => "FUNCTION"
  | kwReturn => "RETURN"

/-- The kinds that can be the last token of a statement; a line end after one of them ends the
statement. -/
def endsStatement : Kind → Bool
  | ident | int | string | kwTrue | kwFalse | rparen | rbracket | rbrace => true
  | _ => false

/-- The kind of a word: a keyword, or a name. -/
def ofWord : List Char → Kind
  | ['i', 'f'] => kwIf
  | ['e', 'l', 's', 'e'] => kwElse
  | ['t', 'r', 'u', 'e'] => kwTrue
  | ['f', 'a', 'l', 's', 'e'] => kwFalse
  | ['f', 'n'] => kwFn
  | ['r', 'e', 't', 'u', 'r', 'n'] => kwReturn
  | _ => ident

/-- The kind that two characters spell together. -/
def ofPair? : Char → Char → Option Kind
  | '=', '=' => some eq
  | '!', '=' => some ne
  | '<', '=' => some le
  | '>', '=' => some ge
  | '&', '&' => some and
  | '|', '|' => some or
  | _, _ => none

/-- The kind that one character spells alone. -/
def ofChar? : Char → Option Kind
  | '=' => some assign
  | '+' => some plus
  | '-' => some minus
  | '*' => some star
  | '/' => some slash
  | '%' => some percent
  | '!' => some bang
  | '<' => some lt
  | '>' => some gt
  | ',' => some comma
  | ';' => some semicolon
  | ':' => some colon
  | '(' => some lparen
  | ')' => some rparen
  | '\x7b' => some lbrace
  | '\x7d' => some rbrace
  | '[' => some lbracket
  | ']' => some rbracket
  | _ => none

end Kind

/-- A place in program text: line and column of a character, both counted from one. -/
structure Position where
  line : Nat
  column : Nat
  deriving DecidableEq, Repr

/-- A position as `line:column`. -/
def Position.text (p : Position) : String := toString p.line ++ ":" ++ toString p.column

/-- A token: its kind, its text (without the quotes of a string), and the place of its first
character. -/
structure Token where
  kind : Kind
  text : String
  pos : Position
  deriving DecidableEq, Repr

namespace Token

/-- Whether the token is a statement end made from a line end. -/
def isLineEnd (t : Token) : Bool := t.kind == .semicolon && t.text == "\n"

end Token

end Scriptlet
