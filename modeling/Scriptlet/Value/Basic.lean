import Scriptlet.Syntax.Basic

/-! The values that programs compute with. -/

namespace Scriptlet

/-- The types of values. -/
inductive Tag where
  | integer | boolean | string | null | array | hashmap | function | builtin | error | returnValue
  deriving DecidableEq, Repr

/-- The name of a type. -/
def Tag.text : Tag → String
  | integer => "INTEGER"
  | boolean => "BOOLEAN"
  | string => "STRING"
  | null => "NULL"
  | array => "ARRAY"
  | hashmap => "HASHMAP"
  | function => "FUNCTION"
  | builtin => "BUILTIN"
  | error => "ERROR"
  | returnValue => "RETURN_VALUE"

/-- The functions that every program can call. -/
inductive Builtin where
  | len | push | first | last | intToString
  deriving DecidableEq, Repr

namespace Builtin

def name : Builtin → String
  | len => "len"
  | push => "push"
  | first => "first"
  | last => "last"
  | intToString => "intToString"

/-- The builtin of a name. -/
def ofName? (s : String) : Option Builtin :=
  [len, push, first, last, intToString].find? (·.name = s)

end Builtin

/-- What goes wrong while a program runs. -/
inductive Fault where
  | typeMismatch (left : Tag) (op : InfixOp) (right : Tag)
  | unknownInfix (left : Tag) (op : InfixOp) (right : Tag)
  | unknownPrefix (op : PrefixOp) (right : Tag)
  | divisionByZero
  | moduloByZero
  | unbound (name : String)
  | conditionNotBoolean
  | arity (got want : Nat)
  | notCallable (tag : Tag)
  | notIndexable (tag : Tag)
  | indexNotInteger (left index : Tag)
  | unhashable (tag : Tag)
  | noLength (tag : Tag)
  | firstNotArray (tag : Tag)
  | notArray (tag : Tag)
  | notInteger (tag : Tag)
  /-- a fault that the host made -/
  | host (text : String)
  deriving DecidableEq, Repr

/-- The message for a fault. -/
def Fault.message : Fault → String
  | typeMismatch l op r => "type mismatch: " ++ l.text ++ " " ++ op.text ++ " " ++ r.text
  | unknownInfix l op r => "unknown operator: " ++ l.text ++ " " ++ op.text ++ " " ++ r.text
  | unknownPrefix op r => "unknown operator: " ++ op.text ++ r.text
  | divisionByZero => "division by zero"
  | moduloByZero => "modulo by zero"
  | unbound name => "identifier not found: " ++ name
  | conditionNotBoolean => "non boolean condition in if statement"
  | arity got want => "wrong number of arguments: " ++ toString got ++ " want: " ++ toString want
  | notCallable tag => "call not a function: " ++ tag.text
  | notIndexable tag => "index operator not supported: " ++ tag.text
  | indexNotInteger l i => "index operator not supported: " ++ l.text ++ "[" ++ i.text ++ "]"
  | unhashable tag => "unusable as hash key: " ++ tag.text
  | noLength tag => "type of argument not supported: " ++ tag.text
  | firstNotArray tag => "first argument must be ARRAY, got: " ++ tag.text
  | notArray tag => "argument must be ARRAY, got: " ++ tag.text
  | notInteger tag => "argument must be INTEGER, got: " ++ tag.text
  | host text => text

/-- What tells a value from an equal one where a host has to. Evaluation marks no value and looks at
no mark. -/
abbrev Mark := Option Nat

/-- Values. Arrays, hashmaps and functions are places in a store, so that two of them are the same
only if they have one place. -/
inductive Value where
  | int (n : Int) (mark : Mark)
  | bool (b : Bool)
  | string (s : String) (mark : Mark)
  | null
  | array (place : Nat)
  | hashmap (place : Nat)
  | function (place : Nat)
  | builtin (b : Builtin)
  /-- a signal that ends evaluation up to the program -/
  | error (fault : Fault) (mark : Mark)
  /-- a signal that ends evaluation up to the call, with the value of the call -/
  | returned (value : Value) (mark : Mark)
  deriving DecidableEq, Repr

namespace Value

instance : Inhabited Value := ⟨null⟩

/-- The type of a value. -/
def tag : Value → Tag
  | int .. => .integer
  | bool _ => .boolean
  | string .. => .string
  | null => .null
  | array _ => .array
  | hashmap _ => .hashmap
  | function _ => .function
  | builtin _ => .builtin
  | error .. => .error
  | returned .. => .returnValue

/-- Whether a value is a signal, which is handed upward and never used as data. -/
def isSignal : Value → Bool
  | error .. | returned .. => true
  | _ => false

/-- An integer of evaluation. -/
def ofInt (n : Int) : Value := int n none

/-- A text of evaluation. -/
def ofString (s : String) : Value := string s none

/-- An error of evaluation. -/
def ofFault (f : Fault) : Value := error f none

end Value

end Scriptlet
