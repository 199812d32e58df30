import Scriptlet.Host.Basic
import Scriptlet.Number.Decimal

/-!
Host data written as JSON. Beyond the standard, `NaN`, `Infinity` and `-Infinity` are read as
floating-point numbers; a number with a fraction or an exponent is one too, any other an integer.
-/

namespace Scriptlet.Json

/-- What is wrong at a place of a JSON text. -/
inductive Problem where
  | value | extra | comma | colon | name | unterminated | escape | unicodeEscape | control | mark
  deriving DecidableEq, Repr

/-- The message for a problem. -/
def Problem.message : Problem → String
  | value => "Expecting value"
  | extra => "Extra data"
  | comma => "Expecting ',' delimiter"
  | colon => "Expecting ':' delimiter"
  | name => "Expecting property name enclosed in double quotes"
  | unterminated => "Unterminated string starting at"
  | escape => "Invalid \\escape"
  | unicodeEscape => "Invalid \\uXXXX escape"
  | control => "Invalid control character at"
  | mark => "Unexpected UTF-8 BOM (decode using utf-8-sig)"

/-- Why a text is not read. -/
inductive Fault where
  | malformed (problem : Problem) (offset : Nat)
  | numeralTooLong (digits : Nat)
  /-- more nesting than there is room for -/
  | tooDeep
  deriving DecidableEq, Repr

/-- A problem and its place: line and column counted from one, and the offset. -/
def malformedText (source : List Char) (problem : Problem) (offset : Nat) : String :=
  let before := source.take offset
  let line := before.count '\n' + 1
  let column := (before.reverse.takeWhile (· ≠ '\n')).length + 1
  problem.message ++ ": line " ++ toString line ++ " column " ++ toString column ++ " (char "
    ++ toString offset ++ ")"

/-- A place in a JSON text. -/
structure Cursor where
  rest : List Char
  offset : Nat

/-- Reading fails. -/
def bad {α : Type} (problem : Problem) (offset : Nat) : Except Fault α :=
  .error (.malformed problem offset)

/-- The place so many characters further. -/
def Cursor.skip (c : Cursor) (n : Nat) : Cursor := ⟨c.rest.drop n, c.offset + n⟩

/-- The place behind white space. -/
def Cursor.skipBlank (c : Cursor) : Cursor :=
  c.skip (c.rest.takeWhile fun x => x = ' ' || x = '\t' || x = '\n' || x = '\r').length

/-- The value of a hexadecimal digit. -/
def hexValue? (c : Char) : Option Nat :=
  if '0' ≤ c ∧ c ≤ '9' then some (c.toNat - 48)
  else if 'a' ≤ c ∧ c ≤ 'f' then some (c.toNat - 87)
  else if 'A' ≤ c ∧ c ≤ 'F' then some (c.toNat - 55)
  else none

/-- The value of four hexadecimal digits. -/
def hex4? (a b c d : Char) : Option Nat := do
  return 4096 * (← hexValue? a) + 256 * (← hexValue? b) + 16 * (← hexValue? c) + (← hexValue? d)

/-- The character that an escape other than `\u` stands for. -/
def escaped? : Char → Option Char
  | '"' => some '"'
  | '\\' => some '\\'
  | '/' => some '/'
  | 'b' => some '\x08'
  | 'f' => some '\x0c'
  | 'n' => some '\n'
  | 'r' => some '\r'
  | 't' => some '\t'
  | _ => none

/-- Whether a UTF-16 unit is the first of a pair. -/
def isHigh (n : Nat) : Bool := 0xd800 ≤ n && n < 0xdc00
/-- Whether a UTF-16 unit is the second of a pair. -/
def isLow (n : Nat) : Bool := 0xdc00 ≤ n && n < 0xe000

/-- The character of a UTF-16 unit; half a pair stands for no character and is replaced. -/
def unitChar (n : Nat) : Char := if isHigh n || isLow n then '\ufffd' else Char.ofNat n

/-- The character of a pair of UTF-16 units. -/
def pairChar (high low : Nat) : Char :=
  Char.ofNat (0x10000 + 1024 * (high - 0xd800) + (low - 0xdc00))

/-- A character read in front of what is read behind it. -/
def consTo (c : Char) : Except Fault (List Char × Cursor) → Except Fault (List Char × Cursor)
  | .ok (cs, place) => .ok (c :: cs, place)
  | .error e => .error e

/-- The rest of a string that opened at the place `start`, and the place behind its quote. -/
def stringRest (start : Nat) : List Char → Nat → Except Fault (List Char × Cursor)
  | [], _ => bad .unterminated start
  | ['\\'], _ => bad .unterminated start
  | '\\' :: 'u' :: a :: b :: c :: d :: '\\' :: 'u' :: e :: f :: g :: h :: x :: rest, i =>
    match hex4? a b c d with
    | none => bad .unicodeEscape (i + 1)
    | some n =>
      if isHigh n then
        match hex4? e f g h with
        | none => bad .unicodeEscape (i + 7)
        | some m =>
          if isLow m then consTo (pairChar n m) (stringRest start (x :: rest) (i + 12))
          else
            consTo (unitChar n)
              (stringRest start ('\\' :: 'u' :: e :: f :: g :: h :: x :: rest) (i + 6))
      else
        consTo (unitChar n)
          (stringRest start ('\\' :: 'u' :: e :: f :: g :: h :: x :: rest) (i + 6))
  | '\\' :: 'u' :: a :: b :: c :: d :: x :: rest, i =>
    match hex4? a b c d with
    | none => bad .unicodeEscape (i + 1)
    | some n => consTo (unitChar n) (stringRest start (x :: rest) (i + 6))
  | '\\' :: 'u' :: _, i => bad .unicodeEscape (i + 1)
  | '\\' :: c :: rest, i =>
    match escaped? c with
    | some x => consTo x (stringRest start rest (i + 2))
    | none => bad .escape i
  | c :: rest, i =>
    if c = '"' then .ok ([], ⟨rest, i + 1⟩)
    else if c.toNat < 0x20 then bad .control i
    else consTo c (stringRest start rest (i + 1))
termination_by cs => cs.length

/-- The fraction of a number: a point with digits behind it, or nothing. -/
def fraction : List Char → List Char
  | '.' :: c :: cs => if c.isDigit then c :: cs.takeWhile Char.isDigit else []
  | _ => []

/-- The exponent of a number as it is written, or nothing. -/
def exponent : List Char → List Char
  | c :: cs =>
    if c = 'e' || c = 'E' then
      let (sign, digits) : List Char × List Char :=
        match cs with
        | '+' :: ds => (['+'], ds.takeWhile Char.isDigit)
        | '-' :: ds => (['-'], ds.takeWhile Char.isDigit)
        | ds => ([], ds.takeWhile Char.isDigit)
      if digits.isEmpty then [] else c :: sign ++ digits
    else []
  | [] => []

/-- The whole part of a number: a zero, or digits of which the first is none. -/
def whole : List Char → List Char
  | '0' :: _ => ['0']
  | cs => cs.takeWhile Char.isDigit

/-- A number. -/
def number (place : Cursor) : Except Fault (Host × Cursor) :=
  let (negative, body) : Bool × List Char :=
    match place.rest with
    | '-' :: cs => (true, cs)
    | cs => (false, cs)
  let digits := whole body
  if digits.isEmpty then bad .value place.offset
  else
    let places := fraction (body.drop digits.length)
    let point := if places.isEmpty then 0 else places.length + 1
    let power := exponent (body.drop (digits.length + point))
    let size := (if negative then 1 else 0) + digits.length + point + power.length
    let after := place.skip size
    if places.isEmpty && power.isEmpty then
      if Number.digitLimit < digits.length then .error (.numeralTooLong digits.length)
      else .ok (.int (Number.signed negative (Number.ofAsciiDigits digits)), after)
    else
      let shift := (Number.exponent? power).getD 0 - places.length
      .ok (.real (.ofDecimal negative (Number.ofAsciiDigits (digits ++ places)) shift), after)

/-- The words that stand for a value. -/
def words : List (String × Host) :=
  [("null", .null), ("true", .bool true), ("false", .bool false), ("NaN", .real .nan),
   ("Infinity", .real (.infinite false)), ("-Infinity", .real (.infinite true))]

/-- A value that has no parts. -/
def scalar (place : Cursor) : Except Fault (Host × Cursor) :=
  match place.rest with
  | '"' :: cs => do
    let (text, after) ← stringRest place.offset cs (place.offset + 1)
    return (.text (String.ofList text), after)
  | cs =>
    match words.find? fun (word, _) => word.toList.isPrefixOf cs with
    | some (word, v) => .ok (v, place.skip word.length)
    | none => number place

/-- How a value inside a list or map is read. -/
abbrev ValueReader := Cursor → Except Fault (Host × Cursor)

/-- The items of a list from the first one on, through the closing bracket. -/
def items (value : ValueReader) : Nat → Cursor → Except Fault (List Host × Cursor)
  | 0, place => bad .value place.offset
  | n + 1, place => do
    let (v, after) ← value place
    let after := after.skipBlank
    match after.rest with
    | ']' :: _ => return ([v], after.skip 1)
    | ',' :: _ =>
      let (vs, last) ← items value n (after.skip 1).skipBlank
      return (v :: vs, last)
    | _ => bad .comma after.offset

/-- The entries of a map from the first one on, through the closing brace. -/
def entries (value : ValueReader) : Nat → Cursor → Except Fault (List (HostKey × Host) × Cursor)
  | 0, place => bad .name place.offset
  | n + 1, place => do
    match place.rest with
    | '"' :: cs =>
      let (key, after) ← stringRest place.offset cs (place.offset + 1)
      let after := after.skipBlank
      match after.rest with
      | ':' :: _ =>
        let (v, after) ← value (after.skip 1).skipBlank
        let entry := (HostKey.text (String.ofList key), v)
        let after := after.skipBlank
        match after.rest with
        | '\x7d' :: _ => return ([entry], after.skip 1)
        | ',' :: _ =>
          let (es, last) ← entries value n (after.skip 1).skipBlank
          return (entry :: es, last)
        | _ => bad .comma after.offset
      | _ => bad .colon after.offset
    | _ => bad .name place.offset

/-- A value. Every list or map inside another one takes one level of the depth; none has as many
parts as the bound, which is more than the length of the text. -/
def value (bound : Nat) : (depth : Nat) → ValueReader
  | 0, _ => .error .tooDeep
  | d + 1, place =>
    match place.rest with
    | '[' :: _ => do
      let start := (place.skip 1).skipBlank
      match start.rest with
      | ']' :: _ => return (.list [], start.skip 1)
      | _ =>
        let (vs, after) ← items (value bound d) bound start
        return (.list vs, after)
    | '\x7b' :: _ => do
      let start := (place.skip 1).skipBlank
      match start.rest with
      | '\x7d' :: _ => return (.ofEntries [], start.skip 1)
      | _ =>
        let (es, after) ← entries (value bound d) bound start
        return (.ofEntries es, after)
    | _ => scalar place

/-- Reads a whole text as one value. -/
def read (depth : Nat) (source : List Char) : Except Fault Host := do
  if source.head? = some '\ufeff' then bad .mark 0
  let (v, after) ← value (source.length + 1) depth (Cursor.skipBlank ⟨source, 0⟩)
  let after := after.skipBlank
  if after.rest.isEmpty then return v else bad .extra after.offset

end Scriptlet.Json
