import Scriptlet.Text.Blank
import Scriptlet.Text.Digit
import Scriptlet.Text.Quoted

/-! Integers written in decimal digits. -/

namespace Scriptlet.Number
open Scriptlet.Text

/-- The most digits that a numeral may have. -/
def digitLimit : Nat := 4300

/-- Why a text is not read as an integer. -/
inductive NumeralError where
  | notNumeral (text : String)
  | tooLong (digits : Nat)
  deriving DecidableEq, Repr

/-- The text for a numeral of more digits than the limit. -/
def tooLongMessage (digits : Nat) : String :=
  "Exceeds the limit (" ++ toString digitLimit ++ " digits) for integer string conversion: value has "
    ++ toString digits ++ " digits; use sys.set_int_max_str_digits() to increase the limit"

/-- The integers that can be written: their digits are no more than the limit. -/
def Writable (n : Int) : Prop := (Nat.toDigits 10 n.natAbs).length ≤ digitLimit

instance (n : Int) : Decidable (Writable n) := inferInstanceAs (Decidable (_ ≤ _))

/-- The text for an integer of more digits than the limit. -/
def unwritableMessage : String :=
  "Exceeds the limit (" ++ toString digitLimit ++
    " digits) for integer string conversion; use sys.set_int_max_str_digits() to increase the limit"

/-- How many characters of a text that is no numeral are shown. -/
def shownLength : Nat := 200

def NumeralError.message : NumeralError → String
  | .notNumeral text =>
    "invalid literal for int() with base 10: " ++ String.ofList ((quoted text).toList.take shownLength)
  | .tooLong digits => tooLongMessage digits

/-- The values of digits that may be kept apart by single underscores. -/
def groupedDigits? : List Char → Option (List Nat)
  | [] => none
  | [c] => (decimalValue? c).map ([·])
  | c :: '_' :: rest => do return (← decimalValue? c) :: (← groupedDigits? rest)
  | c :: d :: rest => do return (← decimalValue? c) :: (← groupedDigits? (d :: rest))

/-- The number that a list of decimal digits stands for. -/
def ofDigits (digits : List Nat) : Nat := digits.foldl (fun n d => 10 * n + d) 0

/-- Whether a character can be in a numeral behind its sign. -/
def isNumeralChar (c : Char) : Bool := c = '_' || (decimalValue? c).isSome

/-- Reads an integer: white space around it, one sign, digits of any script. Too many digits are
found before anything behind them is. -/
def readInteger (text : String) : Except NumeralError Int :=
  let (sign, body) : Int × List Char :=
    match trimChars text.toList with
    | '-' :: cs => (-1, cs)
    | '+' :: cs => (1, cs)
    | cs => (1, cs)
  match groupedDigits? (body.takeWhile isNumeralChar) with
  | none => .error (.notNumeral text)
  | some digits =>
    if digitLimit < digits.length then .error (.tooLong digits.length)
    else if body.all isNumeralChar then .ok (sign * ofDigits digits)
    else .error (.notNumeral text)

/-- The number that ASCII digits stand for. -/
def ofAsciiDigits (cs : List Char) : Nat := ofDigits (cs.map fun c => c.toNat - 48)

end Scriptlet.Number
