import Scriptlet.Number.Binary64
import Scriptlet.Number.Numeral

/-! Numbers written with a fraction and an exponent. -/

namespace Scriptlet.Number

/-- A run of ASCII digits in front of a text, and the rest. -/
def digitRun (cs : List Char) : List Char × List Char := cs.span Char.isDigit

/-- Splits off a sign; true stands for minus. -/
def splitSign : List Char → Bool × List Char
  | '-' :: cs => (true, cs)
  | '+' :: cs => (false, cs)
  | cs => (false, cs)

/-- The value of an exponent part such as `e+12`; none is zero. -/
def exponent? : List Char → Option Int
  | [] => some 0
  | c :: cs =>
    if c = 'e' || c = 'E' then
      let (negative, body) := splitSign cs
      match digitRun body with
      | (d :: ds, []) => some (signed negative (ofAsciiDigits (d :: ds)))
      | _ => none
    else none

/-- Reads a floating-point number in decimal notation, or one of the names `inf` and `nan`. -/
def Binary64.ofText? (text : String) : Option Binary64 :=
  let (negative, body) := splitSign text.toList
  if body = "inf".toList then some (.infinite negative)
  else if body = "nan".toList then some .nan
  else
    let (whole, rest) := digitRun body
    let (fraction, rest) :=
      match rest with
      | '.' :: cs => digitRun cs
      | cs => ([], cs)
    if (whole ++ fraction).isEmpty then none
    else
      (exponent? rest).map fun e =>
        .ofDecimal negative (ofAsciiDigits (whole ++ fraction)) (e - fraction.length)

end Scriptlet.Number
