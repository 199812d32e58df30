import Scriptlet.Number.Binary64
import Scriptlet.Number.Numeral
import Scriptlet.Value.Basic

/-! Data of the host: what goes into a program as bindings and comes out as its result. -/

namespace Scriptlet

/-- A key of a map. Only texts can be keys of hashmaps. -/
inductive HostKey where
  | text (s : String)
  /-- another key, with the name of its type -/
  | other (typeName : String)
  deriving DecidableEq, Repr

/-- Host data. Data that contains itself is written with `up`, which stands for the list or map so
many levels around it, the innermost being level zero. -/
inductive Host where
  | null
  | bool (b : Bool)
  | int (n : Int)
  | real (x : Number.Binary64)
  | text (s : String)
  | list (items : List Host)
  | tuple (items : List Host)
  | map (entries : List (HostKey × Host))
  /-- a value that has no counterpart, with the name of its type -/
  | foreign (typeName : String)
  | up (levels : Nat)

namespace Host

instance : Inhabited Host := ⟨null⟩

/-- The type name of lists. -/
def listType : String := "list"
/-- The type name of tuples. -/
def tupleType : String := "tuple"
/-- The type name of maps. -/
def mapType : String := "dict"

/-- The entries with a key set to a value, in its old place if it had one. -/
def setEntry (key : String) (v : Host) : List (HostKey × Host) → List (HostKey × Host)
  | [] => [(.text key, v)]
  | (k, w) :: rest => if k = .text key then (k, v) :: rest else (k, w) :: setEntry key v rest

/-- A map of entries in order. A text that is a key twice has the place of the first entry and the
value of the last. -/
def ofEntries (entries : List (HostKey × Host)) : Host :=
  .map <| entries.foldl (fun done (k, v) =>
    match k with
    | .text key => setEntry key v done
    | .other _ => done ++ [(k, v)]) []

/-- The name of a value's type. -/
def typeName : Host → String
  | null => "NoneType"
  | bool _ => "bool"
  | int _ => "int"
  | real _ => "float"
  | text _ => "str"
  | list _ => listType
  | tuple _ => tupleType
  | map _ => mapType
  | foreign name => name
  | up _ => listType

/-- A value in the place of a key. -/
def asKey : Host → HostKey
  | text s => .text s
  | v => .other v.typeName

end Host

/-- What cannot cross between host and program. -/
inductive ConversionFault where
  | outOfRange (n : Int)
  /-- an integer out of range that no message can show -/
  | unwritable
  | unsupportedReal (x : Number.Binary64)
  | unsupportedType (typeName : String)
  | unsupportedKey (typeName : String)
  | cyclicHost (typeName : String)
  | missing (name : String)
  | cyclic (tag : Tag)
  | noCounterpart (tag : Tag)
  /-- host data with more nesting than there is room for -/
  | tooDeep
  deriving DecidableEq, Repr

/-- The text of a floating-point number that is not finite. -/
def Number.Binary64.nonFiniteText : Number.Binary64 → String
  | .infinite false => "inf"
  | .infinite true => "-inf"
  | _ => "nan"

/-- The message for a fault. -/
def ConversionFault.message : ConversionFault → String
  | outOfRange n => "integer out of 64-bit range: " ++ toString n
  | unwritable => Number.unwritableMessage
  | unsupportedReal x => "unsupported float value: " ++ x.nonFiniteText
  | unsupportedType name => "unsupported value type: " ++ name
  | unsupportedKey name => "unsupported hashmap key type: " ++ name
  | cyclicHost name => "cannot convert cyclic " ++ name
  | missing name => "variable does not exist: " ++ name
  | cyclic tag => "cannot convert cyclic " ++ tag.text
  | noCounterpart tag => "cannot convert " ++ tag.text ++ " to a native value"
  | tooDeep => "input nested too deeply"

end Scriptlet
