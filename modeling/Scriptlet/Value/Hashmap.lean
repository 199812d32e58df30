import Scriptlet.Text.Hash
import Scriptlet.Value.Basic

/-! Hashmaps: entries in the order in which their keys first came, found by type and hash. -/

namespace Scriptlet

/-- The values that can be keys. -/
inductive Key where
  | int (n : Int)
  | bool (b : Bool)
  | string (s : String)
  deriving DecidableEq, Repr

/-- What a key is found by: two keys with one of these are one key. -/
structure HashKey where
  tag : Tag
  code : UInt64
  deriving DecidableEq, Repr

/-- An integer is its own hash modulo 2^64. -/
def Key.hashKey : Key → HashKey
  | int n => ⟨.integer, UInt64.ofNat (n % 0x10000000000000000).toNat⟩
  | bool b => ⟨.boolean, if b then 1 else 0⟩
  | string s => ⟨.string, Text.hash s⟩

/-- The text of a key as a key of host data. -/
def Key.text : Key → String
  | int n => toString n
  | bool b => if b then "true" else "false"
  | string s => s

/-- A value as a key. -/
def Value.key? : Value → Option Key
  | int n _ => some (.int n)
  | bool b => some (.bool b)
  | string s _ => some (.string s)
  | _ => none

/-- An entry of a hashmap. -/
structure Entry where
  key : Key
  value : Value
  deriving DecidableEq, Repr

/-- A hashmap. -/
structure Hashmap where
  entries : List Entry := []
  deriving DecidableEq, Repr

namespace Hashmap

/-- The entry of a key replaced, or added behind all others. -/
def putIn (e : Entry) : List Entry → List Entry
  | [] => [e]
  | d :: ds => if d.key.hashKey = e.key.hashKey then e :: ds else d :: putIn e ds

/-- The hashmap with a key and its value. A later key of the same hash takes the place of the
earlier one. -/
def put (m : Hashmap) (k : Key) (v : Value) : Hashmap := ⟨putIn ⟨k, v⟩ m.entries⟩

/-- The value of a key. -/
def get? (m : Hashmap) (k : Key) : Option Value :=
  (m.entries.find? (·.key.hashKey = k.hashKey)).map (·.value)

end Hashmap

end Scriptlet
