import Scriptlet.Host.Basic
import Scriptlet.Number.Word
import Scriptlet.Value.Store

/-! Host data as values. -/

namespace Scriptlet
open Value

/-- A conversion into values, which may put new collections into the store. -/
abbrev Importing := StateT Store (Except ConversionFault)

namespace Host

/-- An integer that a word holds. -/
def importInt (n : Int) : Importing Value :=
  if Number.InWord n then return ofInt n
  else if Number.Writable n then throw (.outOfRange n)
  else throw .unwritable

/-- The type of the collection that comes round again when data inside the collections of a path, of
which it has the types, goes up so many lists and maps. All bindings together are a map around the
outermost one, and to go up to there leads into that one again. -/
def cycleType (path : List String) (levels : Nat) : String :=
  ((path.filter (· ≠ tupleType))[levels]? <|> path.getLast?).getD mapType

/-- Host data as a value, inside the collections of the path, of which it has the types. A
collection becomes a new one each time. -/
def importIn : (depth : Nat) → (path : List String) → Host → Importing Value
  | 0, _, _ => throw .tooDeep
  | d + 1, path, v =>
    match v with
    | null => return .null
    | bool b => return .bool b
    | int n => importInt n
    | real x =>
      match x.truncate? with
      | some n => importInt n
      | none => throw (.unsupportedReal x)
    | text s => return ofString s
    | list items => do
      let values ← items.mapM (importIn d (listType :: path))
      modifyGet (·.newArray values.toArray)
    | tuple items => do
      let values ← items.mapM (importIn d (tupleType :: path))
      modifyGet (·.newArray values.toArray)
    | map entries => do
      let m ← entries.foldlM (fun m (key, v) => do
        match key with
        | .text s => return m.put (.string s) (← importIn d (mapType :: path) v)
        | .other typeName => throw (.unsupportedKey typeName)) ({} : Hashmap)
      modifyGet (·.newHashmap m)
    | foreign typeName => throw (.unsupportedType typeName)
    | up levels => throw (.cyclicHost (cycleType path levels))

/-- Host data as a value. -/
def toValue (depth : Nat) (v : Host) : Importing Value := importIn depth [] v

end Host

/-- The bindings that a list of names selects, or all of them. -/
def selected (bindings : List (HostKey × Host)) :
    Option (List String) → List (HostKey × Except ConversionFault Host)
  | none => bindings.map fun (key, v) => (key, .ok v)
  | some names => names.map fun name =>
    (.text name,
      match bindings.lookup (.text name) with
      | some v => .ok v
      | none => .error (.missing name))

namespace Store

/-- Binds names to host values one after the other. The bindings before the first fault stay. A key
that is no text binds nothing. -/
def bindEach (depth scope : Nat) :
    List (HostKey × Except ConversionFault Host) → Store → Store × Option ConversionFault
  | [], s => (s, none)
  | (key, host) :: rest, s =>
    match host.bind fun h => h.toValue depth s with
    | .error e => (s, some e)
    | .ok (v, t) =>
      match key with
      | .text name => bindEach depth scope rest (t.bind scope name v)
      | .other _ => bindEach depth scope rest t

/-- Binds the selected ones of some bindings in a scope. -/
def bindAll (depth scope : Nat) (bindings : List (HostKey × Host)) (names : Option (List String))
    (s : Store) : Store × Option ConversionFault :=
  bindEach depth scope (selected bindings names) s

end Store

end Scriptlet
