import Scriptlet.Host.Import
import Scriptlet.Value.Builtin

/-!
Named registers in which a host keeps values and works on them without a program. Here every value
has an identity: equal integers, texts, errors and return values that were made apart are told apart
by their marks.
-/

namespace Scriptlet

/-- Registers over a store. -/
structure Registers where
  store : Store := {}
  named : List (String × Value) := [("NULL", .null), ("TRUE", .bool true), ("FALSE", .bool false)]
  nextMark : Nat := 0

/-- A computation on registers. -/
abbrev Registering := StateM Registers

namespace Registers

/-- A value with a mark of its own, unless it has one or needs none. -/
def mark (v : Value) : Registering Value := do
  let m := some (← get).nextMark
  let marked ←
    match v with
    | .int n none => pure (Value.int n m)
    | .string t none => pure (.string t m)
    | .error f none => pure (.error f m)
    | .returned w none => pure (.returned w m)
    | v => return v
  modify fun r => { r with nextMark := r.nextMark + 1 }
  return marked

/-- Marks the elements of the arrays from a place on. -/
def markArrays (start : Nat) : Registering Unit := do
  let arrays := (← get).store.arrays
  let kept := arrays.take start
  let marked ← (arrays.drop start).mapM fun elements => elements.mapM mark
  modify fun r => { r with store := { r.store with arrays := kept ++ marked } }

/-- Marks the values of the hashmaps from a place on. -/
def markHashmaps (start : Nat) : Registering Unit := do
  let hashmaps := (← get).store.hashmaps
  let kept := hashmaps.take start
  let marked ← (hashmaps.drop start).mapM fun m => do
    let entries ← m.entries.mapM fun e => return { e with value := ← mark e.value }
    return (⟨entries⟩ : Hashmap)
  modify fun r => { r with store := { r.store with hashmaps := kept ++ marked } }

/-- The value of a register. -/
def value (name : String) : Registering Value :=
  return ((← get).named.lookup name).getD .null

/-- Sets a register to a value, which is marked. -/
def keep (name : Option String) (v : Value) : Registering Value := do
  let v ← mark v
  if let some name := name then
    modify fun r => { r with named := Scope.bindIn name v r.named }
  return v

/-- Sets a register to host data. -/
def keepHost (depth : Nat) (name : String) (h : Host) :
    Registering (Except ConversionFault Value) := do
  let before := (← get).store
  match h.toValue depth before with
  | .error e => return .error e
  | .ok (v, store) =>
    modify fun r => { r with store }
    markArrays before.arrays.size
    markHashmaps before.hashmaps.size
    return .ok (← keep (some name) v)

/-- Sets a register to a new hashmap without entries. -/
def keepHashmap (name : String) : Registering Value := do
  let (v, store) := (← get).store.newHashmap {}
  modify fun r => { r with store }
  keep (some name) v

/-- Puts an entry into a hashmap, if the key can be one. -/
def put (map key value : Value) : Registering Unit := do
  match map, key.key? with
  | .hashmap place, some k => modify fun r => { r with store := r.store.put place k value }
  | _, _ => return

/-- The value of a key in a hashmap. -/
def get? (map key : Value) : Registering (Option Value) := do
  match map, key.key? with
  | .hashmap place, some k => return ((← get).store.hashmap place).get? k
  | _, _ => return none

/-- Applies a builtin and may keep the result. -/
def apply (b : Builtin) (args : List Value) (name : Option String) : Registering Value := do
  let (v, store) := b.apply args (← get).store
  modify fun r => { r with store }
  keep name v

end Registers

end Scriptlet
