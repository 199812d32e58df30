import Scriptlet.Syntax.Canonical
import Scriptlet.Syntax.Height
import Scriptlet.Text.Quoted
import Scriptlet.Value.Store

/-! Values as text. -/

namespace Scriptlet

/-- The text of a key inside a hashmap. -/
def Key.shown : Key → String
  | .string t => "\"" ++ t ++ "\""
  | k => k.text

namespace Store
variable (s : Store)

/-- The text of the function at a place, if its body has no more levels than the depth. -/
def functionText (depth place : Nat) : Option String :=
  match s.closures[place]? with
  | some c =>
    if depth < stmtsHeight c.body then none
    else some ("fn(" ++ joined ", " c.params ++ ") " ++ (Stmt.block c.body).text)
  | none => some "fn() \x7b \x7d"

/-- The text of a value: with quotes around a string if it is part of a collection, and a collection
that is already open, for which `path` has it, cut short. There is none with more nesting than the
depth. -/
def displayIn : (depth : Nat) → (path : List Value) → (part : Bool) → Value → Option String
  | 0, _, _, _ => none
  | n + 1, path, part, v =>
    match v with
    | .int k _ => some (toString k)
    | .bool b => some (if b then "true" else "false")
    | .string t _ => some (if part then "\"" ++ t ++ "\"" else t)
    | .null => some "null"
    | .function place => s.functionText n place
    | .builtin b => some ("builtin " ++ b.name)
    | .error f _ => some ("error: " ++ f.message)
    | .returned w _ => displayIn n [] false w
    | .array place =>
      if path.contains v then some "[...]"
      else do
        let parts ← (s.elements place).toList.mapM (displayIn n (v :: path) true)
        return "[" ++ joined ", " parts ++ "]"
    | .hashmap place =>
      if path.contains v then some "\x7b...\x7d"
      else do
        let parts ← (s.hashmap place).entries.mapM fun e => do
          return e.key.shown ++ ": " ++ (← displayIn n (v :: path) true e.value)
        return "\x7b" ++ joined ", " parts ++ "\x7d"

/-- The text of a value by itself. -/
def display (depth : Nat) (v : Value) : Option String := s.displayIn depth [] false v

/-- The names bound in a scope itself, in the order of their code points. -/
def sortedNames (scope : Nat) : List String :=
  ((s.namesOf scope).map (·.1)).mergeSort fun a b => !(b < a : Bool)

/-- The text of a scope: the names bound in it, and whether there is a scope around it. -/
def scopeText (scope : Nat) : String :=
  "Environment(names=[" ++ joined ", " ((s.sortedNames scope).map Text.quoted) ++ "], outer="
    ++ (if (s.outerOf scope).isSome then "True" else "False") ++ ")"

end Store

end Scriptlet
