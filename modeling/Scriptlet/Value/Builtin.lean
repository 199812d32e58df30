import Scriptlet.Value.Store

/-! What the builtins do. -/

namespace Scriptlet
open Value

/-- The result of a builtin and the store after it. Only `push` changes the store. -/
def Builtin.apply (b : Builtin) (args : List Value) (s : Store) : Value × Store :=
  match b, args with
  | len, [.string t _] => (ofInt t.length, s)
  | len, [.array place] => (ofInt (s.elements place).size, s)
  | len, [v] => (ofFault (.noLength v.tag), s)
  | push, [.array place, v] => (.array place, s.push place v)
  | push, [v, _] => (ofFault (.firstNotArray v.tag), s)
  | first, [.array place] => ((s.elements place)[0]?.getD .null, s)
  | first, [v] => (ofFault (.notArray v.tag), s)
  | last, [.array place] => ((s.elements place).back?.getD .null, s)
  | last, [v] => (ofFault (.notArray v.tag), s)
  | intToString, [.int n _] => (ofString (toString n), s)
  | intToString, [v] => (ofFault (.notInteger v.tag), s)
  | push, args => (ofFault (.arity args.length 2), s)
  | _, args => (ofFault (.arity args.length 1), s)

end Scriptlet
