import Scriptlet.Host.Basic
import Scriptlet.Value.Store

/-! Values as host data. -/

namespace Scriptlet

/-- Why a value has no counterpart in host data. -/
inductive ExportFault where
  /-- the value is an error of the program -/
  | error (fault : Fault)
  | conversion (fault : ConversionFault)
  /-- more nesting than there is room for -/
  | tooDeep
  deriving DecidableEq, Repr

namespace Store
variable (s : Store)

/-- A value as host data, inside the collections of the path. The first part from the left that has
no counterpart decides the fault. -/
def exportIn : (depth : Nat) → (path : List Value) → Value → Except ExportFault Host
  | 0, _, _ => .error .tooDeep
  | d + 1, path, v =>
    match v with
    | .int n _ => .ok (.int n)
    | .bool b => .ok (.bool b)
    | .string t _ => .ok (.text t)
    | .null => .ok .null
    | .error f _ => .error (.error f)
    | .array place =>
      if path.contains v then .error (.conversion (.cyclic .array))
      else do
        let items ← (s.elements place).toList.mapM (exportIn d (v :: path))
        return .list items
    | .hashmap place =>
      if path.contains v then .error (.conversion (.cyclic .hashmap))
      else do
        let entries ← (s.hashmap place).entries.mapM fun e => do
          return (HostKey.text e.key.text, ← exportIn d (v :: path) e.value)
        return .ofEntries entries
    | .function _ | .builtin _ | .returned .. => .error (.conversion (.noCounterpart v.tag))

/-- A value as host data. -/
def toHost (depth : Nat) (v : Value) : Except ExportFault Host := s.exportIn depth [] v

end Store

end Scriptlet
