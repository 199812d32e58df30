import Scriptlet.Eval
import Scriptlet.Host.Export
import Scriptlet.Host.Import
import Scriptlet.Parse.Program
import Scriptlet.Syntax.Canonical

/-! Running program text on host data. -/

namespace Scriptlet

/-- The depth of nesting that a limit on stack frames leaves room for: a level takes two frames. -/
def depthOfLimit (frames : Nat) : Nat := frames / 2

/-- The limit on stack frames unless another one is set. -/
def defaultLimit : Nat := 1000

/-- The depth of nesting unless another limit is set. -/
def defaultDepth : Nat := depthOfLimit defaultLimit

/-- Why a run gives no result. -/
inductive Failure where
  | literal (e : LiteralTooLong)
  | syntaxErrors (errors : List SyntaxError)
  | error (fault : Fault)
  | halted (h : Halt)
  | conversion (fault : ConversionFault)

/-- The message for a failure. -/
def Failure.message : Failure → String
  | literal e => e.message
  | syntaxErrors errors => joined "\n" (errors.map SyntaxError.text)
  | error fault => fault.message
  | halted h => h.message
  | conversion fault => fault.message

/-- The kinds of errors that a host is told of. -/
inductive ErrorKind where
  | syntaxError
  | conversionError
  | evaluationError
  /-- an error of the host's own, about numerals with too many digits -/
  | valueError
  deriving DecidableEq, Repr

/-- The name of a kind of errors. -/
def ErrorKind.text : ErrorKind → String
  | syntaxError => "BqlSyntaxError"
  | conversionError => "ConversionError"
  | evaluationError => "EvaluationError"
  | valueError => "ValueError"

/-- The kind of a fault at the border to the host. -/
def ConversionFault.kind : ConversionFault → ErrorKind
  | unwritable => .valueError
  | _ => .conversionError

/-- The kind of a failure. -/
def Failure.kind : Failure → ErrorKind
  | literal _ => .valueError
  | syntaxErrors _ => .syntaxError
  | error _ | halted _ => .evaluationError
  | conversion fault => fault.kind

/-- What a run tells about its course. -/
inductive Note where
  | parseFailed (errors : Nat)
  | noValue
  | evaluatedTo (tag : Tag)
  deriving DecidableEq, Repr

/-- The text of a note. -/
def Note.text : Note → String
  | parseFailed n => "Parse failed with " ++ toString n ++ " error(s)"
  | noValue => "Program produced no value"
  | evaluatedTo tag => "Program evaluated to " ++ tag.text

/-- The course of a run and its result. -/
structure Run where
  notes : List Note
  result : Except Failure Host

/-- The result of a program that ended, as host data. -/
def Run.ofValue (depth : Nat) (s : Store) : Option Value → Run
  | none => ⟨[.noValue], .ok .null⟩
  | some v =>
    ⟨[.evaluatedTo v.tag],
      match s.toHost depth v with
      | .ok h => .ok h
      | .error (.error f) => .error (.error f)
      | .error (.conversion f) => .error (.conversion f)
      | .error .tooDeep => .error (.halted .tooDeep)⟩

/-- Evaluates a program in a scope of its own, where the selected bindings are bound. -/
def runProgram (depth : Nat) (body : List Stmt) (bindings : List (HostKey × Host))
    (names : Option (List String)) : Run :=
  let (scope, s) := ({} : Store).newScope none
  match s.bindAll depth scope bindings names with
  | (_, some fault) => ⟨[], .error (.conversion fault)⟩
  | (s, none) =>
    match eval depth (.program body) scope s with
    | .ok result s => Run.ofValue depth s result
    | .error h _ => ⟨[], .error (.halted h)⟩

/-- A program on bindings that are all there. -/
theorem runProgram_of_bound {depth : Nat} {body : List Stmt} {bindings : List (HostKey × Host)}
    {names : Option (List String)} {s : Store}
    (hb : (({} : Store).newScope none).2.bindAll depth 0 bindings names = (s, none)) :
    runProgram depth body bindings names =
      match eval depth (.program body) 0 s with
      | .ok result s => Run.ofValue depth s result
      | .error h _ => ⟨[], .error (.halted h)⟩ := by
  have hscope : (({} : Store).newScope none).1 = 0 := rfl
  simp only [runProgram, hscope, hb]

/-- Runs a program text on bindings, of which all or the named ones are bound. -/
def run (depth : Nat) (source : String) (bindings : List (HostKey × Host))
    (names : Option (List String)) : Run :=
  match parse depth source with
  | .error e => ⟨[], .error (.literal e)⟩
  | .ok ⟨body, []⟩ => runProgram depth body bindings names
  | .ok ⟨_, errors⟩ => ⟨[.parseFailed errors.length], .error (.syntaxErrors errors)⟩

/-- Runs a program text on bindings and hands back its result or why there is none. An error of the
host's own is not handed back: it ends the call. -/
def evaluate (depth : Nat) (source : String) (bindings : List (HostKey × Host))
    (names : Option (List String)) : Except Failure (Except Failure Host) :=
  match (run depth source bindings names).result with
  | .ok h => .ok (.ok h)
  | .error f => if f.kind = .valueError then .error f else .ok (.error f)

end Scriptlet
