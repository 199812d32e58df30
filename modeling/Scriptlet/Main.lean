import Scriptlet.Command.Perform

/-! The command line as a program. -/

namespace Scriptlet.Command

/-- The number that the system has for a fault. It may be told as a negative one. -/
def systemCode (code : UInt32) : Nat := min code.toNat (0x100000000 - code.toNat)

/-- Reads a file of the disk. -/
def fetch (path : Path) : IO (Except AccessFault ByteArray) := do
  try
    return .ok (← IO.FS.readBinFile path.text)
  catch e =>
    match e with
    | .noFileOrDirectory _ code _ | .permissionDenied _ code _ | .inappropriateType _ code _
    | .invalidArgument _ code _ => return .error (.ofCode (systemCode code))
    | _ => return .error .broken

/-- The files that arguments can name, each read once. -/
def fetchAll (args : List String) : IO Files := do
  let values := args.map fun arg => (splitOption arg).2.getD ""
  let known ← ((args ++ values).map Path.ofText).eraseDups.mapM fun path =>
    return (path, ← fetch path)
  return fun path => (known.lookup path).getD (.error .missing)

/-- The environment variables that settings are in. -/
def readVariables : IO (List (String × String)) :=
  [Settings.levelVariable, Settings.limitVariable].filterMapM fun name => do
    return (← IO.getEnv name).map (name, ·)

end Scriptlet.Command

open Scriptlet.Command in
/-- Runs the command line on the disk and the environment. -/
def main (args : List String) : IO UInt32 := do
  let (printed, ending) := transcript args (← readVariables) (← fetchAll args)
  IO.print printed.out
  IO.eprint printed.err
  match ending with
  | .exit code => return code.toUInt32
  | .misuse =>
    IO.eprintln "Usage: bql [-v | --version] (run | parse | tokens) FILE [OPTIONS]"
    return 2
  | .crash _ => return 1
