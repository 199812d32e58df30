import Scriptlet.Settings

/-! What the command line prints and how it ends. -/

namespace Scriptlet.Command

/-- Why the command breaks off without a message of its own. -/
inductive Crash where
  /-- a file is not UTF-8 -/
  | undecodable
  | numeralTooLong (digits : Nat)
  /-- an integer that no message can show -/
  | unwritable
  /-- more nesting than there is room for -/
  | tooDeep
  /-- a limit on stack frames that the command itself exceeds -/
  | limitTooLow
  /-- a limit on stack frames that is no machine integer -/
  | limitTooHigh
  deriving DecidableEq, Repr

/-- How the command ends. -/
inductive Ending where
  | exit (code : Nat)
  /-- wrong arguments -/
  | misuse
  | crash (c : Crash)
  deriving DecidableEq, Repr

/-- What has been printed. -/
structure Printed where
  out : String := ""
  err : String := ""
  deriving DecidableEq, Repr

/-- A computation that prints and may end the command. -/
abbrev Console := EStateM Ending Printed

/-- The length of a terminal control sequence that a text starts with. -/
def controlLength? : List Char → Option Nat
  | '\x1b' :: '[' :: cs =>
    let params := cs.takeWhile fun c => c = ';' || c = '?' || c.isDigit
    match cs.drop params.length with
    | c :: _ => if c.isAlpha then some (params.length + 3) else none
    | [] => none
  | _ => none

/-- A text without terminal control sequences, from so many characters on. -/
def withoutControls : Nat → List Char → List Char
  | _, [] => []
  | n + 1, _ :: cs => withoutControls n cs
  | 0, c :: cs =>
    match controlLength? (c :: cs) with
    | some n => withoutControls (n - 1) cs
    | none => c :: withoutControls 0 cs

/-- A text as it is shown where there is no terminal. -/
def plain (s : String) : String := String.ofList (withoutControls 0 s.toList)

/-- Prints a line. -/
def echo (line : String) : Console Unit :=
  modify fun p => { p with out := p.out ++ plain line ++ "\n" }

/-- Prints a line of drawing, which holds no control sequences. -/
def draw (line : String) : Console Unit := modify fun p => { p with out := p.out ++ line ++ "\n" }

/-- Prints a line for the log. -/
def logLine (line : String) : Console Unit := modify fun p => { p with err := p.err ++ line ++ "\n" }

/-- Prints a message and ends the command. -/
def complain {α : Type} (message : String) : Console α := do
  modify fun p => { p with err := p.err ++ plain message ++ "\n" }
  throw (.exit 1)

/-- Logs a message of the lowest level. -/
def logDebug (settings : Settings) (source message : String) : Console Unit := do
  if settings.logLevel = .debug then
    logLine (LogLevel.debug.text ++ " " ++ source ++ ": " ++ message)

end Scriptlet.Command
