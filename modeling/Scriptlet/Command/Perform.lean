import Scriptlet.Command.Arguments
import Scriptlet.Command.Console
import Scriptlet.Command.Files
import Scriptlet.Embed
import Scriptlet.Excerpt
import Scriptlet.Json.Reader
import Scriptlet.Json.Writer
import Scriptlet.Syntax.Height
import Scriptlet.Syntax.Outline
import Scriptlet.Token.Listing

/-! The commands: run a program, print it in canonical form or as a tree, list its tokens. -/

namespace Scriptlet.Command

/-- The version of the language. -/
def version : String := "0.1.0"

/-- The limits on stack frames between which one can be set. -/
def leastLimit : Nat := 20
/-- The greatest machine integer. -/
def greatestLimit : Nat := 0x7fffffff

/-- Shows syntax errors with the lines around the first one. -/
def complainSyntax {α : Type} (errors : List SyntaxError) (source : String) (path : Path) :
    Console α := do
  match SyntaxReport.ofErrors (errors.map SyntaxError.text) (some source) (some path.text) with
  | .ok report => complain report.text
  | .error e => complain e.message

/-- What a command works with. -/
structure Context where
  files : Files
  settings : Settings

namespace Context
variable (ctx : Context)

/-- The limit on stack frames. -/
def limit : Nat := ctx.settings.recursionLimit.getD defaultLimit

/-- The depth of nesting that there is room for. -/
def depth : Nat := depthOfLimit ctx.limit

/-- The text of a file. -/
def readSource (path : Path) : Console String := do
  match ctx.files path with
  | .error fault => complain (unreadable path fault)
  | .ok content =>
    match decode? content with
    | some s => return s
    | none => throw (.crash .undecodable)

/-- Reads a JSON text. A fault in it is told in a message that starts with the given one. -/
def readJson (start source : String) : Console Host := do
  match Json.read ctx.limit source.toList with
  | .ok v => return v
  | .error (.malformed problem offset) =>
    complain (start ++ Json.malformedText source.toList problem offset)
  | .error (.numeralTooLong digits) => throw (.crash (.numeralTooLong digits))
  | .error .tooDeep => throw (.crash .tooDeep)

/-- The binding that an option gives: a name, an equals sign and JSON. -/
def readVariable (option : String) : Console (String × Host) := do
  let invalid : Console (String × Host) :=
    complain ("Invalid --var '" ++ option ++ "': expected NAME=JSON")
  match option.toList.span (· ≠ '=') with
  | (_, []) => invalid
  | (name, _ :: raw) =>
    let name := Text.trim (String.ofList name)
    if name = "" then invalid
    else
      let v ← ctx.readJson ("Invalid JSON for variable '" ++ name ++ "': ") (String.ofList raw)
      return (name, v)

/-- The bindings of a file. -/
def readVariablesFile (path : Path) : Console (List (HostKey × Host)) := do
  let source ← ctx.readSource path
  match ← ctx.readJson ("Invalid JSON in " ++ path.text ++ ": ") source with
  | .map entries => return entries
  | _ => complain (path.text ++ " must contain a JSON object")

/-- The bindings of a file and of options, which override those of the file. -/
def readBindings (options : List String) (variablesFile : Option String) :
    Console (List (HostKey × Host)) := do
  let start ←
    match variablesFile with
    | some file => ctx.readVariablesFile (.ofText file)
    | none => pure []
  options.foldlM (fun bindings option => do
    let (name, v) ← ctx.readVariable option
    return Host.setEntry name v bindings) start

/-- Evaluates a program and prints its result. -/
def run (file : String) (options : List String) (variablesFile : Option String) (json : Bool) :
    Console Unit := do
  let path := Path.ofText file
  let source ← ctx.readSource path
  let bindings ← ctx.readBindings options variablesFile
  let course := Scriptlet.run ctx.depth source bindings none
  course.notes.forM fun note => logDebug ctx.settings "bql.api" note.text
  match course.result with
  | .error (.literal e) => throw (.crash (.numeralTooLong e.digits))
  | .error (.conversion .unwritable) => throw (.crash .unwritable)
  | .error (.syntaxErrors errors) => complainSyntax errors source path
  | .error failure => complain failure.message
  | .ok v =>
    if json then echo (Json.write v)
    else
      match v with
      | .null => return
      | .text s => echo s
      | v => echo (Json.write v)

/-- Prints a program in canonical form or as a tree. -/
def parse (file : String) (tree : Bool) : Console Unit := do
  let path := Path.ofText file
  let source ← ctx.readSource path
  match Scriptlet.parse ctx.depth source with
  | .error e => throw (.crash (.numeralTooLong e.digits))
  | .ok ⟨body, []⟩ =>
    if tree then
      if ctx.depth < stmtsHeight body then throw (.crash .tooDeep)
      (programOutline ("Program (" ++ path.name ++ ")") body).forM draw
    else
      body.forM fun stmt => do
        if ctx.depth < stmt.height then throw (.crash .tooDeep)
        echo stmt.text
  | .ok ⟨_, errors⟩ => complainSyntax errors source path

/-- Lists the tokens of a program. -/
def tokens (file : String) : Console Unit := do
  let path := Path.ofText file
  let source ← ctx.readSource path
  (tokenListing ("Tokens: " ++ path.name) (tokenize source)).forM draw

/-- Does what is asked for. -/
def perform : Request → Console Unit
  | .run file options variablesFile json => ctx.run file options variablesFile json
  | .parse file tree => ctx.parse file tree
  | .tokens file => ctx.tokens file

end Context

/-- Puts the settings to use. -/
def applySettings (settings : Settings) : Console Unit := do
  match settings.recursionLimit with
  | none => return
  | some limit =>
    logDebug settings "bql.cli" ("Setting recursion limit to " ++ toString limit)
    if greatestLimit < limit then throw (.crash .limitTooHigh)
    if limit < leastLimit then throw (.crash .limitTooLow)

/-- The command line: its arguments, its environment variables and the files it can read. -/
def commandLine (args : List String) (environment : List (String × String)) (files : Files) :
    Console Unit := do
  match Invocation.ofArguments args with
  | .version => echo ("bql " ++ version)
  | .misuse => throw .misuse
  | .command name args =>
    let (settings, warnings) := Settings.read environment
    warnings.forM fun w => logLine w.text
    applySettings settings
    match Request.ofArguments name args with
    | none => throw .misuse
    | some request => Context.perform ⟨files, settings⟩ request

/-- What the command line prints and how it ends. -/
def transcript (args : List String) (environment : List (String × String)) (files : Files) :
    Printed × Ending :=
  match commandLine args environment files {} with
  | .ok () p => (p, .exit 0)
  | .error e p => (p, e)

end Scriptlet.Command
