/-! The arguments of the command line. -/

namespace Scriptlet.Command

/-- What the arguments in front of a command's own ask for. -/
inductive Invocation where
  | version
  | misuse
  | command (name : String) (args : List String)
  deriving DecidableEq, Repr

/-- The names of the commands. -/
def commands : List String := ["run", "parse", "tokens"]

/-- Whether an argument is an option. A hyphen alone is none. -/
def isOption (arg : String) : Bool :=
  match arg.toList with
  | '-' :: _ :: _ => true
  | _ => false

/-- Whether an option asks for the version. -/
def asksVersion (arg : String) : Bool :=
  arg = "--version" ||
    match arg.toList with
    | '-' :: cs => cs.all (· = 'v')
    | _ => false

/-- Reads the options in front of the command: whether one of them asks for the version, and the
arguments behind them. There is nothing if an option is unknown. -/
def readOptions : List String → Option (Bool × List String)
  | [] => some (false, [])
  | arg :: rest =>
    if arg = "--" then some (false, rest)
    else if !isOption arg then some (false, arg :: rest)
    else if asksVersion arg then (readOptions rest).map fun (_, args) => (true, args)
    else none

/-- Reads the arguments. Asking for the version wins over a command. Where the command is unknown,
it and what follows may be options after all. -/
def Invocation.ofArguments (args : List String) : Invocation :=
  match readOptions args with
  | some (true, _) => .version
  | some (false, name :: rest) =>
    if commands.contains name then .command name rest
    else
      match readOptions (name :: rest) with
      | some (true, _) => .version
      | _ => .misuse
  | _ => .misuse

/-- The options that a command takes. -/
structure Accepted where
  flags : List String := []
  /-- options with a value -/
  valued : List String := []

/-- The arguments of a command: the positional ones, and the options in order. -/
structure Given where
  positional : List String := []
  flags : List String := []
  values : List (String × String) := []
  deriving DecidableEq, Repr

/-- The values of an option in order. -/
def Given.valuesOf (g : Given) (option : String) : List String :=
  (g.values.filter (·.1 = option)).map (·.2)

/-- The value of an option; the last one counts. -/
def Given.value? (g : Given) (option : String) : Option String := (g.valuesOf option).getLast?

/-- An option and the value behind an equals sign in it. -/
def splitOption (arg : String) : String × Option String :=
  match arg.toList.span (· ≠ '=') with
  | (name, _ :: v) => (String.ofList name, some (String.ofList v))
  | (_, []) => (arg, none)

/-- Reads the arguments of a command; there is nothing if an option is unknown or has no value. -/
def Given.ofArguments (accepted : Accepted) : List String → Option Given
  | [] => some {}
  | arg :: rest =>
    if arg = "--" then some { positional := rest }
    else if isOption arg then
      match splitOption arg with
      | (name, some v) =>
        if accepted.valued.contains name then
          (Given.ofArguments accepted rest).map fun g => { g with values := (name, v) :: g.values }
        else none
      | (name, none) =>
        if accepted.flags.contains name then
          (Given.ofArguments accepted rest).map fun g => { g with flags := name :: g.flags }
        else if accepted.valued.contains name then
          match rest with
          | [] => none
          | v :: rest =>
            (Given.ofArguments accepted rest).map fun g => { g with values := (name, v) :: g.values }
        else none
    else
      (Given.ofArguments accepted rest).map fun g => { g with positional := arg :: g.positional }

/-- What a command is asked to do. -/
inductive Request where
  | run (file : String) (options : List String) (variablesFile : Option String) (json : Bool)
  | parse (file : String) (tree : Bool)
  | tokens (file : String)
  deriving DecidableEq, Repr

/-- Whether a text can be a path. The character that ends paths in memory cannot be in one. -/
def isPath (s : String) : Bool := !s.toList.contains '\x00'

/-- The request of a command with its arguments; exactly one of them is positional, and what names a
file can be a path. -/
def Request.ofArguments (name : String) (args : List String) : Option Request :=
  let read (accepted : Accepted) (make : String → Given → Request) : Option Request :=
    match Given.ofArguments accepted args with
    | some g =>
      match g.positional with
      | [file] =>
        if isPath file && (g.value? "--vars-file").all isPath then some (make file g) else none
      | _ => none
    | none => none
  match name with
  | "run" =>
    read { flags := ["--json"], valued := ["--var", "--vars-file"] } fun file g =>
      .run file (g.valuesOf "--var") (g.value? "--vars-file") (g.flags.contains "--json")
  | "parse" => read { flags := ["--tree"] } fun file g => .parse file (g.flags.contains "--tree")
  | "tokens" => read {} fun file _ => .tokens file
  | _ => none

end Scriptlet.Command
