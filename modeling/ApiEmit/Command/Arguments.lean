/-
ApiEmit.Command.Arguments — the arguments of the command line.

The first argument is a command, the others are its options. They are taken from the
left, and the first that is a fault or asks for help decides.
-/
import ApiEmit.Config.Basic

namespace ApiEmit.Command

/-- A command with its options. -/
inductive Invocation where
  | emit (program : String) (config outputDir : Option String) (emitters : List Emitter)
  | classify (program : String)
  deriving DecidableEq, Repr

/-- What the arguments ask for. -/
inductive Request where
  | help
  | version
  | invalid
  | run (invocation : Invocation)
  deriving DecidableEq, Repr

/-- The commands. -/
inductive Name where
  | emit
  | classify
  deriving DecidableEq, Repr

/-- The options given so far. -/
structure Given where
  program : Option String := none
  config : Option String := none
  outputDir : Option String := none
  emitters : List Emitter := []

namespace Given

/-- Sets an option that is given once, to a path. -/
def once? (old : Option String) (value : String) : Option (Option String) :=
  if old.isSome || value = "" then none else some (some value)

/-- Sets an option of a command. -/
def set? (given : Given) (command : Name) (option value : String) : Option Given :=
  match command, option with
  | _, "program" => (once? given.program value).map fun v => { given with program := v }
  | .emit, "config" => (once? given.config value).map fun v => { given with config := v }
  | .emit, "output-dir" => (once? given.outputDir value).map fun v => { given with outputDir := v }
  | .emit, "emitter" =>
    (Emitter.ofName? value).map fun e => { given with emitters := given.emitters ++ [e] }
  | _, _ => none

/-- The command with the options given, if none is missing. -/
def request (given : Given) (command : Name) : Request :=
  match given.program, command with
  | none, _ => .invalid
  | some program, .emit => .run (.emit program given.config given.outputDir given.emitters)
  | some program, .classify => .run (.classify program)

end Given

/-- An argument that is an option: its name, and a value behind an equals sign. -/
def longOption? (arg : String) : Option (String × Option String) :=
  match arg.toList with
  | '-' :: '-' :: rest =>
    let name := String.ofList (rest.takeWhile (· ≠ '='))
    match rest.dropWhile (· ≠ '=') with
    | [] => some (name, none)
    | _ :: value => some (name, some (String.ofList value))
  | _ => none

/-- Whether an argument can be the value of an option before it. -/
def isValue (arg : String) : Bool :=
  match arg.toList with
  | '-' :: _ :: _ => false
  | _ => true

/-- Whether an argument is a flag of one letter, alone or with others behind it. -/
def startsFlag (flag : Char) (arg : String) : Bool :=
  match arg.toList with
  | '-' :: c :: _ => c == flag
  | _ => false

/-- Takes the options of a command. Two dashes end them, and nothing may follow. -/
def takeOptions (command : Name) : Given → List String → Request
  | given, [] => given.request command
  | given, ["--"] => given.request command
  | given, arg :: rest =>
    if arg = "--help" ∨ startsFlag 'h' arg then
      .help
    else
      match longOption? arg with
      | some (option, some value) =>
        match given.set? command option value with
        | some given => takeOptions command given rest
        | none => .invalid
      | some (option, none) =>
        match rest with
        | value :: rest =>
          if isValue value then
            match given.set? command option value with
            | some given => takeOptions command given rest
            | none => .invalid
          else
            .invalid
        | [] => .invalid
      | none => .invalid

/-- Takes all arguments. Without a command they ask for help. -/
def request : List String → Request
  | [] => .help
  | ["--"] => .help
  | "emit" :: rest => takeOptions .emit {} rest
  | "classify" :: rest => takeOptions .classify {} rest
  | "help" :: rest =>
    if rest = [] ∨ rest = ["emit"] ∨ rest = ["classify"] ∨ rest = ["help"] then .help else .invalid
  | arg :: _ =>
    if arg = "--help" ∨ startsFlag 'h' arg then .help
    else if arg = "--version" ∨ startsFlag 'V' arg then .version
    else .invalid

end ApiEmit.Command
