/-
ApiEmit.Command.Run — running a command over a file system.

The configuration is read before the program. What was reported about the program is
written out first; a program with errors is not emitted. Files are written one after
the other, and their paths are written out when all is done.
-/
import ApiEmit.Command.Arguments
import ApiEmit.Host.Disk
import ApiEmit.Host.Emission
import ApiEmit.Graph.Load

namespace ApiEmit.Command

/-- What a run leaves behind besides files: a code, and texts. -/
structure Outcome where
  code : Nat
  out : String
  errors : List String
  deriving DecidableEq, Repr

/-- A run that fails, after some lines that were written already. -/
def Outcome.failure (lines : List String) (message : String) : Outcome :=
  ⟨1, "", lines ++ [message]⟩

variable {m : Type → Type} [Monad m] [FileSystem m]

/-- Reads a program, or says why there is none. -/
def loadProgram (path : String) : m (Except String Graph) := do
  match ← FileSystem.read? path with
  | none => return .error ("Failed to read program document " ++ path)
  | some text =>
    match Graph.ofJson text with
    | .error e => return .error e.message
    | .ok g => return .ok g

/-- Reads a configuration, or says why there is none. Without a path all is left to fallbacks. -/
def loadConfig : Option String → m (Except String Config)
  | none => return .ok {}
  | some path => do
    match ← FileSystem.read? path with
    | none => return .error ("Failed to read config file " ++ path)
    | some text =>
      match Config.ofYaml text with
      | .error e => return .error e.message
      | .ok c => return .ok c

/-- Writes a file with the directories around it, or says what cannot be written. -/
def writeFile (path content : String) : m (Option String) := do
  let made ← match Path.parent? path with
    | some directory =>
      if directory = "" then pure none
      else
        let ok ← FileSystem.makeDirectories directory
        pure (if ok then none else some directory)
    | none => pure none
  match made with
  | some directory => return some ("Failed to write " ++ directory)
  | none =>
    let ok ← FileSystem.write path content
    return if ok then none else some ("Failed to write " ++ path)

/-- Writes files below a directory, up to the first that cannot be written. -/
def writeFiles (directory : String) : List (String × String) → m (Option String)
  | [] => return none
  | (file, content) :: rest => do
    match ← writeFile (Path.join directory file) content with
    | some message => return some message
    | none => writeFiles directory rest

/-- The files that an emitter makes. -/
def emitterFiles (g : Graph) (c : Config) : Emitter → Except OptionError (List (String × String))
  | .pydantic => do
    c.pydantic.validate
    return Pydantic.files g c.pydantic
  | .apiDocs => do
    c.apiDocs.validate
    return Reference.files g c.apiDocs

/-- Runs emitters one after the other; the paths of all their files, or why they stopped. -/
def runEmitters (g : Graph) (c : Config) : List Emitter → m (Except String (List String))
  | [] => return .ok []
  | emitter :: rest => do
    let directory := Path.join c.outputDir emitter.name
    match emitterFiles g c emitter with
    | .error e => return .error e.message
    | .ok files =>
      match ← writeFiles directory files with
      | some message => return .error message
      | none =>
        match ← runEmitters g c rest with
        | .error message => return .error message
        | .ok paths => return .ok (files.map (fun file => Path.join directory file.1) ++ paths)

/-- A text with each line ended. -/
def endLines (lines : List String) : String :=
  lines.foldl (fun text line => text ++ line ++ "\n") ""

/-- Emits a program. -/
def emit (program : String) (config outputDir : Option String) (emitters : List Emitter) :
    m Outcome := do
  match ← loadConfig config with
  | .error message => return .failure [] message
  | .ok c =>
    let c := { c with
      outputDir := outputDir.getD c.outputDir
      emit := if emitters.isEmpty then c.emit else emitters }
    match ← loadProgram program with
    | .error message => return .failure [] message
    | .ok g =>
      let reported := g.diagnostics.map (·.text)
      if g.hasErrors then
        return .failure reported "Program has errors, nothing was emitted."
      else
        match ← runEmitters g c (Keyed.ofList id c.emit) with
        | .error message => return .failure reported message
        | .ok paths => return ⟨0, endLines paths, reported⟩

/-- The usage of the types of a program as a JSON object. -/
def usageReport (g : Graph) : Json.Value :=
  .object (g.classify.byName.map fun (name, usage) => (name, .string usage.text))

/-- Writes out the usage of the types of a program. -/
def classify (program : String) : m Outcome := do
  match ← loadProgram program with
  | .error message => return .failure [] message
  | .ok g =>
    return ⟨0, (usageReport g).pretty ++ "\n", g.diagnostics.map (·.text)⟩

/-- Runs a command. -/
def run : Invocation → m Outcome
  | .emit program config outputDir emitters => emit program config outputDir emitters
  | .classify program => classify program

end ApiEmit.Command
