/-
ApiEmit.Config.Basic — the configuration of a project.

A configuration says what to emit, where to, and how. Every entry has a fallback,
and an entry that is not known is refused.
-/
import ApiEmit.Config.Setting
import ApiEmit.Host.Path
import ApiEmit.Pydantic.Options
import ApiEmit.Reference.OutputFile

namespace ApiEmit

/-- What can be emitted. -/
inductive Emitter where
  | pydantic
  | apiDocs
  deriving DecidableEq, Repr

namespace Emitter

/-- The name of an emitter, which is also that of its directory. -/
def name : Emitter → String
  | .pydantic => "pydantic"
  | .apiDocs => "http-api-docs"

/-- The emitter of a name. -/
def ofName? (name : String) : Option Emitter :=
  if name = "pydantic" then some .pydantic
  else if name = "http-api-docs" then some .apiDocs
  else none

end Emitter

/-- The configuration of a project. -/
structure Config where
  outputDir : String := "pydemit-output"
  emit : List Emitter := [.pydantic]
  pydantic : Pydantic.Options := {}
  apiDocs : Reference.Options := {}
  deriving DecidableEq, Repr

/-- Why a configuration is refused. -/
inductive ConfigError where
  | malformed
  | invalidOption (e : OptionError)
  deriving DecidableEq, Repr

/-- The message for an error. -/
def ConfigError.message : ConfigError → String
  | .malformed => "Failed to parse config file"
  | .invalidOption e => e.message

/-- The options of the Pydantic emitter in a setting. -/
def Pydantic.Options.ofSetting? (s : Config.Setting) : Option Pydantic.Options := do
  let entries ← s.record? ["input-module-name", "output-module-name", "roundtrip-module-name",
    "constrain-to-used"]
  let fallback : Pydantic.Options := {}
  return {
    inputModule :=
      ← Config.Setting.entry? entries "input-module-name" fallback.inputModule (·.text?)
    outputModule :=
      ← Config.Setting.entry? entries "output-module-name" fallback.outputModule (·.text?)
    roundtripModule :=
      ← Config.Setting.entry? entries "roundtrip-module-name" fallback.roundtripModule (·.text?)
    constrainToUsed :=
      ← Config.Setting.entry? entries "constrain-to-used" fallback.constrainToUsed (·.flag?) }

/-- The options of the reference documents in a setting. -/
def Reference.Options.ofSetting? (s : Config.Setting) : Option Reference.Options := do
  let entries ← s.record? ["output-file"]
  let fallback : Reference.Options := {}
  return {
    outputFile := ← Config.Setting.entry? entries "output-file" fallback.outputFile (·.text?) }

namespace Config

/-- Whether two configurations say the same; it makes no difference how a path is written. -/
def same (c d : Config) : Bool :=
  Path.key c.outputDir = Path.key d.outputDir && c.emit = d.emit && c.pydantic = d.pydantic &&
    c.apiDocs = d.apiDocs

/-- Whether a configuration says what the fallbacks say. -/
def isDefault (c : Config) : Bool := c.same {}

/-- The emitters that a setting lists. -/
def emitters? (s : Setting) : Option (List Emitter) :=
  s.list?.bind fun items => items.mapM fun item => item.word?.bind Emitter.ofName?

/-- The configuration in a setting. -/
def ofSetting? (s : Setting) : Option Config := do
  let entries ← s.record? ["output-dir", "emit", "options"]
  let fallback : Config := {}
  let options ← Setting.entry? entries "options" [] (·.record? ["pydantic", "http-api-docs"])
  return {
    outputDir := ← Setting.entry? entries "output-dir" fallback.outputDir (·.text?)
    emit := ← Setting.entry? entries "emit" fallback.emit emitters?
    pydantic := ← Setting.entry? options "pydantic" {} Pydantic.Options.ofSetting?
    apiDocs := ← Setting.entry? options "http-api-docs" {} Reference.Options.ofSetting? }

/-- Refuses options that an emitter would refuse. -/
def validate (c : Config) : Except OptionError Unit := do
  c.pydantic.validate
  c.apiDocs.validate

/-- The configuration of a YAML text; a text without a value leaves everything to the fallbacks. -/
def ofYaml (text : String) : Except ConfigError Config :=
  let setting? := (Yaml.Node.ofText? text).bind fun
    | none => some Setting.leftOut
    | some node => Setting.ofYaml? node
  match setting?.bind ofSetting? with
  | none => .error .malformed
  | some config =>
    match config.validate with
    | .error e => .error (.invalidOption e)
    | .ok () => .ok config

end Config

end ApiEmit
