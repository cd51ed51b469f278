/-
ApiEmit.Host.Emission — emitting to a host in memory.

The options are looked at first, and all files are made before one is written. What
has been done to the host stays when a run gives up.
-/
import ApiEmit.Host.Memory
import ApiEmit.Pydantic.Emission
import ApiEmit.Reference.Emission

namespace ApiEmit

/-- What is done on a host in memory, as long as no option is refused. -/
abbrev OnMemory := ExceptT OptionError (StateM MemoryHost)

namespace OnMemory

/-- Writes files one after the other. -/
def writeFiles : List (String × String) → OnMemory Unit
  | [] => return
  | (file, content) :: rest => do
    modify fun host => host.write file content .lf
    writeFiles rest

/-- Writes the files of an emitter once its options are accepted. -/
def emitFiles (accepted : Except OptionError Unit) (files : List (String × String)) :
    OnMemory (List (String × String)) := do
  liftExcept accepted
  writeFiles files
  return files

end OnMemory

/-- The files of a run, and the host that holds them. -/
structure Emitted where
  files : List (String × String)
  host : MemoryHost

/-- Runs an emitter on a host. -/
def OnMemory.emitted (emitter : OnMemory (List (String × String))) (host : MemoryHost) :
    Except OptionError Emitted :=
  let (outcome, host) := emitter.run.run host
  outcome.map fun files => ⟨files, host⟩

/-- Writes the Pydantic modules of a program. -/
def Pydantic.emitter (g : Graph) (o : Pydantic.Options) : OnMemory (List (String × String)) :=
  OnMemory.emitFiles o.validate (Pydantic.files g o)

/-- Emits the Pydantic modules of a program. -/
def Pydantic.emit (g : Graph) (o : Pydantic.Options) (host : MemoryHost) :
    Except OptionError Emitted :=
  (Pydantic.emitter g o).emitted host

/-- Writes the reference documents of a program. -/
def Reference.emitter (g : Graph) (o : Reference.Options) : OnMemory (List (String × String)) :=
  OnMemory.emitFiles o.validate (Reference.files g o)

/-- Emits the reference documents of a program. -/
def Reference.emit (g : Graph) (o : Reference.Options) (host : MemoryHost) :
    Except OptionError Emitted :=
  (Reference.emitter g o).emitted host

end ApiEmit
