/-
ApiEmit.Main — the command line.
-/
import ApiEmit.Command.Run

namespace ApiEmit

/-- What the command line can do, line by line. -/
def helpLines : List String :=
  ["Emit pydantic models and HTTP API docs from a schema program",
    "",
    "Usage: apiemit [COMMAND]",
    "",
    "Commands:",
    "  emit      Run the configured emitters over a program",
    "  classify  Print the input/output/roundtrip usage of every referenced type",
    "  help      Print this message",
    "",
    "Options of emit:",
    "  --program <FILE>    Program document (JSON)",
    "  --config <FILE>     Project config (YAML)",
    "  --output-dir <DIR>  Overrides the output directory of the config",
    "  --emitter <NAME>    Emitter to run; repeat to run several",
    "",
    "Options of classify:",
    "  --program <FILE>    Program document (JSON)"]

/-- What is written when the arguments are not understood. -/
def invalidText : String := "error: the arguments are not valid, try 'help'\n"

/-- The version of the program. -/
def versionText : String := "apiemit 0.2.7\n"

/-- Runs an action of the file system, and says whether it was a success. -/
def succeeds (action : IO Unit) : IO Bool := do
  try
    action
    return true
  catch _ =>
    return false

instance : FileSystem IO where
  read? path := do
    try
      return some (← IO.FS.readFile path)
    catch _ =>
      return none
  makeDirectories path := succeeds (IO.FS.createDirAll path)
  write path content := succeeds (IO.FS.writeFile path content)

end ApiEmit

open ApiEmit in
def main (args : List String) : IO UInt32 := do
  match Command.request args with
  | .help =>
    IO.print (Command.endLines helpLines)
    return 0
  | .version =>
    IO.print versionText
    return 0
  | .invalid =>
    IO.eprint invalidText
    return 2
  | .run invocation =>
    let outcome ← Command.run (m := IO) invocation
    IO.eprint (Command.endLines outcome.errors)
    IO.print outcome.out
    return outcome.code.toUInt32
