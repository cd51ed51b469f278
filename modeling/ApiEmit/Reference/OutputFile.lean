/-
ApiEmit.Reference.OutputFile — the file names of reference documents.

A template may hold the name of the service, or its name when there are several
services and nothing when there is one. Empty parts of the path are left out.
-/
import ApiEmit.Config.OptionError
import ApiEmit.Text.Blank
import ApiEmit.Text.Split
import ApiEmit.Text.Substitution

namespace ApiEmit.Reference

/-- The template for file names. -/
structure Options where
  outputFile : String := "\x7bservice-name\x7d.md"
  deriving DecidableEq, Repr, Inhabited

/-- Refuses a template that is blank. -/
def Options.validate (o : Options) : Except OptionError Unit :=
  if Text.isBlank o.outputFile then .error (.empty "output-file") else .ok ()

/-- What stands for the name of the service. -/
def servicePlaceholder : String := "\x7bservice-name\x7d"

/-- What stands for the name of the service when there are several. -/
def multiplePlaceholder : String := "\x7bservice-name-if-multiple\x7d"

/-- The file name for a service. -/
def outputFile (template serviceName : String) (multiple : Bool) : String :=
  let named := Text.substitute servicePlaceholder serviceName
    (Text.substitute multiplePlaceholder (if multiple then serviceName else "") template)
  String.intercalate "/" ((Text.split '/' named).filter (· ≠ ""))

end ApiEmit.Reference
