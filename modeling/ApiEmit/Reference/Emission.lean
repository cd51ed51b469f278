/-
ApiEmit.Reference.Emission — the reference documents of a program.

There is one document for each service. A program that declares none is taken as
one service when it has operations at all, and a program with errors has no
documents.
-/
import ApiEmit.Reference.Document
import ApiEmit.Reference.OutputFile

namespace ApiEmit.Reference

/-- The services to document. -/
def documentedServices (g : Graph) : List Service :=
  if !g.services.isEmpty then g.services
  else if (g.operationsWithin .root).isEmpty then []
  else [⟨.root, none, g.operationsWithin .root⟩]

/-- The name of a service in file names. -/
def serviceName (s : Service) : String :=
  if s.home.fullName = "" then "api" else s.home.fullName

/-- The files of the reference documents of a program. Of two services with one file name the later
is kept, in the place of the earlier. -/
def files (g : Graph) (o : Options) : List (String × String) :=
  if g.hasErrors then [] else
    let services := documentedServices g
    Keyed.ofList (·.1) <| services.map fun s =>
      (outputFile o.outputFile (serviceName s) (1 < services.length), serviceDocument g s)

end ApiEmit.Reference
