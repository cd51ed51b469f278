/-
ApiEmit.Host.Memory — files that are kept in memory.

There is one file for all the ways to write its path; the first of them is kept.
-/
import ApiEmit.Host.LineEnding
import ApiEmit.Host.Path

namespace ApiEmit

/-- Files by path. -/
structure MemoryHost where
  files : List (String × String) := []
  deriving Repr, Inhabited

namespace MemoryHost

/-- Sets the content of a file in a list. -/
def writeIn (path content : String) : List (String × String) → List (String × String)
  | [] => [(path, content)]
  | (other, old) :: rest =>
    if Path.key other = Path.key path then (other, content) :: rest
    else (other, old) :: writeIn path content rest

/-- Sets the content of a file, with its lines ended one way. -/
def write (host : MemoryHost) (path content : String) (ending : LineEnding) : MemoryHost :=
  ⟨writeIn path (ending.apply content) host.files⟩

/-- The content of a file. -/
def get? (host : MemoryHost) (path : String) : Option String :=
  (host.files.find? fun file => Path.key file.1 = Path.key path).map (·.2)

end MemoryHost

end ApiEmit
