/-
ApiEmit.Pydantic.Names — the Python names of declarations.

A declaration keeps its own name when no other of those named has it, and gets the
path of its namespace in front otherwise. Either way the name is made an identifier.
-/
import ApiEmit.Graph.Name
import ApiEmit.Keyed
import ApiEmit.Python.Identifier

namespace ApiEmit.Pydantic

/-- The Python names of some declarations. -/
structure NameTable where
  entries : List (DeclId × String)
  deriving Repr

namespace NameTable

/-- The name of a declaration with the path of its namespace. -/
def qualified (id : DeclId) : String :=
  Python.identifier (String.intercalate "_" (id.home.path ++ [id.name]))

/-- The names for declarations that share one name. -/
def groupNames (group : String × List DeclId) : List (DeclId × String) :=
  match group.2 with
  | [id] => [(id, Python.identifier group.1)]
  | ids => ids.map fun id => (id, qualified id)

/-- Names some declarations; those without a name are passed over. -/
def ofDecls (decls : List DeclId) : NameTable :=
  ⟨(Keyed.groupBy (·.name) (decls.filter (·.name ≠ ""))).flatMap groupNames⟩

/-- The Python name of a declaration; one that the table does not have keeps its own. -/
def nameOf (names : NameTable) (id : DeclId) : String :=
  (names.entries.lookup id).getD (Python.identifier id.name)

end NameTable

end ApiEmit.Pydantic
