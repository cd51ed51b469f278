/-
ApiEmit.Graph.Library — the built-in scalars.

They are declared in a namespace of their own, which every program has.
-/
import ApiEmit.Graph.Basic

namespace ApiEmit.Library

/-- The built-in scalars, each with the one it restricts. -/
def scalars : List (String × Option String) :=
  [("string", none), ("boolean", none), ("bytes", none), ("numeric", none),
    ("integer", some "numeric"), ("float", some "numeric"), ("decimal", some "numeric"),
    ("decimal128", some "decimal"), ("int64", some "integer"), ("int32", some "int64"),
    ("int16", some "int32"), ("int8", some "int16"), ("safeint", some "int64"),
    ("uint64", some "integer"), ("uint32", some "uint64"), ("uint16", some "uint32"),
    ("uint8", some "uint16"), ("float64", some "float"), ("float32", some "float64"),
    ("plainDate", none), ("plainTime", none), ("utcDateTime", none), ("offsetDateTime", none),
    ("duration", none), ("url", none)]

/-- The identity of a built-in scalar. -/
def scalarId (name : String) : DeclId := ⟨NamespaceId.library, name⟩

/-- The namespace of the built-in scalars. -/
def namespaceEntry : Namespace :=
  { id := NamespaceId.library, doc := none, service := none, servers := [], models := [],
    enums := [], unions := [], scalars := scalars.map (·.1) }

/-- The declarations of the built-in scalars. -/
def declarations : List (DeclId × Declaration) :=
  scalars.map fun (name, base) =>
    (scalarId name, .scalar { doc := none, base := base.map scalarId, constraints := {} })

end ApiEmit.Library
