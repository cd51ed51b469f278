/-
ApiEmit.Pydantic.TypeHint — the type hint of a type.

Declared models and enums are referred to by name, everything else is spelled out.
The names referred to are gathered in the order in which they first occur.
-/
import ApiEmit.Graph.Query
import ApiEmit.Keyed
import ApiEmit.Pydantic.Names
import ApiEmit.Python.Syntax

namespace ApiEmit.Pydantic

open Python (TypeHint Primitive)

/-- The Python type of a scalar name. -/
def scalarPrimitive? (name : String) : Option Primitive :=
  if ["string", "url", "plainDate", "plainTime"].contains name then some .str
  else if name = "boolean" then some .bool
  else if ["int8", "int16", "int32", "int64", "uint8", "uint16", "uint32", "uint64", "integer",
      "safeint"].contains name then some .int
  else if ["float32", "float64", "float", "numeric", "decimal", "decimal128"].contains name then
    some .float
  else if name = "bytes" then some .bytes
  else if name = "utcDateTime" ∨ name = "offsetDateTime" then some .datetime
  else if name = "duration" then some .timedelta
  else none

/-- The type hint of a scalar: the type of the first name known among it and its bases. -/
def scalarHint (g : Graph) (id : DeclId) : TypeHint :=
  (((g.scalarChain id).findSome? fun id => scalarPrimitive? id.name).map .primitive).getD .any

/-- The type hint of a choice: nothing to choose from allows anything. -/
def choice : List TypeHint → TypeHint
  | [] => .any
  | [a] => a
  | items => .union items

/-- The names of declarations that type hints refer to, each once. -/
abbrev References := List String

/-- Adds a name at the end unless it is there. -/
def References.insert (refs : References) (name : String) : References :=
  Keyed.add id refs name

/-- A reference to a declaration by its Python name. -/
def forwardReference (names : NameTable) (id : DeclId) (refs : References) :
    TypeHint × References :=
  let name := names.nameOf id
  (.forward name, refs.insert name)

/-- Annotates some types one after the other. -/
def annotateAll (annotate : Ty → References → Option (TypeHint × References)) :
    List Ty → References → Option (List TypeHint × References)
  | [], refs => some ([], refs)
  | type :: types, refs =>
    match annotate type refs with
    | none => none
    | some (a, refs) =>
      match annotateAll annotate types refs with
      | none => none
      | some (as, refs) => some (a :: as, refs)

/-- The type hint of a type, or `none` when it is nested deeper than `depth`. Unions and maps are
taken apart wherever they are declared, so a union that contains itself has no type hint. -/
def annotate? (g : Graph) (names : NameTable) :
    Nat → Ty → References → Option (TypeHint × References)
  | 0, _, _ => none
  | depth + 1, type, refs =>
    match type with
    | .array element =>
      (annotate? g names depth element refs).map fun (a, refs) => (.list a, refs)
    | .record value =>
      (annotate? g names depth value refs).map fun (a, refs) => (.dict a, refs)
    | .union variants =>
      (annotateAll (annotate? g names depth) variants refs).map fun (as, refs) => (choice as, refs)
    | .model _ => some (.any, refs)
    | .intrinsic .null => some (.none, refs)
    | .intrinsic _ => some (.any, refs)
    | .string _ => some (.primitive .str, refs)
    | .number n => some (.primitive (if n.isIntegral then .int else .float), refs)
    | .boolean _ => some (.primitive .bool, refs)
    | .ref id =>
      match g.declaration? id with
      | none => some (.any, refs)
      | some (.scalar _) => some (scalarHint g id, refs)
      | some (.enum _) =>
        some (if id.name = "" then (.any, refs) else forwardReference names id refs)
      | some (.union u) =>
        (annotateAll (annotate? g names depth) (u.variants.map (·.type)) refs).map
          fun (as, refs) => (choice as, refs)
      | some (.model _) =>
        match g.mapValue? (.ref id) with
        | some value =>
          (annotate? g names depth value refs).map fun (a, refs) => (.dict a, refs)
        | none =>
          some (if g.isStructural id then (.any, refs) else forwardReference names id refs)

/-- The type hint of a type and the names referred to so far. A type cannot be nested deeper than
there are nodes in it and in all declarations, unless it contains itself. -/
def annotate (g : Graph) (names : NameTable) (type : Ty) (refs : References) :
    TypeHint × References :=
  (annotate? g names (type.size + g.size + 1) type refs).getD (.any, refs)

/-- The type hint of a type. -/
def hintOf (g : Graph) (names : NameTable) (type : Ty) : TypeHint :=
  (annotate g names type []).1

end ApiEmit.Pydantic
