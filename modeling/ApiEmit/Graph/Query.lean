/-
ApiEmit.Graph.Query — what can be asked of a graph.

Walks over references keep the identities they have been to, so they end on cyclic
programs too.
-/
import ApiEmit.Graph.Basic

namespace ApiEmit.Graph

/-! ## Namespaces and operations -/

/-- The operations of a namespace itself and of its interfaces. -/
def operationsIn (g : Graph) (id : NamespaceId) : List Operation :=
  g.operations.filter (·.home == id)

/-- The operations of a namespace and of all namespaces below it. -/
def operationsWithin (g : Graph) (id : NamespaceId) : List Operation :=
  g.operations.filter (·.home.isWithin id)

/-- The namespace of an identity. -/
def namespace? (g : Graph) (id : NamespaceId) : Option Namespace :=
  g.namespaces.find? (·.id == id)

/-- The namespaces outside the reserved part of the tree. -/
def openNamespaces (g : Graph) : List Namespace :=
  g.namespaces.filter (! ·.id.isReserved)

end Graph

/-- A service: a namespace and the operations that are documented for it. -/
structure Service where
  home : NamespaceId
  title : Option String
  operations : List Operation

namespace Graph

/-- The namespaces that are marked as services, each with the operations within it. -/
def services (g : Graph) : List Service :=
  g.namespaces.filterMap fun ns =>
    ns.service.map fun mark => ⟨ns.id, mark.title, g.operationsWithin ns.id⟩

/-! ## Scalars -/

/-- The scalars from one to its root that are not among those seen. Each step leaves fewer unseen
declarations, so as many steps as there are declarations are enough. -/
def scalarChainFrom (g : Graph) : Nat → List DeclId → DeclId → List DeclId
  | 0, _, _ => []
  | steps + 1, seen, id =>
    if seen.contains id then
      []
    else
      match g.scalar? id with
      | none => []
      | some s =>
        id :: (match s.base with
          | none => []
          | some base => g.scalarChainFrom steps (id :: seen) base)

/-- A scalar, the scalar it restricts, and so on; a cycle is gone through once. -/
def scalarChain (g : Graph) (id : DeclId) : List DeclId :=
  g.scalarChainFrom g.declarations.length [] id

/-! ## Models -/

/-- The properties of a type that is a model: declared, inline, or a container without any. -/
def properties? (g : Graph) : Ty → Option (List Property)
  | .ref id => (g.model? id).map (·.properties)
  | .model properties => some (properties.map Property.ofInline)
  | .array _ => some []
  | .record _ => some []
  | _ => none

/-- The type of the values that a model has under text keys. -/
def stringIndexer? (g : Graph) : Ty → Option Ty
  | .ref id => (g.model? id).bind (·.indexer)
  | .record value => some value
  | _ => none

/-- The name by which a declared model counts as a map when it has an indexer. -/
def recordName : String := "Record"

/-- The type of the values of a map: a record, or a declared model that has the name of one. -/
def mapValue? (g : Graph) : Ty → Option Ty
  | .record value => some value
  | .ref id => if id.name = recordName then (g.model? id).bind (·.indexer) else none
  | _ => none

/-- A declared model that cannot be told from an inline one: it has no name, or is reserved. -/
def isStructural (g : Graph) (id : DeclId) : Bool :=
  (g.model? id).isSome && (id.name == "" || id.isReserved)

/-- Whether a declaration can be written out: a model that is not structural, or an enum or union
that is not reserved. -/
def isDeclarable (g : Graph) (id : DeclId) : Bool :=
  match g.declaration? id with
  | some (.model _) => !g.isStructural id
  | some (.enum _) => !id.isReserved
  | some (.union _) => !id.isReserved
  | _ => false

end Graph

/-! ## Types inside declarations -/

namespace Declaration

/-- The types that a declaration is made of: those of the properties of a model, its base and that
of its further values, or those of the variants of a union. -/
def types : Declaration → List Ty
  | .model m => m.properties.map (·.type) ++ (m.base.map .ref).toList ++ m.indexer.toList
  | .union u => u.variants.map (·.type)
  | _ => []

/-- The number of nodes of a declaration, itself included. -/
def size (d : Declaration) : Nat := TypeExpr.sizeAll d.types + 1

end Declaration

/-- The number of nodes of all declarations of a graph. -/
def Graph.size (g : Graph) : Nat :=
  g.declarations.foldr (fun d n => d.2.size + n) 0

end ApiEmit
