/-
ApiEmit.Arena.Query — what can be asked of an arena.

An index is followed without a check that it leads anywhere. A question has no answer just where
an index that it meets leads nowhere, or where its walk goes on for longer than a walk that comes
to each entry once. Walks keep the indices they have been to, as references may form cycles.
-/
import ApiEmit.Arena.Basic

namespace ApiEmit.Arena

/-! ## Entries -/

/-- The type at an index. -/
def type? (a : Arena) (id : TypeIndex) : Option Node :=
  a.types[id.position]?

/-- The namespace at an index. -/
def namespace? (a : Arena) (id : NamespaceIndex) : Option Namespace :=
  a.namespaces[id.position]?

/-- The operation at an index. -/
def operation? (a : Arena) (id : OperationIndex) : Option Operation :=
  a.operations[id.position]?

/-- The model at an index, if the type there is one. -/
def model? (a : Arena) (id : TypeIndex) : Option (Option Model) :=
  (a.type? id).map fun
    | .model m => some m
    | _ => none

/-! ## Places in the tree -/

/-- A namespace and those around it, up to one that has been seen. -/
def enclosingFrom? (a : Arena) : Nat → List NamespaceIndex → NamespaceIndex →
    Option (List Namespace)
  | 0, _, _ => none
  | steps + 1, seen, id =>
    if seen.contains id then
      some []
    else do
      let ns ← a.namespace? id
      match ns.parent with
      | none => return [ns]
      | some outer => return ns :: (← a.enclosingFrom? steps (id :: seen) outer)

/-- The names from the global namespace down to a namespace. Empty ones are left out. -/
def path? (a : Arena) (id : NamespaceIndex) : Option (List String) := do
  let around ← a.enclosingFrom? (a.namespaces.length + 1) [] id
  return (around.reverse.map (·.name)).filter (· ≠ "")

/-- The path as one text, empty for the global namespace. -/
def fullName? (a : Arena) (id : NamespaceIndex) : Option String :=
  (a.path? id).map (String.intercalate ".")

/-- A name behind the path of a namespace. -/
def qualify? (a : Arena) (id : NamespaceIndex) (name : String) : Option String :=
  (a.fullName? id).map fun path => if path = "" then name else path ++ "." ++ name

/-- Whether the path of a namespace starts with the reserved name. -/
def isReserved? (a : Arena) (id : NamespaceIndex) : Option Bool :=
  (a.path? id).map fun path => path.head? == some NamespaceId.reservedName

/-- Whether a type is declared in the reserved part of the tree. -/
def isLibraryType? (a : Arena) (id : TypeIndex) : Option Bool := do
  match (← a.type? id).home? with
  | none => return false
  | some home => a.isReserved? home

/-- Whether a type is an inline model or an instance of a container. -/
def isStructural? (a : Arena) (id : TypeIndex) : Option Bool := do
  match ← a.type? id with
  | .model m => if m.name = "" then return true else a.isLibraryType? id
  | _ => return false

/-- The name of a type behind the path of its namespace. -/
def qualifiedName? (a : Arena) (id : TypeIndex) : Option String := do
  let node ← a.type? id
  let name := node.name?.getD ""
  match node.home? with
  | none => return name
  | some home => a.qualify? home name

/-! ## Walks down the tree -/

/-- The namespaces that a walk comes to from a stack of them. -/
def walk? (a : Arena) : Nat → List NamespaceIndex → List NamespaceIndex →
    Option (List (NamespaceIndex × Namespace))
  | _, _, [] => some []
  | 0, _, _ :: _ => none
  | steps + 1, seen, id :: stack =>
    if seen.contains id then
      a.walk? steps seen stack
    else do
      let ns ← a.namespace? id
      return (id, ns) :: (← a.walk? steps (id :: seen) (ns.children ++ stack))

/-- The namespaces below one and itself, in the order of a walk. It takes one step for where it
starts and at most one for each child. -/
def below? (a : Arena) (id : NamespaceIndex) : Option (List (NamespaceIndex × Namespace)) :=
  a.walk? ((a.namespaces.flatMap (·.children)).length + 1) [] [id]

/-- The operations of a namespace itself and of its interfaces. -/
def operationsIn? (a : Arena) (id : NamespaceIndex) : Option (List OperationIndex) :=
  (a.namespace? id).map (·.operations)

/-- The operations of a namespace and of all namespaces below it. -/
def operationsWithin? (a : Arena) (id : NamespaceIndex) : Option (List OperationIndex) :=
  (a.below? id).map (·.flatMap (·.2.operations))

/-- A service: a namespace and the operations that are documented for it. -/
structure Service where
  home : NamespaceIndex
  title : Option String
  operations : List OperationIndex
  deriving DecidableEq, Repr

/-- The service that a namespace is, if it is marked as one. -/
def serviceAt? (a : Arena) (entry : NamespaceIndex × Namespace) : Option (Option Service) :=
  match entry.2.service with
  | none => some none
  | some mark => (a.operationsWithin? entry.1).map fun operations =>
    some { home := entry.1, title := mark.title, operations }

/-- The namespaces that are marked as services, each with the operations within it. -/
def services? (a : Arena) : Option (List Service) := do
  let found ← (← a.below? a.global).mapM a.serviceAt?
  return found.filterMap id

/-! ## Scalars -/

/-- The scalars from one to its root that have not been seen. -/
def scalarChainFrom? (a : Arena) : Nat → List TypeIndex → TypeIndex → Option (List TypeIndex)
  | 0, _, _ => none
  | steps + 1, seen, id =>
    if seen.contains id then
      some []
    else do
      match ← a.type? id with
      | .scalar s =>
        match s.base with
        | none => return [id]
        | some base => return id :: (← a.scalarChainFrom? steps (id :: seen) base)
      | _ => return []

/-- A scalar, the scalar it restricts, and so on; a cycle is gone through once. -/
def scalarChain? (a : Arena) (id : TypeIndex) : Option (List TypeIndex) :=
  a.scalarChainFrom? (a.types.length + 1) [] id

end ApiEmit.Arena
