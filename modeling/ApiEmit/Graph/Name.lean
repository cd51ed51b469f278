/-
ApiEmit.Graph.Name — the identities of namespaces and declarations.

A namespace is known by its place in the tree, so two namespaces with one name are
two. A declaration is known by its namespace and its name, which no two
declarations of a namespace share.
-/

namespace ApiEmit

/-- One step down the tree of namespaces: which child, and what it is called. -/
structure Segment where
  position : Nat
  name : String
  deriving DecidableEq, Repr

/-- The place of a namespace, the innermost step first. The global namespace has no steps. -/
structure NamespaceId where
  segments : List Segment
  deriving DecidableEq, Repr

namespace NamespaceId

/-- The global namespace. -/
def root : NamespaceId := ⟨[]⟩

/-- A child of a namespace. -/
def child (id : NamespaceId) (position : Nat) (name : String) : NamespaceId :=
  ⟨⟨position, name⟩ :: id.segments⟩

/-- The namespace around a namespace; the global one has none. -/
def parent? (id : NamespaceId) : Option NamespaceId :=
  id.segments.tail?.map NamespaceId.mk

/-- The name of a namespace itself. -/
def name (id : NamespaceId) : String :=
  match id.segments with
  | [] => ""
  | segment :: _ => segment.name

/-- What is left of a place after each number of steps outwards. -/
def outwards : List Segment → List NamespaceId
  | [] => [⟨[]⟩]
  | segment :: rest => ⟨segment :: rest⟩ :: outwards rest

/-- The namespace itself and those around it, the innermost first. -/
def enclosing (id : NamespaceId) : List NamespaceId :=
  outwards id.segments

/-- Whether the namespace is another one or lies below it. -/
def isWithin (id outer : NamespaceId) : Bool :=
  outer.segments.isSuffixOf id.segments

/-- The names from the global namespace down. Namespaces without a name are left out. -/
def path (id : NamespaceId) : List String :=
  (id.segments.reverse.map Segment.name).filter (· ≠ "")

/-- The path as one text, empty for the global namespace. -/
def fullName (id : NamespaceId) : String :=
  String.intercalate "." id.path

/-- The name that marks the reserved part of the tree. -/
def reservedName : String := "TypeSpec"

/-- The namespace of the built-in scalars, a child of the global one ahead of all others. -/
def library : NamespaceId := root.child 0 reservedName

/-- Whether the path starts with the reserved name. -/
def isReserved (id : NamespaceId) : Bool :=
  id.path.head? == some reservedName

/-- A name behind the path of a namespace. -/
def qualify (id : NamespaceId) (name : String) : String :=
  if id.fullName = "" then name else id.fullName ++ "." ++ name

end NamespaceId

/-- The identity of a declaration. -/
structure DeclId where
  home : NamespaceId
  name : String
  deriving DecidableEq, Repr

namespace DeclId

/-- The name of a declaration behind the path of its namespace. -/
def qualifiedName (id : DeclId) : String :=
  id.home.qualify id.name

/-- Whether the declaration lies in the reserved part of the tree. -/
def isReserved (id : DeclId) : Bool :=
  id.home.isReserved

end DeclId

end ApiEmit
