/-
ApiEmit.Arena.Basic — a program as tables of numbered entries.

Types, namespaces and operations stand in three lists, and whatever refers to one of them holds
its position. An inline type has a node of its own, the children and the operations of a
namespace are lists kept with it, and a declaration has its node before it is resolved.
-/
import ApiEmit.Graph.Basic

namespace ApiEmit

/-- A position among the types of an arena. -/
@[ext]
structure TypeIndex where
  position : Nat
  deriving DecidableEq, Repr

/-- A position among the namespaces of an arena. -/
@[ext]
structure NamespaceIndex where
  position : Nat
  deriving DecidableEq, Repr

/-- A position among the operations of an arena. -/
@[ext]
structure OperationIndex where
  position : Nat
  deriving DecidableEq, Repr

namespace Arena

/-! ## Types -/

/-- The keys under which a model has further values. -/
inductive IndexKey where
  | integer
  | string
  deriving DecidableEq, Repr

/-- The further values of a model: their keys and their type. -/
structure Indexer where
  key : IndexKey
  value : TypeIndex
  deriving DecidableEq, Repr

/-- The default of a property: a literal, or a member of an enum by its position. -/
inductive DefaultValue where
  | string (s : String)
  | number (n : Json.Number)
  | boolean (b : Bool)
  | null
  | member (enum : TypeIndex) (index : Nat)
  deriving DecidableEq, Repr

/-- A property of a model. -/
structure Property where
  name : String
  type : TypeIndex
  optional : Bool
  default : Option DefaultValue := none
  doc : Option String
  constraints : Constraints := {}
  deriving DecidableEq, Repr

/-- A model: declared, inline, or an instance of a container. Only an inline one has no name. -/
structure Model where
  name : String := ""
  home : Option NamespaceIndex := none
  properties : List Property := []
  base : Option TypeIndex := none
  indexer : Option Indexer := none
  doc : Option String := none
  constraints : Constraints := {}
  deriving DecidableEq, Repr

/-- A scalar. -/
structure Scalar where
  name : String
  home : Option NamespaceIndex
  base : Option TypeIndex
  doc : Option String := none
  constraints : Constraints := {}
  deriving DecidableEq, Repr

/-- An enum. -/
structure Enum where
  name : String
  home : Option NamespaceIndex
  members : List EnumMember
  doc : Option String
  deriving DecidableEq, Repr

/-- A variant of a union, with a name or without. -/
structure Variant where
  name : Option String
  type : TypeIndex
  deriving DecidableEq, Repr

/-- A union, which has no name when it is inline. -/
structure Union where
  name : Option String := none
  home : Option NamespaceIndex := none
  variants : List Variant
  doc : Option String := none
  deriving DecidableEq, Repr

/-- A type of an arena. -/
inductive Node where
  | model (m : Model)
  | scalar (s : Scalar)
  | enum (e : Enum)
  | union (u : Union)
  | intrinsic (i : Intrinsic)
  | string (s : String)
  | number (n : Json.Number)
  | boolean (b : Bool)
  deriving DecidableEq, Repr

namespace Node

/-- The node of a declaration that is not resolved yet. -/
def placeholder : Node := .intrinsic .unknown

/-- The kind of declarations that a node can be one of. -/
def kind? : Node → Option Kind
  | .model _ => some .model
  | .scalar _ => some .scalar
  | .enum _ => some .enum
  | .union _ => some .union
  | _ => none

/-- The name of a node, if it has one. -/
def name? (node : Node) : Option String :=
  let name := match node with
    | .model m => some m.name
    | .scalar s => some s.name
    | .enum e => some e.name
    | .union u => u.name
    | .intrinsic i => some i.name
    | _ => none
  name.filter (· ≠ "")

/-- The namespace that a node is declared in, if it is. -/
def home? : Node → Option NamespaceIndex
  | .model m => m.home
  | .scalar s => s.home
  | .enum e => e.home
  | .union u => u.home
  | _ => none

end Node

/-! ## Operations -/

/-- A parameter of an operation. -/
structure Parameter where
  name : String
  location : ParameterLocation
  type : TypeIndex
  optional : Bool
  doc : Option String
  deriving DecidableEq, Repr

/-- The payload of a request or a response. -/
structure Body where
  type : TypeIndex
  contentTypes : List String
  deriving DecidableEq, Repr

/-- A response of an operation. -/
structure Response where
  status : StatusCode
  description : Option String
  bodies : List Body
  deriving DecidableEq, Repr

/-- What an operation is declared in: a namespace, or an interface of one. -/
inductive Container where
  | namespace (home : NamespaceIndex)
  | interface (home : NamespaceIndex) (name : String)
  deriving DecidableEq, Repr

/-- The namespace of a container. -/
def Container.home : Container → NamespaceIndex
  | .namespace home => home
  | .interface home _ => home

/-- The interface of a container, if it is one. -/
def Container.interface? : Container → Option String
  | .namespace _ => none
  | .interface _ name => some name

/-- An operation. -/
structure Operation where
  name : String
  container : Container
  verb : Verb
  path : String
  doc : Option String
  summary : Option String
  parameters : List Parameter
  body : Option Body
  responses : List Response
  deriving DecidableEq, Repr

/-! ## Namespaces -/

/-- A namespace with what is declared directly in it, by kind and by name. -/
structure Namespace where
  name : String := ""
  parent : Option NamespaceIndex := none
  doc : Option String := none
  service : Option ServiceMark := none
  servers : List Server := []
  children : List NamespaceIndex := []
  models : List TypeIndex := []
  enums : List TypeIndex := []
  unions : List TypeIndex := []
  scalars : List TypeIndex := []
  operations : List OperationIndex := []
  declared : List (String × TypeIndex) := []
  deriving DecidableEq, Repr

/-- The declarations of a kind that are made in a namespace. -/
def Namespace.listed (ns : Namespace) : Kind → List TypeIndex
  | .model => ns.models
  | .enum => ns.enums
  | .union => ns.unions
  | .scalar => ns.scalars

end Arena

/-- A program as tables of types, namespaces and operations. -/
structure Arena where
  types : List Arena.Node
  namespaces : List Arena.Namespace
  operations : List Arena.Operation
  global : NamespaceIndex
  diagnostics : List Diagnostic
  deriving DecidableEq, Repr

end ApiEmit
