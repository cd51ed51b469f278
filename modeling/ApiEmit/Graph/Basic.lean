/-
ApiEmit.Graph.Basic — a program with every name resolved.

A graph is a table of declarations whose types refer to other declarations by
identity, so references may form cycles while each type is a finite expression.
-/
import ApiEmit.Graph.Name
import ApiEmit.Schema.Basic
import ApiEmit.Schema.Http
import ApiEmit.Schema.TypeExpr

namespace ApiEmit

/-- A type: an expression whose references are declarations. -/
abbrev Ty := TypeExpr DeclId Intrinsic

/-- The kinds of declarations. -/
inductive Kind where
  | model
  | enum
  | union
  | scalar
  deriving DecidableEq, Repr

/-- The word for a kind. -/
def Kind.text : Kind → String
  | .model => "model"
  | .enum => "enum"
  | .union => "union"
  | .scalar => "scalar"

/-- The default of a property: a literal, or a member of an enum by its position. -/
inductive DefaultValue where
  | string (s : String)
  | number (n : Json.Number)
  | boolean (b : Bool)
  | member (enum : DeclId) (index : Nat)
  deriving DecidableEq, Repr

/-- A property of a model. -/
structure Property where
  name : String
  type : Ty
  optional : Bool
  default : Option DefaultValue
  doc : Option String
  constraints : Constraints
  deriving Repr

/-- A property of an inline model has neither default nor constraints. -/
def Property.ofInline (p : InlineProperty Ty) : Property :=
  { name := p.name, type := p.type, optional := p.optional, default := none, doc := p.doc,
    constraints := {} }

/-- A model: a record that may extend another, and may have values under further keys. -/
structure Model where
  doc : Option String
  base : Option DeclId
  indexer : Option Ty
  properties : List Property
  constraints : Constraints
  deriving Repr

/-- A scalar, which may restrict another. -/
structure Scalar where
  doc : Option String
  base : Option DeclId
  constraints : Constraints
  deriving Repr

/-- A variant of a union, with a name or without. -/
structure Variant where
  name : Option String
  type : Ty
  deriving Repr

/-- A named union. -/
structure UnionDecl where
  doc : Option String
  variants : List Variant
  deriving Repr

/-- A declaration. -/
inductive Declaration where
  | model (m : Model)
  | enum (e : EnumDecl)
  | union (u : UnionDecl)
  | scalar (s : Scalar)
  deriving Repr

namespace Declaration

/-- The kind of a declaration. -/
def kind : Declaration → Kind
  | .model _ => .model
  | .enum _ => .enum
  | .union _ => .union
  | .scalar _ => .scalar

/-- The documentation of a declaration. -/
def doc : Declaration → Option String
  | .model m => m.doc
  | .enum e => e.doc
  | .union u => u.doc
  | .scalar s => s.doc

end Declaration

/-- A parameter of an operation. -/
structure Parameter where
  name : String
  location : ParameterLocation
  type : Ty
  optional : Bool
  doc : Option String
  deriving Repr

/-- The payload of a request or a response, with at least one content type after loading. -/
structure Body where
  type : Ty
  contentTypes : List String
  deriving Repr

/-- A response of an operation. -/
structure Response where
  status : StatusCode
  description : Option String
  bodies : List Body
  deriving Repr

/-- An operation, declared in a namespace or in an interface of it. -/
structure Operation where
  home : NamespaceId
  interface : Option String
  name : String
  verb : Verb
  path : String
  doc : Option String
  summary : Option String
  parameters : List Parameter
  body : Option Body
  responses : List Response
  deriving Repr

/-- What marks a namespace as a service. -/
structure ServiceMark where
  title : Option String
  deriving DecidableEq, Repr

/-- A namespace: where it is, what it says about itself, and the names declared in it. -/
structure Namespace where
  id : NamespaceId
  doc : Option String
  service : Option ServiceMark
  servers : List Server
  models : List String
  enums : List String
  unions : List String
  scalars : List String
  deriving Repr

namespace Namespace

/-- The declared names with their kinds: models, enums, unions, scalars. -/
def declared (ns : Namespace) : List (String × Kind) :=
  ns.models.map (·, .model) ++ ns.enums.map (·, .enum) ++ ns.unions.map (·, .union) ++
    ns.scalars.map (·, .scalar)

/-- The identities of the declarations: models, enums, unions, scalars. -/
def declIds (ns : Namespace) : List DeclId :=
  ns.declared.map fun entry => ⟨ns.id, entry.1⟩

end Namespace

/-- A resolved program. The namespaces stand in the order of the tree, each before those below it;
the operations stand in the order of their namespaces. -/
structure Graph where
  namespaces : List Namespace
  declarations : List (DeclId × Declaration)
  operations : List Operation
  diagnostics : List Diagnostic
  deriving Repr

namespace Graph

/-- The declaration of an identity. -/
def declaration? (g : Graph) (id : DeclId) : Option Declaration :=
  g.declarations.lookup id

/-- The model of an identity. -/
def model? (g : Graph) (id : DeclId) : Option Model :=
  match g.declaration? id with
  | some (.model m) => some m
  | _ => none

/-- The enum of an identity. -/
def enum? (g : Graph) (id : DeclId) : Option EnumDecl :=
  match g.declaration? id with
  | some (.enum e) => some e
  | _ => none

/-- The union of an identity. -/
def union? (g : Graph) (id : DeclId) : Option UnionDecl :=
  match g.declaration? id with
  | some (.union u) => some u
  | _ => none

/-- The scalar of an identity. -/
def scalar? (g : Graph) (id : DeclId) : Option Scalar :=
  match g.declaration? id with
  | some (.scalar s) => some s
  | _ => none

/-- Whether an error was reported about the program. -/
def hasErrors (g : Graph) : Bool :=
  g.diagnostics.any (·.severity == .error)

end Graph

end ApiEmit
