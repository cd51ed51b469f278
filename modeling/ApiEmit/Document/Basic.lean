/-
ApiEmit.Document.Basic — a program as it is written.

References are texts, and nothing has been looked up. The root of a program is its
global namespace.
-/
import ApiEmit.Json.Value
import ApiEmit.Schema.Basic
import ApiEmit.Schema.Http
import ApiEmit.Schema.TypeExpr

namespace ApiEmit.Document

/-- A type expression whose references and intrinsics are names. -/
abbrev Expr := TypeExpr String String

/-- A property of a declared model. -/
structure Property where
  name : String
  type : Expr
  optional : Bool
  default : Option Json.Value
  doc : Option String
  constraints : Constraints

/-- A declared model. -/
structure Model where
  name : String
  doc : Option String
  base : Option String
  indexer : Option Expr
  properties : List Property
  constraints : Constraints

/-- A declared scalar. -/
structure Scalar where
  name : String
  doc : Option String
  base : Option String
  constraints : Constraints

/-- A declared enum. -/
structure Enum where
  name : String
  doc : Option String
  members : List EnumMember

/-- A variant of a declared union, with a name or without. -/
structure Variant where
  name : Option String
  type : Expr

/-- A declared union. -/
structure Union where
  name : String
  doc : Option String
  variants : List Variant

/-- A parameter of an operation. -/
structure Parameter where
  name : String
  location : ParameterLocation
  type : Expr
  optional : Bool
  doc : Option String

/-- The payload of a request or a response. -/
structure Body where
  type : Expr
  contentTypes : List String

/-- A response of an operation. -/
structure Response where
  status : StatusCode
  description : Option String
  bodies : List Body

/-- An operation. -/
structure Operation where
  name : String
  verb : Verb
  path : String
  doc : Option String
  summary : Option String
  parameters : List Parameter
  body : Option Body
  responses : List Response

/-- A named group of operations. -/
structure Interface where
  name : String
  operations : List Operation

/-- What marks a namespace as a service. -/
structure Service where
  title : Option String

/-- A namespace with all that is declared in it. -/
structure Namespace where
  name : String
  doc : Option String := none
  service : Option Service := none
  servers : List Server := []
  namespaces : List Namespace := []
  models : List Model := []
  enums : List Enum := []
  unions : List Union := []
  scalars : List Scalar := []
  operations : List Operation := []
  interfaces : List Interface := []

end ApiEmit.Document

namespace ApiEmit

/-- A program as it is written: its global namespace, and what was reported about it. -/
structure Document where
  root : Document.Namespace
  diagnostics : List Diagnostic

end ApiEmit
