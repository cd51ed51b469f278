/-
ApiEmit.Python.Syntax — the part of Python that modules are written in.

A module holds imports and then enums, aliases of types, and model classes.
-/
import ApiEmit.Json.Number

namespace ApiEmit.Python

/-- The type hints without parts. -/
inductive Primitive where
  | str
  | bool
  | int
  | float
  | bytes
  | datetime
  | timedelta
  | any
  deriving DecidableEq, Repr

/-- A type hint. -/
inductive TypeHint where
  | primitive (p : Primitive)
  | list (item : TypeHint)
  | dict (value : TypeHint)
  | union (items : List TypeHint)
  | optional (item : TypeHint)
  | forward (name : String)
  | none
  deriving Repr

namespace TypeHint

/-- The type hint that every value has. -/
def any : TypeHint := .primitive .any

instance : Inhabited TypeHint := ⟨any⟩

mutual

/-- A type hint and those within it, each before its parts. -/
def walk : TypeHint → List TypeHint
  | .list item => .list item :: item.walk
  | .dict value => .dict value :: value.walk
  | .optional item => .optional item :: item.walk
  | .union items => .union items :: walkAll items
  | a => [a]

/-- Some type hints and those within them. -/
def walkAll : List TypeHint → List TypeHint
  | [] => []
  | a :: rest => a.walk ++ walkAll rest

end

/-- The name that a forward reference refers to. -/
def forwardName? : TypeHint → Option String
  | .forward name => some name
  | _ => Option.none

end TypeHint

/-- A literal value. -/
inductive Literal where
  | str (s : String)
  | number (n : Json.Number)
  | bool (b : Bool)
  | none
  deriving DecidableEq, Repr

/-- A keyword argument. -/
structure Argument where
  keyword : String
  value : Literal
  deriving DecidableEq, Repr

/-- What a field is set to in the body of its class: nothing, a literal, or a `Field` call. -/
inductive FieldValue where
  | required
  | default (value : Literal)
  | call (args : List Argument)
  deriving DecidableEq, Repr

/-- A field of a model class. -/
structure Field where
  name : String
  hint : TypeHint
  value : FieldValue
  deriving Repr

/-- A model class. -/
structure ClassDef where
  name : String
  base : String
  doc : Option String
  fields : List Field
  deriving Repr

/-- The base of an enum class. -/
inductive EnumBase where
  | intEnum
  | strEnum
  | enum
  deriving DecidableEq, Repr

/-- The name of the base of an enum class. -/
def EnumBase.name : EnumBase → String
  | .intEnum => "IntEnum"
  | .strEnum => "StrEnum"
  | .enum => "Enum"

/-- A member of an enum class. -/
structure MemberDef where
  name : String
  value : Literal
  deriving DecidableEq, Repr

/-- An enum class. -/
structure EnumDef where
  name : String
  base : EnumBase
  doc : Option String
  members : List MemberDef
  deriving DecidableEq, Repr

/-- A name for a type hint. -/
structure AliasDef where
  name : String
  value : TypeHint
  doc : Option String
  deriving Repr

/-- A declaration of a module. -/
inductive Statement where
  | enum (e : EnumDef)
  | alias (a : AliasDef)
  | model (c : ClassDef)
  deriving Repr

/-- Names that are imported from one place. -/
structure Import where
  source : String
  names : List String
  deriving DecidableEq, Repr

/-- A module. -/
structure Module where
  imports : List Import
  statements : List Statement
  deriving Repr

end ApiEmit.Python
