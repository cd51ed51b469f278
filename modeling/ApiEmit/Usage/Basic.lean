/-
ApiEmit.Usage.Basic — how operations use a type.

A type has the role of an input when a request can carry it, and that of an output
when a response can. The roles are kept in the order in which types were first
reached.
-/
import ApiEmit.Graph.Name

namespace ApiEmit

/-- A role that a type plays in an operation. -/
inductive Role where
  | input
  | output
  deriving DecidableEq, Repr

/-- The roles of a type. -/
structure Roles where
  input : Bool := false
  output : Bool := false
  deriving DecidableEq, Repr

namespace Roles

/-- Adds a role. -/
def insert (roles : Roles) : Role → Roles
  | .input => { roles with input := true }
  | .output => { roles with output := true }

/-- Whether a role is among them. -/
def has (roles : Roles) : Role → Bool
  | .input => roles.input
  | .output => roles.output

end Roles

/-- What a type is used for. -/
inductive Usage where
  | input
  | output
  | roundtrip
  deriving DecidableEq, Repr

/-- The word for a usage. -/
def Usage.text : Usage → String
  | .input => "input"
  | .output => "output"
  | .roundtrip => "roundtrip"

/-- What a type with certain roles is used for. Both roles and none make a round trip. -/
def Roles.usage (roles : Roles) : Usage :=
  match roles.input, roles.output with
  | true, false => .input
  | false, true => .output
  | _, _ => .roundtrip

/-- The roles of the types that operations reach, in the order of first reaching them. -/
structure UsageMap where
  entries : List (DeclId × Roles)
  deriving Repr

namespace UsageMap

/-- No type is reached. -/
def empty : UsageMap := ⟨[]⟩

/-- Adds a role to an entry of the list, which is made at the end when it is missing. -/
def insertIn (id : DeclId) (role : Role) : List (DeclId × Roles) → List (DeclId × Roles)
  | [] => [(id, Roles.insert {} role)]
  | (id', roles) :: rest =>
    if id' = id then (id', roles.insert role) :: rest else (id', roles) :: insertIn id role rest

/-- Gives a type a role. -/
def insert (usage : UsageMap) (id : DeclId) (role : Role) : UsageMap :=
  ⟨insertIn id role usage.entries⟩

/-- The roles of a type that is reached. -/
def roles? (usage : UsageMap) (id : DeclId) : Option Roles :=
  usage.entries.lookup id

/-- Whether a type is reached. -/
def contains (usage : UsageMap) (id : DeclId) : Bool :=
  (usage.roles? id).isSome

/-- What a type is used for; one that is not reached makes a round trip. -/
def usageOf (usage : UsageMap) (id : DeclId) : Usage :=
  ((usage.roles? id).map Roles.usage).getD .roundtrip

end UsageMap

end ApiEmit
