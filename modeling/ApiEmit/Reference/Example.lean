/-
ApiEmit.Reference.Example — example values of types.

An example has a member for each property of a model and one item for a list; a
choice takes its first alternative that is not null. Below a certain depth every
example is the empty object. A type without values has no example.
-/
import ApiEmit.Graph.Query
import ApiEmit.Json.Value

namespace ApiEmit.Reference

open Json (Value)

/-- How deep examples are nested. -/
def maxExampleDepth : Nat := 6

/-- The empty object. -/
def emptyObject : Value := .object []

/-- Whether a type is the null type. -/
def isNullType : Ty → Bool
  | .intrinsic .null => true
  | _ => false

/-- The type that is left when a choice takes its first alternative that is not null, and that
alternative again, for a number of steps. A choice that comes back to itself leaves none. -/
def settleIn? (g : Graph) : Nat → Ty → Option Ty
  | 0, _ => none
  | steps + 1, type =>
    let follow : List Ty → Option Ty := fun variants =>
      match variants.find? (! isNullType ·) with
      | some variant => settleIn? g steps variant
      | none => some (.intrinsic .null)
    match type with
    | .union variants => follow variants
    | .ref id =>
      match g.union? id with
      | some u => follow (u.variants.map (·.type))
      | none => some (.ref id)
    | type => some type

/-- The type that is left of a choice. No more steps are needed than there are nodes in the type and
in all declarations. -/
def settle? (g : Graph) (type : Ty) : Option Ty :=
  settleIn? g (type.size + g.size + 1) type

/-- The example of a scalar name. -/
def scalarValue? (name : String) : Option Value :=
  if name = "string" then some (.string "string")
  else if name = "boolean" then some (.bool false)
  else if ["int8", "int16", "int32", "int64", "uint8", "uint16", "uint32", "uint64", "safeint",
      "integer", "numeric"].contains name then some (.number (.integer 0))
  else if ["float", "float16", "float32", "float64", "decimal", "decimal128"].contains name then
    some (.number (.binary false .zero))
  else if name = "plainDate" then some (.string "2024-01-01")
  else if name = "plainTime" then some (.string "12:00:00")
  else if name = "utcDateTime" ∨ name = "offsetDateTime" then
    some (.string "2024-01-01T00:00:00Z")
  else if name = "duration" then some (.string "PT1H")
  else if name = "bytes" then some (.string "base64EncodedString")
  else if name = "url" then some (.string "https://example.com")
  else none

/-- The example of a scalar: that of the first name known among it and its bases. -/
def scalarExample (g : Graph) (id : DeclId) : Value :=
  ((g.scalarChain id).findSome? fun id => scalarValue? id.name).getD (.string "string")

/-- The example of an enum: its first member. -/
def enumExample (e : EnumDecl) : Value :=
  match e.members with
  | [] => .string "string"
  | m :: _ =>
    match m.effectiveValue with
    | .string s => .string s
    | .number n => .number n

/-- An object with the members that have a value. -/
def objectOf (members : List (String × Option Value)) : Value :=
  .object (members.filterMap fun (name, value) => value.map (name, ·))

/-- The example of a type, nested as deep as there are levels left. -/
def exampleTo? (g : Graph) : Nat → Ty → Option Value
  | 0, _ => some emptyObject
  | levels + 1, type =>
    match settle? g type with
    | none => none
    | some (.array element) => some (.array [(exampleTo? g levels element).getD .null])
    | some (.record value) => some (objectOf [("key", exampleTo? g levels value)])
    | some (.model properties) =>
      some (objectOf (properties.map fun p => (p.name, exampleTo? g levels p.type)))
    | some (.intrinsic .void) => none
    | some (.intrinsic .never) => none
    | some (.intrinsic .null) => some .null
    | some (.intrinsic _) => some emptyObject
    | some (.string s) => some (.string s)
    | some (.number n) => some (.number n)
    | some (.boolean b) => some (.bool b)
    | some (.union _) => none
    | some (.ref id) =>
      match g.declaration? id with
      | some (.model m) =>
        match m.indexer with
        | some value => some (objectOf [("key", exampleTo? g levels value)])
        | none => some (objectOf (m.properties.map fun p => (p.name, exampleTo? g levels p.type)))
      | some (.scalar _) => some (scalarExample g id)
      | some (.enum e) => some (enumExample e)
      | _ => none

/-- The example of a type that stands at a depth. -/
def example? (g : Graph) (type : Ty) (depth : Nat) : Option Value :=
  exampleTo? g (maxExampleDepth - depth) type

end ApiEmit.Reference
