/-
ApiEmit.Pydantic.Definition — the Python declaration of a declaration.

An enum becomes an enum class, a union an alias, and a model a class with one field
for each property.
-/
import ApiEmit.Pydantic.TypeHint
import ApiEmit.Pydantic.Arguments

namespace ApiEmit.Pydantic

open Python (AliasDef Argument ClassDef EnumBase EnumDef Literal MemberDef)

/-! ## Enums -/

/-- The base of an enum class: members that all have numbers are integers, members that all have
texts or no values are texts. -/
def enumBase (members : List EnumMember) : EnumBase :=
  if members.all fun m => m.value matches some (.number _) then .intEnum
  else if members.all fun m => m.value matches none | some (.string _) then .strEnum
  else .enum

/-- The literal of a member value. -/
def enumLiteral : EnumValue → Literal
  | .string s => .str s
  | .number n => .number n

/-- The class of an enum. -/
def enumDef (name : String) (e : EnumDecl) : EnumDef :=
  { name, base := enumBase e.members, doc := e.doc,
    members := e.members.map fun m =>
      { name := Python.identifier m.name, value := enumLiteral m.effectiveValue } }

/-! ## Unions -/

/-- The alias of a union. Unlike inside other type hints, a single variant stays a union. -/
def aliasDef (g : Graph) (names : NameTable) (name : String) (u : UnionDecl) : AliasDef :=
  let items := u.variants.map fun v => hintOf g names v.type
  { name, value := if items.isEmpty then .any else .union items, doc := u.doc }

/-! ## Models -/

/-- The base of a model without one. -/
def rootBase : String := "BaseModel"

/-- The base of the class of a model. -/
def baseName (g : Graph) (names : NameTable) (m : Model) : String :=
  match m.base with
  | some base => if g.isStructural base then rootBase else names.nameOf base
  | none => rootBase

/-- The literal of a default. -/
def defaultLiteral (g : Graph) : DefaultValue → Literal
  | .string s => .str s
  | .number n => .number n
  | .boolean b => .bool b
  | .member enum index =>
    (((g.enum? enum).bind (·.members[index]?)).map (enumLiteral ·.effectiveValue)).getD .none

/-- The default of a field, which an optional property has even when it declares none. -/
def fieldDefault? (g : Graph) (p : Property) : Option Literal :=
  (p.default.map (defaultLiteral g)).or (if p.optional then some .none else none)

/-- The arguments of a field apart from a default. The alias keeps the name of the property where
the field has another. -/
def fieldArguments (g : Graph) (p : Property) : Arguments :=
  let name := Python.identifier p.name
  Arguments.ofList (propertyCandidates g p ++
    textArgument "alias" (if name = p.name then none else some p.name))

/-- What a field is set to. -/
def fieldValue (g : Graph) (p : Property) : Python.FieldValue :=
  let args := fieldArguments g p
  let default := fieldDefault? g p
  if args.isEmpty then
    match default with
    | some value => .default value
    | none => .required
  else
    .call ((default.map (⟨"default", ·⟩)).toList ++ args)

/-- The field of a property. -/
def field (g : Graph) (names : NameTable) (p : Property) : Python.Field :=
  let hint := hintOf g names p.type
  { name := Python.identifier p.name
    hint := if p.optional then .optional hint else hint
    value := fieldValue g p }

/-- The class of a model. -/
def classDef (g : Graph) (names : NameTable) (name : String) (m : Model) : ClassDef :=
  { name, base := baseName g names m, doc := m.doc, fields := m.properties.map (field g names) }

end ApiEmit.Pydantic
