/-
ApiEmit.Document.Reader — the document that a JSON text spells.

The root, models, properties and scalars carry the fields of another record among
their own and are therefore written as objects only. Type expressions and
namespaces nest; the depth of the value bounds how far.
-/
import ApiEmit.Document.Basic
import ApiEmit.Document.Fields
import ApiEmit.Json.Reader

namespace ApiEmit.Document

open Json

/-- The methods by name. -/
def verbs : List (String × Verb) :=
  [("get", .get), ("post", .post), ("put", .put), ("patch", .patch), ("delete", .delete),
    ("head", .head)]

/-- The places of parameters by name. -/
def parameterLocations : List (String × ParameterLocation) :=
  [("path", .path), ("query", .query), ("header", .header), ("cookie", .cookie)]

/-- The severities by name. -/
def severities : List (String × Severity) :=
  [("error", .error), ("warning", .warning)]

/-! ## Type expressions -/

/-- A type expression, `depth` levels at most. A text is a reference; every other expression is an
object whose only member says its kind. -/
def readExpr : Nat → Value → Option Expr
  | 0, _ => none
  | _ + 1, .string s => some (.ref s)
  | depth + 1, .object [(kind, content)] =>
    match kind with
    | "ref" => (readString content).map .ref
    | "intrinsic" => (readString content).map .intrinsic
    | "string" => (readString content).map .string
    | "number" => (readNumber content).map .number
    | "boolean" => (readBool content).map .boolean
    | "array" => (readExpr depth content).map .array
    | "record" => (readExpr depth content).map .record
    | "union" => (readList (readExpr depth) content).map .union
    | "model" => do
      let fields ← Fields.ofValue? ["properties"] content
      let properties ← fields.withDefault "properties" [] <| readList fun value => do
        let fields ← Fields.ofValue? ["name", "type", "optional", "doc"] value
        return {
          name := ← fields.required "name" readString
          type := ← fields.required "type" (readExpr depth)
          optional := ← fields.withDefault "optional" false readBool
          doc := ← fields.optional "doc" readString : InlineProperty Expr }
      return .model properties
    | _ => none
  | _ + 1, _ => none

/-- A type expression. -/
def readType (value : Value) : Option Expr :=
  readExpr (value.depth + 1) value

/-! ## Declarations -/

/-- The fields of constraints. -/
def constraintNames : List String :=
  ["minLength", "maxLength", "minItems", "maxItems", "pattern", "minValue", "maxValue",
    "minValueExclusive", "maxValueExclusive"]

/-- The constraints among the fields of a declaration. -/
def readConstraints (fields : Fields) : Option Constraints := do
  return {
    minLength := ← fields.optional "minLength" readNat
    maxLength := ← fields.optional "maxLength" readNat
    minItems := ← fields.optional "minItems" readNat
    maxItems := ← fields.optional "maxItems" readNat
    pattern := ← fields.optional "pattern" readString
    minValue := ← fields.optional "minValue" readNumber
    maxValue := ← fields.optional "maxValue" readNumber
    minValueExclusive := ← fields.optional "minValueExclusive" readNumber
    maxValueExclusive := ← fields.optional "maxValueExclusive" readNumber }

/-- A property of a declared model. -/
def readProperty (value : Value) : Option Property := do
  let fields ← Fields.ofObject? (["name", "type", "optional", "default", "doc"] ++ constraintNames)
    value
  return {
    name := ← fields.required "name" readString
    type := ← fields.required "type" readType
    optional := ← fields.withDefault "optional" false readBool
    default := ← fields.optional "default" some
    doc := ← fields.optional "doc" readString
    constraints := ← readConstraints fields }

/-- A declared model. -/
def readModel (value : Value) : Option Model := do
  let fields ← Fields.ofObject?
    (["name", "doc", "extends", "indexer", "properties"] ++ constraintNames) value
  return {
    name := ← fields.withDefault "name" "" readString
    doc := ← fields.optional "doc" readString
    base := ← fields.optional "extends" readString
    indexer := ← fields.optional "indexer" readType
    properties := ← fields.withDefault "properties" [] (readList readProperty)
    constraints := ← readConstraints fields }

/-- A declared scalar. -/
def readScalar (value : Value) : Option Scalar := do
  let fields ← Fields.ofObject? (["name", "doc", "extends"] ++ constraintNames) value
  return {
    name := ← fields.required "name" readString
    doc := ← fields.optional "doc" readString
    base := ← fields.optional "extends" readString
    constraints := ← readConstraints fields }

/-- The value of an enum member, a text or a number. -/
def readEnumValue : Value → Option EnumValue
  | .string s => some (.string s)
  | .number n => some (.number n)
  | _ => none

/-- A declared enum. -/
def readEnum (value : Value) : Option Enum := do
  let fields ← Fields.ofValue? ["name", "doc", "members"] value
  return {
    name := ← fields.required "name" readString
    doc := ← fields.optional "doc" readString
    members := ← fields.withDefault "members" [] <| readList fun value => do
      let fields ← Fields.ofValue? ["name", "value"] value
      return {
        name := ← fields.required "name" readString
        value := ← fields.optional "value" readEnumValue : EnumMember } }

/-- A variant with a name. -/
def readNamedVariant (value : Value) : Option Variant := do
  let fields ← Fields.ofObject? ["name", "type"] value
  return {
    name := some (← fields.required "name" readString)
    type := ← fields.required "type" readType }

/-- A variant of a declared union; what is not one with a name is a type expression. -/
def readVariant (value : Value) : Option Variant :=
  (readNamedVariant value).or ((readType value).map fun type => ⟨none, type⟩)

/-- A declared union. -/
def readUnion (value : Value) : Option Union := do
  let fields ← Fields.ofValue? ["name", "doc", "variants"] value
  return {
    name := ← fields.required "name" readString
    doc := ← fields.optional "doc" readString
    variants := ← fields.withDefault "variants" [] (readList readVariant) }

/-! ## Operations -/

/-- A status code as one number. -/
def readCode (value : Value) : Option Nat :=
  (readNat value).filter (· < 65536)

/-- The status of a response: a code, the two ends of a range, or any text. -/
def readStatus : Value → Option StatusCode
  | .string _ => some .wildcard
  | .number n => (readCode (.number n)).map .code
  | value => do
    let fields ← Fields.ofObject? ["start", "end"] value
    return .range (← fields.required "start" readCode) (← fields.required "end" readCode)

/-- A payload. -/
def readBody (value : Value) : Option Body := do
  let fields ← Fields.ofValue? ["type", "contentTypes"] value
  return {
    type := ← fields.required "type" readType
    contentTypes := ← fields.withDefault "contentTypes" [] (readList readString) }

/-- A parameter. -/
def readParameter (value : Value) : Option Parameter := do
  let fields ← Fields.ofValue? ["name", "in", "type", "optional", "doc"] value
  return {
    name := ← fields.required "name" readString
    location := ← fields.required "in" (readWord isNullOrEmpty parameterLocations)
    type := ← fields.required "type" readType
    optional := ← fields.withDefault "optional" false readBool
    doc := ← fields.optional "doc" readString }

/-- A response. -/
def readResponse (value : Value) : Option Response := do
  let fields ← Fields.ofValue? ["statusCode", "description", "bodies"] value
  return {
    status := ← fields.required "statusCode" readStatus
    description := ← fields.optional "description" readString
    bodies := ← fields.withDefault "bodies" [] (readList readBody) }

/-- An operation; its path is the root unless it says another. -/
def readOperation (value : Value) : Option Operation := do
  let fields ← Fields.ofValue?
    ["name", "verb", "path", "doc", "summary", "parameters", "body", "responses"] value
  return {
    name := ← fields.required "name" readString
    verb := ← fields.required "verb" (readWord isNullOrEmpty verbs)
    path := ← fields.withDefault "path" "/" readString
    doc := ← fields.optional "doc" readString
    summary := ← fields.optional "summary" readString
    parameters := ← fields.withDefault "parameters" [] (readList readParameter)
    body := ← fields.optional "body" readBody
    responses := ← fields.withDefault "responses" [] (readList readResponse) }

/-- An interface. -/
def readInterface (value : Value) : Option Interface := do
  let fields ← Fields.ofValue? ["name", "operations"] value
  return {
    name := ← fields.required "name" readString
    operations := ← fields.withDefault "operations" [] (readList readOperation) }

/-! ## Namespaces and programs -/

/-- What marks a service. -/
def readService (value : Value) : Option Service := do
  let fields ← Fields.ofValue? ["title"] value
  return { title := ← fields.optional "title" readString }

/-- A server. -/
def readServer (value : Value) : Option Server := do
  let fields ← Fields.ofValue? ["url", "description"] value
  return {
    url := ← fields.required "url" readString
    description := ← fields.optional "description" readString }

/-- The fields of a namespace in their order. -/
def namespaceNames : List String :=
  ["name", "doc", "service", "servers", "namespaces", "models", "enums", "unions", "scalars",
    "operations", "interfaces"]

/-- The namespace that some fields describe; `readChild` reads the namespaces in it. -/
def readNamespaceFields (readChild : Value → Option Namespace) (fields : Fields) :
    Option Namespace := do
  return {
    name := ← fields.withDefault "name" "" readString
    doc := ← fields.optional "doc" readString
    service := ← fields.optional "service" readService
    servers := ← fields.withDefault "servers" [] (readList readServer)
    namespaces := ← fields.withDefault "namespaces" [] (readList readChild)
    models := ← fields.withDefault "models" [] (readList readModel)
    enums := ← fields.withDefault "enums" [] (readList readEnum)
    unions := ← fields.withDefault "unions" [] (readList readUnion)
    scalars := ← fields.withDefault "scalars" [] (readList readScalar)
    operations := ← fields.withDefault "operations" [] (readList readOperation)
    interfaces := ← fields.withDefault "interfaces" [] (readList readInterface) }

/-- A namespace below the root, `depth` levels at most. -/
def readNamespace : Nat → Value → Option Namespace
  | 0, _ => none
  | depth + 1, value =>
    (Fields.ofValue? namespaceNames value).bind (readNamespaceFields (readNamespace depth))

/-- The fields of a diagnostic in their order. -/
def diagnosticNames : List String := ["severity", "code", "message"]

/-- A diagnostic. -/
def readDiagnostic (value : Value) : Option Diagnostic := do
  let fields ← Fields.ofValue? diagnosticNames value
  return {
    severity := ← fields.required "severity" (readWord isNull severities)
    code := ← fields.optional "code" readString
    message := ← fields.required "message" readString }

end ApiEmit.Document

namespace ApiEmit.Document

open Json

/-- The document of a JSON value. -/
def ofValue? (value : Value) : Option ApiEmit.Document := do
  let fields ← Fields.ofObject? (namespaceNames ++ ["diagnostics"]) value
  return {
    root := ← readNamespaceFields (readNamespace value.depth) fields
    diagnostics := ← fields.withDefault "diagnostics" [] (readList readDiagnostic) }

/-- Whether a place is a member of a diagnostic that is not one of its fields. -/
def isPassedOver : List (Option String) → Bool
  | [some name, none, some "diagnostics"] => !diagnosticNames.contains name
  | _ => false

/-- The document of a JSON text, or `none` when the text is not JSON or not of the right shape. What
a diagnostic holds besides its fields is passed over; members beyond the fields of any other record
are read like all else and then left. -/
def ofText? (text : String) : Option ApiEmit.Document :=
  (Reader.read? isPassedOver text).bind ofValue?

end ApiEmit.Document
