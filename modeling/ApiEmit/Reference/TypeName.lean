/-
ApiEmit.Reference.TypeName — how a type is shown to a reader.

A type is shown by its shape as JSON, choices with a bar between them. Large choices
with a name are shown by it, and so is everything below a certain depth.
-/
import ApiEmit.Graph.Query

namespace ApiEmit.Reference

/-- How many levels of a type are shown. -/
def maxNameDepth : Nat := 8

/-- How many alternatives are shown one by one. -/
def maxInlineVariants : Nat := 10

/-- The alternatives of a choice as one text. -/
def alternatives (texts : List String) : String := String.intercalate " | " texts

/-- A text in quotes. -/
def inQuotes (s : String) : String := "\"" ++ s ++ "\""

/-- The value of an enum member as it is shown. -/
def enumValueText : EnumValue → String
  | .string s => inQuotes s
  | .number n => n.text

/-- The own name of a type. -/
def ownName? : Ty → Option String
  | .ref id => if id.name = "" then none else some id.name
  | .array _ => some "Array"
  | .record _ => some "Record"
  | .intrinsic i => some i.name
  | _ => none

/-- A type with a number of levels shown. -/
def typeNameTo (g : Graph) : Nat → Ty → String
  | 0, type => (ownName? type).getD "unknown"
  | levels + 1, type =>
    match type with
    | .array element => typeNameTo g levels element ++ "[]"
    | .record _ => "object"
    | .model _ => "object"
    | .union variants => alternatives (variants.map (typeNameTo g levels))
    | .intrinsic i => i.name
    | .string s => inQuotes s
    | .number n => n.text
    | .boolean b => if b then "true" else "false"
    | .ref id =>
      match g.declaration? id with
      | some (.scalar _) => id.name
      | some (.model _) => "object"
      | some (.enum e) =>
        if maxInlineVariants < e.members.length then id.name
        else alternatives (e.members.map (enumValueText ·.effectiveValue))
      | some (.union u) =>
        if maxInlineVariants < u.variants.length then id.name
        else alternatives (u.variants.map fun v => typeNameTo g levels v.type)
      | none => "unknown"

/-- A type as it is shown. -/
def typeName (g : Graph) (type : Ty) : String :=
  typeNameTo g maxNameDepth type

/-- What is said about a type whose name hides its shape, within a number of levels: a map by the
type of its values, a choice by the first alternative of which something is said. -/
def descriptionTo? (g : Graph) : Nat → Ty → Option String
  | 0, _ => none
  | levels + 1, type =>
    match g.stringIndexer? type with
    | some value => some ("A map of string keys to " ++ typeName g value ++ " values.")
    | none =>
      match type with
      | .union variants => variants.findSome? (descriptionTo? g levels)
      | .ref id =>
        (g.union? id).bind fun u => u.variants.findSome? fun v => descriptionTo? g levels v.type
      | _ => none

/-- What is said about a type, followed by its documentation. -/
def describe (g : Graph) (doc : Option String) (type : Ty) : String :=
  let doc := doc.getD ""
  match descriptionTo? g maxNameDepth type with
  | some description => if doc = "" then description else description ++ " " ++ doc
  | none => doc

end ApiEmit.Reference
