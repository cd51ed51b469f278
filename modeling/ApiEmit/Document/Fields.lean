/-
ApiEmit.Document.Fields — the fields of a record in a JSON value.

A record is written as an object, or as an array of its fields in their order. In
an object a field may be missing, fields that the record does not have are passed
over, and none that it has may be repeated. In an array only fields with a
fallback may be left off at the end.
-/
import ApiEmit.Json.Value

namespace ApiEmit.Document

open Json

/-- The values of a record by field, and whether they were written without their names. -/
structure Fields where
  positional : Bool
  values : List (String × Value)

namespace Fields

/-- The fields of a record that is written as an object. -/
def ofObject? (names : List String) : Value → Option Fields
  | .object members =>
    let known := members.filter fun member => names.contains member.1
    if (known.map (·.1)).Nodup then some ⟨false, known⟩ else none
  | _ => none

/-- The fields of a record that is written as an object or as an array. -/
def ofValue? (names : List String) : Value → Option Fields
  | .array items => if items.length ≤ names.length then some ⟨true, names.zip items⟩ else none
  | value => ofObject? names value

/-- The value of a field that must be there. -/
def required {α : Type} (fields : Fields) (name : String) (read : Value → Option α) : Option α :=
  (fields.values.lookup name).bind read

/-- The value of a field that may be absent or null, though not left off an array. -/
def optional {α : Type} (fields : Fields) (name : String) (read : Value → Option α) :
    Option (Option α) :=
  match fields.values.lookup name with
  | some .null => some none
  | some value => (read value).map some
  | none => if fields.positional then none else some none

/-- The value of a field that has a fallback. -/
def withDefault {α : Type} (fields : Fields) (name : String) (fallback : α)
    (read : Value → Option α) : Option α :=
  match fields.values.lookup name with
  | some value => read value
  | none => some fallback

end Fields

/-- The text of a string. -/
def readString : Value → Option String
  | .string s => some s
  | _ => none

/-- A truth value. -/
def readBool : Value → Option Bool
  | .bool b => some b
  | _ => none

/-- Any number. -/
def readNumber : Value → Option Number
  | .number n => some n
  | _ => none

/-- An integer from zero up, written without fraction and exponent. -/
def readNat : Value → Option Nat
  | .number (.integer n) => if 0 ≤ n then some n.toNat else none
  | _ => none

/-- The items of an array, all of one kind. -/
def readList {α : Type} (read : Value → Option α) : Value → Option (List α)
  | .array items => items.mapM read
  | _ => none

/-- A word of a fixed list: the word itself, or an object with the word as its only member. What
that member may hold is for `isUnit` to say. -/
def readWord {α : Type} (isUnit : Value → Bool) (words : List (String × α)) : Value → Option α
  | .string s => words.lookup s
  | .object [(s, value)] => if isUnit value then words.lookup s else none
  | _ => none

/-- Null stands for nothing. -/
def isNull : Value → Bool
  | .null => true
  | _ => false

/-- Null and the empty object stand for nothing. -/
def isNullOrEmpty : Value → Bool
  | .null => true
  | .object [] => true
  | _ => false

end ApiEmit.Document
