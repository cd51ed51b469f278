/-
ApiEmit.Schema.TypeExpr — type expressions.

The same expressions are written in a document and kept in a graph. They differ in
their leaves: a document refers to a declaration by a text, a graph by the
identity of the declaration. Inline types are part of the expression, so only a
reference can lead back to where it came from.
-/
import ApiEmit.Json.Number

namespace ApiEmit

/-- A property of an inline model. -/
structure InlineProperty (τ : Type) where
  name : String
  type : τ
  optional : Bool
  doc : Option String
  deriving Repr, DecidableEq

/-- A type expression whose references are a `ρ` and whose intrinsics are an `ι`. -/
inductive TypeExpr (ρ ι : Type) where
  | ref (target : ρ)
  | intrinsic (i : ι)
  | string (s : String)
  | number (n : Json.Number)
  | boolean (b : Bool)
  | array (element : TypeExpr ρ ι)
  | record (value : TypeExpr ρ ι)
  | union (variants : List (TypeExpr ρ ι))
  | model (properties : List (InlineProperty (TypeExpr ρ ι)))
  deriving Repr

namespace TypeExpr

variable {ρ ι : Type}

mutual

/-- The number of nodes of an expression. -/
def size : TypeExpr ρ ι → Nat
  | .array element => element.size + 1
  | .record value => value.size + 1
  | .union variants => sizeAll variants + 1
  | .model properties => sizeProperties properties + 1
  | _ => 1

/-- The number of nodes of a list of expressions. -/
def sizeAll : List (TypeExpr ρ ι) → Nat
  | [] => 0
  | e :: es => e.size + sizeAll es

/-- The number of nodes of the types of some properties. -/
def sizeProperties : List (InlineProperty (TypeExpr ρ ι)) → Nat
  | [] => 0
  | ⟨_, type, _, _⟩ :: ps => type.size + sizeProperties ps

end

theorem size_pos (e : TypeExpr ρ ι) : 0 < e.size := by
  cases e <;> simp [size]

end TypeExpr

end ApiEmit
