/-
ApiEmit.Pydantic.Arguments — the keyword arguments of a field.

Constraints stand on the property itself, on the scalar it has and its bases, or on
the model it has. Of two values for one keyword the first is kept.
-/
import ApiEmit.Graph.Query
import ApiEmit.Keyed
import ApiEmit.Python.Syntax

namespace ApiEmit.Pydantic

open Python (Argument Literal)

/-- Keyword arguments in order, no keyword twice. -/
abbrev Arguments := List Argument

namespace Arguments

/-- Adds an argument at the end unless its keyword is there. -/
def insert (args : Arguments) (a : Argument) : Arguments :=
  Keyed.add (·.keyword) args a

/-- The first argument for each keyword of a list. -/
def ofList (candidates : List Argument) : Arguments :=
  Keyed.firsts (·.keyword) candidates

end Arguments

/-- An argument with a number that may be absent. -/
def numberArgument (keyword : String) (value : Option Json.Number) : List Argument :=
  (value.map fun n => ⟨keyword, .number n⟩).toList

/-- An argument with a count that may be absent. -/
def countArgument (keyword : String) (value : Option Nat) : List Argument :=
  numberArgument keyword (value.map fun n => .integer n)

/-- An argument with a text that may be absent. -/
def textArgument (keyword : String) (value : Option String) : List Argument :=
  (value.map fun s => ⟨keyword, .str s⟩).toList

/-- The arguments for some constraints. Numbers of items go under the keywords of lengths. -/
def constraintArguments (c : Constraints) : List Argument :=
  countArgument "min_length" c.minLength ++ countArgument "max_length" c.maxLength ++
    textArgument "pattern" c.pattern ++ numberArgument "ge" c.minValue ++
    numberArgument "le" c.maxValue ++ numberArgument "gt" c.minValueExclusive ++
    numberArgument "lt" c.maxValueExclusive ++ countArgument "min_length" c.minItems ++
    countArgument "max_length" c.maxItems

/-- The constraints that come with a type: those of a scalar and its bases, or of a model. -/
def typeConstraints (g : Graph) : Ty → List Constraints
  | .ref id =>
    match g.declaration? id with
    | some (.scalar _) => (g.scalarChain id).filterMap fun id => (g.scalar? id).map (·.constraints)
    | some (.model m) => [m.constraints]
    | _ => []
  | _ => []

/-- The arguments for the constraints of a property and for its description. -/
def propertyCandidates (g : Graph) (p : Property) : List Argument :=
  (p.constraints :: typeConstraints g p.type).flatMap constraintArguments ++
    textArgument "description" p.doc

/-- The arguments that a property has apart from a default and an alias. -/
def propertyArguments (g : Graph) (p : Property) : Arguments :=
  Arguments.ofList (propertyCandidates g p)

end ApiEmit.Pydantic
