/-
ApiEmit.Schema.Basic — the parts of declarations that mean the same before and
after names are resolved: intrinsics, constraints, enum members, servers and
diagnostics.
-/
import ApiEmit.Json.Number

namespace ApiEmit

/-- The types that every program has without declaring them. -/
inductive Intrinsic where
  | null
  | void
  | never
  | unknown
  | error
  deriving DecidableEq, Repr

namespace Intrinsic

/-- The name of an intrinsic. -/
def name : Intrinsic → String
  | .null => "null"
  | .void => "void"
  | .never => "never"
  | .unknown => "unknown"
  | .error => "ErrorType"

/-- The intrinsic of a name. -/
def ofName? (name : String) : Option Intrinsic :=
  if name = "null" then some .null
  else if name = "void" then some .void
  else if name = "never" then some .never
  else if name = "unknown" then some .unknown
  else if name = "ErrorType" then some .error
  else none

end Intrinsic

/-- Bounds on the values of a property, a scalar or a model. -/
structure Constraints where
  minLength : Option Nat := none
  maxLength : Option Nat := none
  minItems : Option Nat := none
  maxItems : Option Nat := none
  pattern : Option String := none
  minValue : Option Json.Number := none
  maxValue : Option Json.Number := none
  minValueExclusive : Option Json.Number := none
  maxValueExclusive : Option Json.Number := none
  deriving DecidableEq, Repr, Inhabited

/-- The value of an enum member. -/
inductive EnumValue where
  | string (s : String)
  | number (n : Json.Number)
  deriving DecidableEq, Repr

/-- A member of an enum, with a value of its own or without. -/
structure EnumMember where
  name : String
  value : Option EnumValue
  deriving DecidableEq, Repr

/-- The value that a member stands for: its own, or else its name. -/
def EnumMember.effectiveValue (m : EnumMember) : EnumValue :=
  m.value.getD (.string m.name)

/-- An enum with its members in order. -/
structure EnumDecl where
  doc : Option String
  members : List EnumMember
  deriving DecidableEq, Repr

/-- Where a service is reached. -/
structure Server where
  url : String
  description : Option String
  deriving DecidableEq, Repr

/-- How bad a diagnostic is. -/
inductive Severity where
  | error
  | warning
  deriving DecidableEq, Repr

/-- The word for a severity. -/
def Severity.text : Severity → String
  | .error => "error"
  | .warning => "warning"

/-- A message about the program from whoever checked it. -/
structure Diagnostic where
  severity : Severity
  code : Option String
  message : String
  deriving DecidableEq, Repr

/-- A diagnostic on one line: severity, code if there is one, message. -/
def Diagnostic.text (d : Diagnostic) : String :=
  match d.code with
  | some code => d.severity.text ++ "[" ++ code ++ "]: " ++ d.message
  | none => d.severity.text ++ ": " ++ d.message

end ApiEmit
