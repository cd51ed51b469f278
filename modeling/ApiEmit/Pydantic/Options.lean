/-
ApiEmit.Pydantic.Options — where Pydantic modules go and what they hold.

The three modules have three names, each of which Python can import.
-/
import ApiEmit.Config.OptionError
import ApiEmit.Python.Identifier

namespace ApiEmit.Pydantic

/-- The names of the modules, and whether types that no operation reaches are left out. -/
structure Options where
  inputModule : String := "input_types"
  outputModule : String := "output_types"
  roundtripModule : String := "roundtrip_types"
  constrainToUsed : Bool := false
  deriving DecidableEq, Repr, Inhabited

namespace Options

/-- The options that name modules, in their order. -/
def moduleNames (o : Options) : List (String × String) :=
  [("input-module-name", o.inputModule), ("output-module-name", o.outputModule),
    ("roundtrip-module-name", o.roundtripModule)]

/-- The first option whose name is not an identifier. -/
def firstInvalid? (names : List (String × String)) : Option OptionError :=
  names.findSome? fun (option, name) =>
    if Python.isIdentifier name then none else some (.notAModule option name)

/-- The first option whose name an earlier one has, among options that come after some others. -/
def firstTaken? (earlier : List (String × String)) : List (String × String) → Option OptionError
  | [] => none
  | (option, name) :: rest =>
    match earlier.find? (·.2 == name) with
    | some (other, _) => some (.nameInUse option name other)
    | none => firstTaken? (earlier ++ [(option, name)]) rest

/-- Refuses names that are no identifiers, and then names that are used twice. -/
def validate (o : Options) : Except OptionError Unit :=
  match (firstInvalid? o.moduleNames).or (firstTaken? [] o.moduleNames) with
  | some error => .error error
  | none => .ok ()

end Options

end ApiEmit.Pydantic
