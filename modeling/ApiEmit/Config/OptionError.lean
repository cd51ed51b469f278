/-
ApiEmit.Config.OptionError — why the value of an option is refused.
-/

namespace ApiEmit

/-- Why the value of an option is refused. -/
inductive OptionError where
  | notAModule (option name : String)
  | nameInUse (option name other : String)
  | empty (option : String)
  deriving DecidableEq, Repr

namespace OptionError

/-- The option whose value is refused. -/
def option : OptionError → String
  | .notAModule option _ => option
  | .nameInUse option _ _ => option
  | .empty option => option

/-- The reason by itself. -/
def reason : OptionError → String
  | .notAModule _ name => "'" ++ name ++ "' is not a valid Python module name"
  | .nameInUse _ name other => "'" ++ name ++ "' is already used by " ++ other
  | .empty _ => "must not be empty"

/-- The message for an error. -/
def message (e : OptionError) : String :=
  "Invalid value for option '" ++ e.option ++ "': " ++ e.reason

end OptionError

end ApiEmit
