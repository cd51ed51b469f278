/-
ApiEmit.Json.Value — JSON values and their texts.

An object keeps its members in the order written, repeated names included: which
repetitions are faults is for the reader of the value to say.
-/
import ApiEmit.Json.Number

namespace ApiEmit.Json

/-- A JSON value. -/
inductive Value where
  | null
  | bool (b : Bool)
  | number (n : Number)
  | string (s : String)
  | array (items : List Value)
  | object (members : List (String × Value))
  deriving Repr, Inhabited

/-- The lower-case hexadecimal digit of a number below sixteen. -/
def hexDigit (n : Nat) : Char :=
  if n < 10 then Char.ofNat ('0'.toNat + n) else Char.ofNat ('a'.toNat + (n - 10))

/-- Four hexadecimal digits. -/
def hex4 (n : Nat) : List Char :=
  [hexDigit (n / 4096 % 16), hexDigit (n / 256 % 16), hexDigit (n / 16 % 16), hexDigit (n % 16)]

/-- A character as it stands in a JSON string: quotes, backslashes and the characters below the
space are escaped, and nothing else. -/
def escapeChar (c : Char) : List Char :=
  if c = '"' then ['\\', '"']
  else if c = '\\' then ['\\', '\\']
  else if c = '\n' then ['\\', 'n']
  else if c = '\r' then ['\\', 'r']
  else if c = '\t' then ['\\', 't']
  else if c = '\x08' then ['\\', 'b']
  else if c = '\x0c' then ['\\', 'f']
  else if c.toNat < 0x20 then '\\' :: 'u' :: hex4 c.toNat
  else [c]

/-- The JSON string for a text. -/
def quoted (s : String) : String :=
  String.ofList ('"' :: (s.toList.flatMap escapeChar ++ ['"']))

namespace Value

mutual

/-- The text of a value without any white space. -/
def compact : Value → String
  | .null => "null"
  | .bool b => if b then "true" else "false"
  | .number n => n.text
  | .string s => quoted s
  | .array items => "[" ++ String.intercalate "," (compactItems items) ++ "]"
  | .object members => "\x7b" ++ String.intercalate "," (compactMembers members) ++ "\x7d"

/-- The texts of the items of an array. -/
def compactItems : List Value → List String
  | [] => []
  | item :: items => item.compact :: compactItems items

/-- The texts of the members of an object. -/
def compactMembers : List (String × Value) → List String
  | [] => []
  | (name, value) :: members => (quoted name ++ ":" ++ value.compact) :: compactMembers members

end

/-- Bracketed entries on lines of their own, two spaces deeper than the brackets. -/
def bracketed (left right indent : String) : List String → String
  | [] => left ++ right
  | entries =>
    let inner := "\n" ++ indent ++ "  "
    left ++ inner ++ String.intercalate ("," ++ inner) entries ++ "\n" ++ indent ++ right

mutual

/-- The text of a value over several lines, which are indented by `indent` after the first. -/
def prettyFrom (indent : String) : Value → String
  | .null => "null"
  | .bool b => if b then "true" else "false"
  | .number n => n.text
  | .string s => quoted s
  | .array items => bracketed "[" "]" indent (prettyItems (indent ++ "  ") items)
  | .object members => bracketed "\x7b" "\x7d" indent (prettyMembers (indent ++ "  ") members)

/-- The indented texts of the items of an array. -/
def prettyItems (indent : String) : List Value → List String
  | [] => []
  | item :: items => item.prettyFrom indent :: prettyItems indent items

/-- The indented texts of the members of an object. -/
def prettyMembers (indent : String) : List (String × Value) → List String
  | [] => []
  | (name, value) :: members =>
    (quoted name ++ ": " ++ value.prettyFrom indent) :: prettyMembers indent members

end

/-- The text of a value over several lines, two spaces for each level. -/
def pretty (v : Value) : String := v.prettyFrom ""

mutual

/-- How deep arrays and objects are nested in one another. -/
def depth : Value → Nat
  | .array items => depthItems items + 1
  | .object members => depthMembers members + 1
  | _ => 0

/-- The greatest depth among the items of an array. -/
def depthItems : List Value → Nat
  | [] => 0
  | item :: items => max item.depth (depthItems items)

/-- The greatest depth among the members of an object. -/
def depthMembers : List (String × Value) → Nat
  | [] => 0
  | (_, value) :: members => max value.depth (depthMembers members)

end

end Value

end ApiEmit.Json
