/-
ApiEmit.Json.Token — the tokens of a JSON text.

White space is the space, the tab, the line feed and the carriage return, and
stands between tokens only. An escape by number outside the basic plane takes two
surrogates. A string with a surrogate that has no partner is well-formed but has no
text, and a number beyond the binary format is well-formed but has no value.
-/
import ApiEmit.Json.Number

namespace ApiEmit.Json

/-- A token of a JSON text. A number may have no value, and a string no text. -/
inductive Token where
  | openArray
  | closeArray
  | openObject
  | closeObject
  | comma
  | colon
  | null
  | bool (b : Bool)
  | number (n : Option Number)
  | string (s : Option String)
  deriving Repr

namespace Token

/-- The white space of JSON. -/
def isSpace (c : Char) : Bool := c == ' ' || c == '\n' || c == '\t' || c == '\r'

/-- The value of a hexadecimal digit of either case. -/
def hexValue? (c : Char) : Option Nat :=
  if c.isDigit then some (c.toNat - '0'.toNat)
  else if 'a' ≤ c ∧ c ≤ 'f' then some (c.toNat - 'a'.toNat + 10)
  else if 'A' ≤ c ∧ c ≤ 'F' then some (c.toNat - 'A'.toNat + 10)
  else none

/-- The number that four hexadecimal digits spell. -/
def hex4? (a b c d : Char) : Option Nat := do
  let a ← hexValue? a
  let b ← hexValue? b
  let c ← hexValue? c
  let d ← hexValue? d
  return ((a * 16 + b) * 16 + c) * 16 + d

/-- The first code unit of a pair. -/
def isHighSurrogate (n : Nat) : Bool := 0xD800 ≤ n && n < 0xDC00

/-- The second code unit of a pair. -/
def isLowSurrogate (n : Nat) : Bool := 0xDC00 ≤ n && n < 0xE000

/-- The character that two surrogates stand for. -/
def ofSurrogates (high low : Nat) : Char :=
  Char.ofNat (0x10000 + (high - 0xD800) * 0x400 + (low - 0xDC00))

/-- The character behind a backslash, for the escapes of one letter. -/
def shortEscape? (c : Char) : Option Char :=
  if c = '"' ∨ c = '\\' ∨ c = '/' then some c
  else if c = 'b' then some '\x08'
  else if c = 'f' then some '\x0c'
  else if c = 'n' then some '\n'
  else if c = 'r' then some '\r'
  else if c = 't' then some '\t'
  else none

/-- The units of a string up to its closing quote, and what follows the quote. A unit is a character
by its number, or a surrogate. -/
def stringUnits? : List Char → Option (List Nat × List Char)
  | [] => none
  | '"' :: rest => some ([], rest)
  | '\\' :: 'u' :: a :: b :: c :: d :: rest =>
    match hex4? a b c d with
    | none => none
    | some unit => (stringUnits? rest).map fun (units, rest) => (unit :: units, rest)
  | '\\' :: c :: rest =>
    match shortEscape? c with
    | none => none
    | some c => (stringUnits? rest).map fun (units, rest) => (c.toNat :: units, rest)
  | c :: rest =>
    if c.toNat < 0x20 then none
    else (stringUnits? rest).map fun (units, rest) => (c.toNat :: units, rest)

/-- The text that units spell. There is none if a surrogate has no partner. -/
def ofUnits? : List Nat → Option (List Char)
  | [] => some []
  | [unit] =>
    if isHighSurrogate unit || isLowSurrogate unit then none else some [Char.ofNat unit]
  | unit :: next :: rest =>
    if isHighSurrogate unit && isLowSurrogate next then
      (ofUnits? rest).map (ofSurrogates unit next :: ·)
    else if isHighSurrogate unit || isLowSurrogate unit then
      none
    else
      (ofUnits? (next :: rest)).map (Char.ofNat unit :: ·)

/-- The token of one punctuation character. -/
def punctuation? (c : Char) : Option Token :=
  match c with
  | '[' => some .openArray
  | ']' => some .closeArray
  | '{' => some .openObject
  | '}' => some .closeObject
  | ',' => some .comma
  | ':' => some .colon
  | _ => none

/-- The characters that a number or a word can hold. -/
def isWordChar (c : Char) : Bool :=
  c.isAlphanum || c == '-' || c == '+' || c == '.'

/-- The token of a number or a word. -/
def ofWord? (cs : List Char) : Option Token :=
  if cs = ['n', 'u', 'l', 'l'] then some .null
  else if cs = ['t', 'r', 'u', 'e'] then some (.bool true)
  else if cs = ['f', 'a', 'l', 's', 'e'] then some (.bool false)
  else (Number.literal? cs).map fun l => .number (Number.ofLiteral? l)

/-- The tokens of a text, at most `fuel` tokens and spaces. -/
def scanFrom : Nat → List Char → Option (List Token)
  | _, [] => some []
  | 0, _ :: _ => none
  | fuel + 1, c :: rest =>
    if isSpace c then
      scanFrom fuel rest
    else if c = '"' then
      match stringUnits? rest with
      | none => none
      | some (units, rest) =>
        (scanFrom fuel rest).map (.string ((ofUnits? units).map String.ofList) :: ·)
    else
      match punctuation? c with
      | some token => (scanFrom fuel rest).map (token :: ·)
      | none =>
        match ofWord? ((c :: rest).takeWhile isWordChar) with
        | none => none
        | some token => (scanFrom fuel ((c :: rest).dropWhile isWordChar)).map (token :: ·)

/-- The tokens of a text. Each takes a character at least, so the length bounds their number. -/
def scan? (text : String) : Option (List Token) :=
  let cs := text.toList
  scanFrom cs.length cs

end Token

end ApiEmit.Json
