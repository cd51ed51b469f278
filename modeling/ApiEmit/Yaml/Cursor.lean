/-
ApiEmit.Yaml.Cursor — a place in a YAML text.

Lines end at a line feed, a carriage return, both together, a next-line character,
or one of the two Unicode separators; only the latter two are kept apart from a
line feed in values.
-/

namespace ApiEmit.Yaml

/-- What is still to be read, and where it stands. -/
structure Cursor where
  rest : List Char
  index : Nat
  line : Nat
  column : Nat
  deriving Repr

/-- A space or a tab. -/
def isBlank (c : Char) : Bool := c == ' ' || c == '\t'

/-- A character that ends a line. -/
def isBreak (c : Char) : Bool :=
  c == '\r' || c == '\n' || c.toNat == 0x85 || c.toNat == 0x2028 || c.toNat == 0x2029

/-- A character of the names of anchors, handles and directives. -/
def isNameChar (c : Char) : Bool := c.isAlphanum || c == '_' || c == '-'

/-- What a character that ends a line stands for in a value. -/
def breakValue (c : Char) : Char :=
  if c.toNat == 0x2028 || c.toNat == 0x2029 then c else '\n'

/-- The characters that a text may hold. -/
def isPrintable (c : Char) : Bool :=
  let n := c.toNat
  n == 0x09 || n == 0x0A || n == 0x0D || (0x20 ≤ n && n ≤ 0x7E) || n == 0x85 ||
    (0xA0 ≤ n && n ≤ 0xD7FF) || (0xE000 ≤ n && n ≤ 0xFFFD) || 0x10000 ≤ n

/-- The mark that may stand in front of a text, and of every line between tokens. -/
def isByteOrderMark (c : Char) : Bool := c.toNat == 0xFEFF

namespace Cursor

/-- The start of a text. -/
def start (cs : List Char) : Cursor := ⟨cs, 0, 0, 0⟩

/-- Passes over some characters of a line. -/
def skip (c : Cursor) (n : Nat) : Cursor :=
  { c with rest := c.rest.drop n, index := c.index + n, column := c.column + n }

/-- Passes over the end of a line, if the text goes on with one, and says what it stands for. -/
def lineEnd? (c : Cursor) : Option (Char × Cursor) :=
  match c.rest with
  | '\r' :: '\n' :: rest => some ('\n', ⟨rest, c.index + 2, c.line + 1, 0⟩)
  | b :: rest => if isBreak b then some (breakValue b, ⟨rest, c.index + 1, c.line + 1, 0⟩) else none
  | [] => none

/-- Whether a space, the end of a line or the end of the text stands some characters ahead. -/
def blankAt (c : Cursor) (n : Nat) : Bool :=
  match (c.rest.drop n).head? with
  | none => true
  | some b => isBlank b || isBreak b

/-- Passes over blanks. -/
def skipBlanks (c : Cursor) : Cursor := c.skip (c.rest.takeWhile isBlank).length

/-- Passes over the rest of a line, which may hold blanks and a comment. -/
def restOfLine? (c : Cursor) : Option Cursor :=
  let c := c.skipBlanks
  let c :=
    if c.rest.head? = some '#' then c.skip (c.rest.takeWhile fun b => !isBreak b).length else c
  match c.lineEnd? with
  | some (_, c) => some c
  | none => if c.rest.isEmpty then some c else none

/-- Whether the text goes on with some characters. -/
def startsWith (c : Cursor) (cs : List Char) : Bool := cs.isPrefixOf c.rest

/-- Whether a document marker stands at the start of a line. -/
def atMarker (c : Cursor) : Bool :=
  c.column == 0 && (c.startsWith ['-', '-', '-'] || c.startsWith ['.', '.', '.']) && c.blankAt 3

/-- The white space between two parts of a scalar: blanks on one line, or the ends of lines. -/
structure Gap where
  blanks : List Char
  broken : Bool
  first : List Char
  more : List Char

/-- No white space. -/
def Gap.none : Gap := ⟨[], false, [], []⟩

/-- The text that a gap stands for. One line feed is folded to a space, further ones are kept. -/
def Gap.text (g : Gap) : List Char :=
  if !g.broken then g.blanks
  else if g.first = ['\n'] then (if g.more.isEmpty then [' '] else g.more)
  else g.first ++ g.more

/-- Reads a gap up to the next character of a scalar. When a scalar has an `indent`, a tab may not
stand before it at the start of a line. -/
def gap? (indent : Option Int) : Nat → Gap → Cursor → Option (Gap × Cursor)
  | 0, g, c => some (g, c)
  | fuel + 1, g, c =>
    match c.rest with
    | [] => some (g, c)
    | b :: _ =>
      if isBlank b then
        if g.broken then
          if b == '\t' && (indent.any fun i => (c.column : Int) < i) then none
          else gap? indent fuel g (c.skip 1)
        else
          gap? indent fuel { g with blanks := g.blanks ++ [b] } (c.skip 1)
      else
        match c.lineEnd? with
        | none => some (g, c)
        | some (value, c) =>
          if g.broken then gap? indent fuel { g with more := g.more ++ [value] } c
          else gap? indent fuel { g with broken := true, first := [value] } c

end Cursor

end ApiEmit.Yaml
