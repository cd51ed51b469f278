/-
ApiEmit.Yaml.Token — the tokens of a YAML text.

Indentation opens and closes blocks. A key of a mapping is seen to be one only when
its colon comes, so the place of every possible key is kept until then: the token
of the key, and the opening of the mapping, are put in there later. An anchor is
kept by a slot. A new anchor takes the slot numbered by how many names there are, so
a name that is given anew can leave its new slot to the next name.
-/
import ApiEmit.Keyed
import ApiEmit.Yaml.BlockScalar
import ApiEmit.Yaml.Directive

namespace ApiEmit.Yaml

/-- How a scalar is written. -/
inductive ScalarStyle where
  | plain
  | quoted
  | literal
  | folded
  deriving DecidableEq, Repr

/-- A token of a YAML text. -/
inductive Token where
  | directive (d : Directive)
  | documentStart
  | documentEnd
  | openBlockSequence
  | openBlockMapping
  | closeBlock
  | openFlowSequence
  | closeFlowSequence
  | openFlowMapping
  | closeFlowMapping
  | blockEntry
  | flowEntry
  | key
  | value
  | anchor (slot : Nat)
  | alias (slot : Nat)
  | tag (t : Tag)
  | scalar (text : String) (style : ScalarStyle)
  deriving DecidableEq, Repr

/-- A place where a key may have started. It has to turn out to be one when it stands where the
entries of a block mapping stand. -/
structure PossibleKey where
  required : Bool
  position : Nat
  index : Nat
  line : Nat
  column : Nat
  deriving Repr

/-- The tokens read so far and what the next ones depend on. The possible keys are those of the
brackets that are open, the innermost first, and of the block around them all. The slots are those
of the names of anchors. -/
structure Scanner where
  cursor : Cursor
  tokens : Array Token
  indent : Int
  outer : List Int
  keyAllowed : Bool
  key : Option PossibleKey
  outerKeys : List (Option PossibleKey)
  slots : List (String × Nat)

namespace Scanner

/-- Before the first token. -/
def start (cs : List Char) : Scanner :=
  ⟨Cursor.start cs, #[], -1, [], true, none, [], []⟩

/-- Whether a bracket is open. -/
def inFlow (s : Scanner) : Bool := !s.outerKeys.isEmpty

/-- Adds a token. -/
def push (s : Scanner) (t : Token) : Scanner := { s with tokens := s.tokens.push t }

/-- Adds a token and passes over its characters. -/
def take (s : Scanner) (t : Token) (n : Nat) : Scanner :=
  { s.push t with cursor := s.cursor.skip n }

/-- Puts a token in at a position. -/
def insertAt (s : Scanner) (position : Nat) (t : Token) : Scanner :=
  { s with tokens := s.tokens.extract 0 position ++ #[t] ++
      s.tokens.extract position s.tokens.size }

/-- Passes over blanks, comments and the ends of lines. A tab counts as a blank only where no key
can start. A byte order mark in front of a line takes a column of its own. -/
def skipSpace : Nat → Scanner → Scanner
  | 0, s => s
  | fuel + 1, s =>
    match s.cursor.rest with
    | [] => s
    | c :: _ =>
      if (isByteOrderMark c && s.cursor.column == 0) || c == ' ' ||
          (c == '\t' && (s.inFlow || !s.keyAllowed)) then
        skipSpace fuel { s with cursor := s.cursor.skip 1 }
      else if c == '#' then
        let comment := (s.cursor.rest.takeWhile fun c => !isBreak c).length
        skipSpace fuel { s with cursor := s.cursor.skip comment }
      else
        match s.cursor.lineEnd? with
        | some (_, cursor) =>
          skipSpace fuel { s with cursor, keyAllowed := s.keyAllowed || !s.inFlow }
        | none => s

/-- How far behind its start the colon of a key may stand. -/
def maxKeyLength : Nat := 1024

/-- Whether a possible key can no longer be one: its line is over, or it is too long. -/
def isStale (cursor : Cursor) (k : PossibleKey) : Bool :=
  k.line < cursor.line || k.index + maxKeyLength < cursor.index

/-- Gives up a possible key that can no longer be one. It is a fault if it had to be one. -/
def dropStale? (cursor : Cursor) : Option PossibleKey → Option (Option PossibleKey)
  | some k => if isStale cursor k then (if k.required then none else some none) else some (some k)
  | none => some none

/-- Gives up all possible keys that can no longer be one. -/
def dropStaleKeys? (s : Scanner) : Option Scanner := do
  let key ← dropStale? s.cursor s.key
  let outerKeys ← s.outerKeys.mapM (dropStale? s.cursor)
  return { s with key, outerKeys }

/-- Gives up the innermost possible key. -/
def dropKey? (s : Scanner) : Option Scanner :=
  match s.key with
  | some k => if k.required then none else some { s with key := none }
  | none => some s

/-- Keeps the present place as a possible key, if keys are allowed here. -/
def saveKey? (s : Scanner) : Option Scanner :=
  if s.keyAllowed then
    s.dropKey?.map fun s =>
      { s with key := some ⟨!s.inFlow && s.indent == s.cursor.column, s.tokens.size,
          s.cursor.index, s.cursor.line, s.cursor.column⟩ }
  else
    some s

/-- Closes the blocks that are indented more than a column. -/
def unindent (column : Int) : List Int → Scanner → Scanner
  | [], s => s
  | outer :: rest, s =>
    if s.inFlow || s.indent ≤ column then s
    else unindent column rest { s.push .closeBlock with indent := outer, outer := rest }

/-- Closes the blocks that are indented more than a column. -/
def closeBlocks (s : Scanner) (column : Int) : Scanner := unindent column s.outer s

/-- Opens a block at a column, unless one is open there; its token goes to a position. -/
def indentTo (s : Scanner) (column : Nat) (position : Nat) (t : Token) : Scanner :=
  if !s.inFlow && s.indent < column then
    { s.insertAt position t with indent := column, outer := s.indent :: s.outer }
  else
    s

/-- Takes a marker of documents. -/
def marker? (s : Scanner) (t : Token) : Option Scanner :=
  (s.closeBlocks (-1)).dropKey?.map fun s => { s.take t 3 with keyAllowed := false }

/-- Takes a directive. -/
def directive? (s : Scanner) : Option Scanner := do
  let s ← (s.closeBlocks (-1)).dropKey?
  let (d, cursor) ← Directive.read? s.cursor
  return { s.push (.directive d) with cursor, keyAllowed := false }

/-- Takes an opening bracket. -/
def openFlow? (s : Scanner) (t : Token) : Option Scanner :=
  s.saveKey?.map fun s =>
    { s.take t 1 with key := none, outerKeys := s.key :: s.outerKeys, keyAllowed := true }

/-- Takes a closing bracket. -/
def closeFlow? (s : Scanner) (t : Token) : Option Scanner :=
  s.dropKey?.map fun s =>
    match s.outerKeys with
    | [] => { s.take t 1 with keyAllowed := false }
    | key :: outerKeys => { s.take t 1 with key, outerKeys, keyAllowed := false }

/-- Takes a comma. -/
def comma? (s : Scanner) : Option Scanner :=
  s.dropKey?.map fun s => { s.take .flowEntry 1 with keyAllowed := true }

/-- Takes the dash of an entry. -/
def entry? (s : Scanner) : Option Scanner :=
  if !s.inFlow && !s.keyAllowed then none
  else
    (s.indentTo s.cursor.column s.tokens.size .openBlockSequence).dropKey?.map fun s =>
      { s.take .blockEntry 1 with keyAllowed := true }

/-- Takes the question mark of a key. -/
def explicitKey? (s : Scanner) : Option Scanner :=
  if !s.inFlow && !s.keyAllowed then none
  else
    (s.indentTo s.cursor.column s.tokens.size .openBlockMapping).dropKey?.map fun s =>
      { s.take .key 1 with keyAllowed := !s.inFlow }

/-- Takes the colon of a value. The possible key, if there is one, becomes the key of it. -/
def colon? (s : Scanner) : Option Scanner :=
  match s.key with
  | some k =>
    let s := (s.insertAt k.position .key).indentTo k.column k.position .openBlockMapping
    some { s.take .value 1 with key := none, keyAllowed := false }
  | none =>
    if !s.inFlow && !s.keyAllowed then none
    else
      let s := s.indentTo s.cursor.column s.tokens.size .openBlockMapping
      some { s.take .value 1 with keyAllowed := !s.inFlow }

/-- Gives a slot to the name of an anchor. -/
def anchorSlot (s : Scanner) (name : String) : Scanner :=
  { s.push (.anchor s.slots.length) with
    slots := Keyed.put (·.1) (name, s.slots.length) s.slots }

/-- Takes the slot of an anchor by its name. -/
def aliasSlot? (s : Scanner) (name : String) : Option Scanner :=
  (s.slots.lookup name).map fun slot => s.push (.alias slot)

/-- The characters besides white space that may stand behind the name of an anchor. -/
def isNameEnd (c : Char) : Bool := ['?', ':', ',', ']', '\x7d', '%', '@', '\x60'].contains c

/-- Takes an anchor or an alias. -/
def anchorName? (s : Scanner) (isAlias : Bool) : Option Scanner := do
  let s ← s.saveKey?
  let name := (s.cursor.rest.drop 1).takeWhile isNameChar
  let cursor := s.cursor.skip (name.length + 1)
  if name.isEmpty || !(cursor.blankAt 0 || cursor.rest.head?.any isNameEnd) then none
  else
    let s := { s with cursor, keyAllowed := false }
    if isAlias then s.aliasSlot? (String.ofList name) else s.anchorSlot (String.ofList name)

/-- Takes a tag. Within brackets a comma may stand right behind it. -/
def tag? (s : Scanner) : Option Scanner := do
  let s ← s.saveKey?
  let (t, cursor) ← Tag.read? s.cursor
  if cursor.blankAt 0 || (s.inFlow && cursor.rest.head? == some ',') then
    return { s.push (.tag t) with cursor, keyAllowed := false }
  else
    none

/-- Takes a block scalar. -/
def blockScalar? (s : Scanner) (folded : Bool) : Option Scanner := do
  let s ← s.dropKey?
  let (text, cursor) ← BlockScalar.read? folded s.indent (s.cursor.skip 1)
  return { s.push (.scalar (String.ofList text) (if folded then .folded else .literal)) with
    cursor, keyAllowed := true }

/-- Takes a quoted scalar. -/
def quotedScalar? (s : Scanner) (single : Bool) : Option Scanner := do
  let s ← s.saveKey?
  let (text, cursor) ← quoted? single (s.cursor.rest.length + 1) (s.cursor.skip 1)
  return { s.push (.scalar (String.ofList text) .quoted) with cursor, keyAllowed := false }

/-- Takes a plain scalar. -/
def plainScalar? (s : Scanner) : Option Scanner := do
  let s ← s.saveKey?
  let plain ← plain? s.inFlow (s.indent + 1) (s.cursor.rest.length + 1) Cursor.Gap.none s.cursor
  return { s.push (.scalar (String.ofList plain.text) .plain) with
    cursor := plain.next, keyAllowed := plain.brokenOff }

/-- The characters that no plain scalar starts with, unless something follows them at once. -/
def isIndicator (c : Char) : Bool :=
  ['-', '?', ':', ',', '[', ']', '{', '}', '#', '&', '*', '!', '|', '>', '\x27', '"', '%', '@',
    '\x60'].contains c

/-- Whether a plain scalar starts here. -/
def startsPlain (s : Scanner) (c : Char) : Bool :=
  !(isIndicator c || isBlank c) || (c == '-' && !(s.cursor.rest.drop 1).head?.any isBlank) ||
    (!s.inFlow && (c == '?' || c == ':') && !s.cursor.blankAt 1)

/-- Takes the next token, which starts with a character. -/
def token? (s : Scanner) (c : Char) : Option Scanner :=
  if s.cursor.column == 0 && c == '%' then s.directive?
  else if s.cursor.atMarker then
    s.marker? (if c == '-' then .documentStart else .documentEnd)
  else if c == '[' then s.openFlow? .openFlowSequence
  else if c == '{' then s.openFlow? .openFlowMapping
  else if c == ']' then s.closeFlow? .closeFlowSequence
  else if c == '}' then s.closeFlow? .closeFlowMapping
  else if c == ',' then s.comma?
  else if c == '-' && s.cursor.blankAt 1 then s.entry?
  else if c == '?' && (s.inFlow || s.cursor.blankAt 1) then s.explicitKey?
  else if c == ':' && (s.inFlow || s.cursor.blankAt 1) then s.colon?
  else if c == '*' then s.anchorName? true
  else if c == '&' then s.anchorName? false
  else if c == '!' then s.tag?
  else if c == '|' && !s.inFlow then s.blockScalar? false
  else if c == '>' && !s.inFlow then s.blockScalar? true
  else if c == '\x27' then s.quotedScalar? true
  else if c == '"' then s.quotedScalar? false
  else if s.startsPlain c then s.plainScalar?
  else none

/-- Closes everything at the end of the text. -/
def finish? (s : Scanner) : Option (Array Token) :=
  (s.closeBlocks (-1)).dropKey?.map (·.tokens)

/-- Reads all tokens; each step but the last takes a character at least. -/
def run? : Nat → Scanner → Option (Array Token)
  | 0, _ => none
  | fuel + 1, s =>
    let s := s.skipSpace (s.cursor.rest.length + 1)
    match s.dropStaleKeys? with
    | none => none
    | some s =>
      let s := s.closeBlocks s.cursor.column
      match s.cursor.rest with
      | [] => s.finish?
      | c :: _ => (s.token? c).bind (run? fuel)

end Scanner

/-- The tokens of a text. -/
def scan? (text : String) : Option (List Token) :=
  let start := Scanner.start text.toList
  if start.cursor.rest.all isPrintable then
    (start.run? (start.cursor.rest.length + 1)).map Array.toList
  else
    none

end ApiEmit.Yaml
