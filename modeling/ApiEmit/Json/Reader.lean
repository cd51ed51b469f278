/-
ApiEmit.Json.Reader — the value that a JSON text spells.

The tokens are read one after the other. The arrays and objects that are still
open are kept innermost first, so their number is the depth, which has a limit. At
some places, for the caller to say, values are passed over: they only have to be
well-formed, however deep they are, and null stands for them.
-/
import ApiEmit.Json.Token
import ApiEmit.Json.Value

namespace ApiEmit.Json.Reader

/-- An array or object that is still open, with its entries so far, the last first. The name is
that of the member being read. Of one that is passed over only the kind is kept. -/
inductive Frame where
  | array (items : List Value)
  | object (members : List (String × Value)) (name : String)
  | passedOver (isObject : Bool)

/-- What may come next. -/
inductive Expectation where
  | value
  | valueOrClose
  | name
  | nameOrClose
  | colon
  | commaOrClose
  | nothing (result : Value)

/-- What may come next, and what is open. -/
structure State where
  expected : Expectation
  frames : List Frame

/-- How many arrays and objects may be open at once. -/
def maxDepth : Nat := 127

/-- The name of the member being read; an item of an array has none. -/
def Frame.memberName? : Frame → Option String
  | .object _ name => some name
  | _ => none

/-- Whether an open array or object is passed over. -/
def Frame.isPassedOver : Frame → Bool
  | .passedOver _ => true
  | _ => false

/-- Puts a complete value where it belongs. -/
def complete (v : Value) : List Frame → State
  | [] => ⟨.nothing v, []⟩
  | .array items :: frames => ⟨.commaOrClose, .array (v :: items) :: frames⟩
  | .object members name :: frames => ⟨.commaOrClose, .object ((name, v) :: members) "" :: frames⟩
  | .passedOver isObject :: frames => ⟨.commaOrClose, .passedOver isObject :: frames⟩

/-- Opens an array or object. -/
def push? (expected : Expectation) (frame : Frame) (frames : List Frame) : Option State :=
  if frames.length < maxDepth then some ⟨expected, frame :: frames⟩ else none

/-- Starts a value that is kept. -/
def keep? (frames : List Frame) : Token → Option State
  | .openArray => push? .valueOrClose (.array []) frames
  | .openObject => push? .nameOrClose (.object [] "") frames
  | .null => some (complete .null frames)
  | .bool b => some (complete (.bool b) frames)
  | .number n => n.map fun n => complete (.number n) frames
  | .string s => s.map fun s => complete (.string s) frames
  | _ => none

/-- Starts a value that is passed over. -/
def passOver? (frames : List Frame) : Token → Option State
  | .openArray => some ⟨.valueOrClose, .passedOver false :: frames⟩
  | .openObject => some ⟨.nameOrClose, .passedOver true :: frames⟩
  | .null | .bool _ | .number _ | .string _ => some (complete .null frames)
  | _ => none

/-- Starts a value; `passesOver` says whether a place is passed over. A place is given by the names
of the members that lead to it, the innermost first. -/
def begin? (passesOver : List (Option String) → Bool) (frames : List Frame) (token : Token) :
    Option State :=
  if frames.head?.any Frame.isPassedOver || passesOver (frames.map Frame.memberName?) then
    passOver? frames token
  else
    keep? frames token

/-- Closes the innermost array or object. -/
def close? : List Frame → Token → Option State
  | .array items :: frames, .closeArray => some (complete (.array items.reverse) frames)
  | .object members _ :: frames, .closeObject => some (complete (.object members.reverse) frames)
  | .passedOver false :: frames, .closeArray => some (complete .null frames)
  | .passedOver true :: frames, .closeObject => some (complete .null frames)
  | _, _ => none

/-- Goes on behind a comma. -/
def continue? : List Frame → Option State
  | .array items :: frames => some ⟨.value, .array items :: frames⟩
  | .object members name :: frames => some ⟨.name, .object members name :: frames⟩
  | .passedOver isObject :: frames =>
    some ⟨if isObject then .name else .value, .passedOver isObject :: frames⟩
  | [] => none

/-- Takes the name of a member. -/
def name? : List Frame → Token → Option State
  | .object members _ :: frames, .string (some s) => some ⟨.colon, .object members s :: frames⟩
  | .passedOver true :: frames, .string _ => some ⟨.colon, .passedOver true :: frames⟩
  | _, _ => none

/-- Takes one token. -/
def step (passesOver : List (Option String) → Bool) (s : State) (token : Token) : Option State :=
  match s.expected, token with
  | .value, _ => begin? passesOver s.frames token
  | .valueOrClose, .closeArray => close? s.frames token
  | .valueOrClose, _ => begin? passesOver s.frames token
  | .name, _ => name? s.frames token
  | .nameOrClose, .closeObject => close? s.frames token
  | .nameOrClose, _ => name? s.frames token
  | .colon, .colon => some { s with expected := .value }
  | .colon, _ => none
  | .commaOrClose, .comma => continue? s.frames
  | .commaOrClose, _ => close? s.frames token
  | .nothing _, _ => none

/-- The value of a text, or `none` when the text is malformed, too deep, or has a string without a
text or a number without a value at a place that is not passed over. -/
def read? (passesOver : List (Option String) → Bool) (text : String) : Option Value := do
  let tokens ← Token.scan? text
  let last ← tokens.foldlM (step passesOver) ⟨.value, []⟩
  match last.expected with
  | .nothing v => some v
  | _ => none

end ApiEmit.Json.Reader
