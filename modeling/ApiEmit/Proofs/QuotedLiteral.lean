/-
ApiEmit.Proofs.QuotedLiteral — a text is what its literal says.

The value of a string literal is a list of code points, since an escape by number may name a
surrogate. Each character of a text is written as one escape or as itself, and read back as its own
code point (`readBody?_quoteChar`), whatever stands behind it. Four digits are enough for an escape
by number because only control characters are written so, and all of them lie below U+00A0.
-/
import ApiEmit.Json.Token
import ApiEmit.Python.Printer
import Mathlib.Data.List.Basic

namespace ApiEmit.Python

variable {s name keyword : String} {c : Char} {rest : List Char}

/-! ## Reading a literal -/

/-- The character that a letter behind a backslash stands for. -/
def letterEscape? : Char → Option Char
  | '"' => some '"'
  | '\\' => some '\\'
  | 'n' => some '\n'
  | 'r' => some '\r'
  | 't' => some '\t'
  | _ => none

/-- The code points of a literal up to its closing quote, and what follows the quote. A backslash
takes a letter with it, or a `u` and four hexadecimal digits, and a line cannot end in a literal. -/
def readBody? : List Char → Option (List Nat × List Char)
  | [] => none
  | '"' :: rest => some ([], rest)
  | '\\' :: 'u' :: a :: b :: c :: d :: rest =>
    (Json.Token.hex4? a b c d).bind fun point =>
      (readBody? rest).map fun (points, rest) => (point :: points, rest)
  | '\\' :: e :: rest =>
    (letterEscape? e).bind fun c =>
      (readBody? rest).map fun (points, rest) => (c.toNat :: points, rest)
  | c :: rest =>
    if c = '\n' ∨ c = '\r' then none
    else (readBody? rest).map fun (points, rest) => (c.toNat :: points, rest)

/-- The code points of a literal between double quotes that a text starts with, and what follows
the literal. -/
def readLiteral? : List Char → Option (List Nat × List Char)
  | '"' :: rest => readBody? rest
  | _ => none

/-- The code points of a text. -/
def codePoints (s : String) : List Nat := s.toList.map Char.toNat

/-! ## Escapes by number -/

theorem hexValue?_hexDigit : ∀ n < 16, Json.Token.hexValue? (Json.hexDigit n) = some n := by
  decide

/-- Four digits spell every number below 65536. -/
theorem hex4?_hex4 {n : Nat} (h : n < 65536) :
    Json.Token.hex4? (Json.hexDigit (n / 4096 % 16)) (Json.hexDigit (n / 256 % 16))
      (Json.hexDigit (n / 16 % 16)) (Json.hexDigit (n % 16)) = some n := by
  have hdigits : ((n / 4096 % 16 * 16 + n / 256 % 16) * 16 + n / 16 % 16) * 16 + n % 16 = n := by
    omega
  simp only [Json.Token.hex4?, hexValue?_hexDigit _ (Nat.mod_lt _ (by decide : 0 < 16)),
    Option.bind_eq_bind, Option.bind_some, Option.pure_def, hdigits]

/-- The control characters lie far below the numbers that need more than four digits. -/
theorem toNat_lt_of_isControl (h : isControl c = true) : c.toNat < 65536 := by
  simp only [isControl, Bool.or_eq_true, decide_eq_true_eq, Bool.and_eq_true] at h
  omega

/-! ## Reading back -/

/-- A character that is not escaped stands for itself. -/
theorem readBody?_cons (hquote : c ≠ '"') (hslash : c ≠ '\\') (hfeed : c ≠ '\n')
    (hreturn : c ≠ '\r') (rest : List Char) :
    readBody? (c :: rest) =
      (readBody? rest).map fun (points, rest) => (c.toNat :: points, rest) := by
  rw [readBody?.eq_def]
  split <;> simp_all

/-- A character is read back in one step, whatever follows. -/
theorem readBody?_quoteChar (c : Char) (rest : List Char) :
    readBody? (quoteChar c ++ rest) =
      (readBody? rest).map fun (points, rest) => (c.toNat :: points, rest) := by
  unfold quoteChar
  split_ifs with hquote hslash hfeed hreturn htab hcontrol
  · subst hquote
    simp [readBody?, letterEscape?]
  · subst hslash
    simp [readBody?, letterEscape?]
  · subst hfeed
    simp [readBody?, letterEscape?]
  · subst hreturn
    simp [readBody?, letterEscape?]
  · subst htab
    simp [readBody?, letterEscape?]
  · have hpoint := hex4?_hex4 (toNat_lt_of_isControl hcontrol)
    simp only [Json.hex4, List.cons_append, List.nil_append, readBody?, hpoint, Option.bind_some]
  · exact readBody?_cons hquote hslash hfeed hreturn rest

/-- Characters are read back up to the quote that closes their literal. -/
theorem readBody?_flatMap_quoteChar (cs rest : List Char) :
    readBody? (cs.flatMap quoteChar ++ '"' :: rest) = some (cs.map Char.toNat, rest) := by
  induction cs with
  | nil => simp [readBody?]
  | cons c cs ih => simp [readBody?_quoteChar, ih]

theorem readLiteral?_quoteChars (cs rest : List Char) :
    readLiteral? (quoteChars cs ++ rest) = some (cs.map Char.toNat, rest) := by
  simpa [quoteChars, readLiteral?] using readBody?_flatMap_quoteChar cs rest

theorem readLiteral?_quote (s : String) (rest : List Char) :
    readLiteral? ((quote s).toList ++ rest) = some (codePoints s, rest) := by
  simpa [quote, codePoints] using readLiteral?_quoteChars s.toList rest

/-! ## Literals in lines -/

/-- Behind its front a line has the literal of a text, and behind the literal the rest. -/
def HoldsLiteral (line : String) (front : List Char) (s : String) (rest : List Char) : Prop :=
  ∃ literal, line.toList = front ++ literal ∧ readLiteral? literal = some (codePoints s, rest)

theorem holdsLiteral_of_eq {line : String} {front : List Char}
    (h : line.toList = front ++ ((quote s).toList ++ rest)) : HoldsLiteral line front s rest :=
  ⟨_, h, readLiteral?_quote s rest⟩

/-- Between the items in front of it and those behind it, an item stands in a list with a comma on
each side. -/
theorem toList_commaList (before after : List String) (item : String) :
    (commaList (before ++ item :: after)).toList =
      before.flatMap (fun b => b.toList ++ [',', ' ']) ++
        (item.toList ++ after.flatMap fun a => ',' :: ' ' :: a.toList) := by
  have hbehind : ∀ (after : List String) (item : String), (commaList (item :: after)).toList =
      item.toList ++ after.flatMap fun a => ',' :: ' ' :: a.toList := by
    intro after
    induction after with
    | nil =>
      intro item
      simp [commaList]
    | cons next after ih =>
      intro item
      have hnext := ih next
      simp only [commaList] at hnext
      simp [commaList, String.intercalate_cons_cons, hnext]
  induction before with
  | nil => exact hbehind after item
  | cons first before ih =>
    have hne : before ++ item :: after ≠ [] := by simp
    obtain ⟨second, others, hrest⟩ := List.exists_cons_of_ne_nil hne
    simp only [commaList, hrest] at ih
    simp [commaList, hrest, String.intercalate_cons_cons, ih]

/-- The line of a field up to its type hint. -/
def fieldHead (name : String) (hint : TypeHint) : String := bodyIndent ++ name ++ ": " ++ hint.text

/-- A text is written as its literal wherever it stands in the body of a class, and read back from
there: its literal ends where it is closed, and its value has the code points of the text. -/
structure ReadsBack (s : String) : Prop where
  /-- Whatever follows the literal. -/
  literal : ∀ rest, readLiteral? ((quote s).toList ++ rest) = some (codePoints s, rest)
  /-- As the default of a field. -/
  default : ∀ name hint, HoldsLiteral (Field.text ⟨name, hint, .default (.str s)⟩)
    ((fieldHead name hint).toList ++ " = ".toList) s []
  /-- As an argument of a field, between other arguments. -/
  argument : ∀ name hint keyword before after,
    HoldsLiteral (Field.text ⟨name, hint, .call (before ++ ⟨keyword, .str s⟩ :: after)⟩)
      ((fieldHead name hint).toList ++ " = Field(".toList ++
        before.flatMap (fun b : Argument => b.text.toList ++ [',', ' ']) ++ keyword.toList ++ ['='])
      s ((after.flatMap fun a : Argument => ',' :: ' ' :: a.text.toList) ++ [')'])
  /-- As the value of a member of an enum. -/
  member : ∀ name, HoldsLiteral (MemberDef.text ⟨name, .str s⟩)
    (bodyIndent.toList ++ name.toList ++ " = ".toList) s []

/-- **A string literal denotes the text it is written for**, and ends where it is closed. -/
theorem readsBack_quote (s : String) : ReadsBack s where
  literal := readLiteral?_quote s
  default := by
    intro name hint
    apply holdsLiteral_of_eq
    simp [Field.text, fieldHead, Literal.text]
  argument := by
    intro name hint keyword before after
    have htext : (⟨keyword, .str s⟩ : Argument).text = keyword ++ "=" ++ quote s := rfl
    apply holdsLiteral_of_eq
    simp [Field.text, fieldHead, htext, toList_commaList, List.flatMap_map]
  member := by
    intro name
    apply holdsLiteral_of_eq
    simp [MemberDef.text, Literal.text]

end ApiEmit.Python
