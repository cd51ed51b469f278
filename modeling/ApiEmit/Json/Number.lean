/-
ApiEmit.Json.Number — the numbers of a JSON text.

An integer that fits 64 bits, signed or unsigned, is kept exactly. Every other
number is a 64-bit binary one. The significand gathers digits as long as it fits
64 bits; digits left over before the point only raise the exponent.
-/
import ApiEmit.Binary64.Numeral

namespace ApiEmit.Json

/-- A number: an exact integer from `-2 ^ 63` up to `2 ^ 64 - 1`, or a finite binary number. -/
inductive Number where
  | integer (value : Int)
  | binary (negative : Bool) (magnitude : Binary64)
  deriving DecidableEq, Repr

/-- The number zero. -/
instance : Inhabited Number := ⟨.integer 0⟩

namespace Number

/-- Numbers are written positionally from `0.00001` to `1000000000000000.0`. -/
def layout : Binary64.Layout := ⟨-5, 15⟩

/-- The text of a number: an integer by its digits, a binary number by the fewest digits that read
back, with a point or an exponent. -/
def text : Number → String
  | .integer value => toString value
  | .binary negative magnitude =>
    if negative then "-" ++ magnitude.text layout else magnitude.text layout

/-- Whether the number has no fraction. -/
def isIntegral : Number → Bool
  | .integer _ => true
  | .binary _ magnitude => magnitude.isNatural

/-- The greatest significand. -/
def maxSignificand : Nat := UInt64.size - 1

/-- The greatest magnitude of a negative integer. -/
def maxNegative : Nat := UInt64.size / 2

/-- Takes digits into a significand until one does not fit; returns the digits from there on. -/
def gather (significand : Nat) : List Nat → Nat × List Nat
  | [] => (significand, [])
  | d :: rest =>
    if significand * 10 + d ≤ maxSignificand then gather (significand * 10 + d) rest
    else (significand, d :: rest)

/-- A number as written: sign, digits before the point, digits after it, exponent. -/
structure Literal where
  negative : Bool
  whole : List Nat
  fraction : Option (List Nat)
  exponent : Option Int
  deriving Repr

/-- The number that a literal denotes, or `none` when it is beyond the binary format. A negative
zero and an integer that does not fit are binary numbers. -/
def ofLiteral? (l : Literal) : Option Number :=
  let (significand, excess) := gather 0 l.whole
  if excess.isEmpty && l.fraction.isNone && l.exponent.isNone &&
      !(l.negative && (significand == 0 || maxNegative < significand)) then
    some (.integer (if l.negative then -(significand : Int) else significand))
  else
    let fraction := l.fraction.getD []
    let (significand, ignored) := gather significand fraction
    let shift : Int := excess.length - (fraction.length - ignored.length : Nat)
    (Binary64.ofDecimal? significand (shift + l.exponent.getD 0)).map (.binary l.negative)

/-- The digit that a character stands for. -/
def digit (c : Char) : Nat := c.toNat - '0'.toNat

/-- The leading digits and what follows them. -/
def spanDigits (cs : List Char) : List Nat × List Char :=
  ((cs.takeWhile Char.isDigit).map digit, cs.dropWhile Char.isDigit)

/-- The digits after a point, if there is a point. A point without digits is malformed. -/
def fraction? : List Char → Option (Option (List Nat) × List Char)
  | '.' :: rest =>
    match spanDigits rest with
    | ([], _) => none
    | (digits, rest) => some (some digits, rest)
  | rest => some (none, rest)

/-- The exponent behind its letter: a sign or none, then digits up to the end. -/
def exponentValue? (cs : List Char) : Option Int :=
  let (negative, cs) := match cs with
    | '+' :: rest => (false, rest)
    | '-' :: rest => (true, rest)
    | rest => (false, rest)
  match spanDigits cs with
  | (d :: ds, []) =>
    let value : Nat := (d :: ds).foldl (fun n d => n * 10 + d) 0
    some (if negative then -(value : Int) else value)
  | _ => none

/-- The exponent up to the end of the text, if there is one. -/
def exponent? : List Char → Option (Option Int)
  | [] => some none
  | c :: rest => if c = 'e' ∨ c = 'E' then (exponentValue? rest).map some else none

/-- The literal that a whole text spells. A zero in front stands alone. -/
def literal? (cs : List Char) : Option Literal :=
  let (negative, cs) := match cs with
    | '-' :: rest => (true, rest)
    | rest => (false, rest)
  match spanDigits cs with
  | ([], _) => none
  | (0 :: _ :: _, _) => none
  | (whole, rest) =>
    (fraction? rest).bind fun (fraction, rest) =>
      (exponent? rest).map fun exponent => ⟨negative, whole, fraction, exponent⟩

/-- The number that a whole text spells. -/
def ofText? (cs : List Char) : Option Number :=
  (literal? cs).bind ofLiteral?

end Number

end ApiEmit.Json
