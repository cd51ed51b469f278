/-
ApiEmit.Binary64.Numeral — writing a decimal number.

A layout says for which decimal exponents the point stands among the digits; all
other numbers are written with one digit before the point and an exponent that
has a sign.
-/
import ApiEmit.Binary64.Shortest

namespace ApiEmit.Binary64

/-- The decimal exponents that are written positionally. -/
structure Layout where
  lowest : Int
  highest : Int
  deriving DecidableEq, Repr

/-- A text of `n` zeros. -/
def zeros (n : Nat) : String := String.ofList (List.replicate n '0')

/-- Digits with the point after the first `whole` of them. -/
def pointAfter (whole : Nat) (digits : String) : String :=
  String.ofList (digits.toList.take whole) ++ "." ++ String.ofList (digits.toList.drop whole)

/-- The sign and digits of a decimal exponent. -/
def exponentText (e : Int) : String :=
  if e < 0 then "-" ++ toString e.natAbs else "+" ++ toString e.natAbs

/-- The text of a decimal number. A positional text has a digit on both sides of the point. -/
def Decimal.text (layout : Layout) (d : Decimal) : String :=
  let digits := toString d.digits
  let e : Int := (digits.length : Int) - 1 + d.scale
  if layout.lowest ≤ e ∧ e ≤ layout.highest then
    if 0 ≤ d.scale then digits ++ zeros d.scale.toNat ++ ".0"
    else if 0 ≤ e then pointAfter (e.toNat + 1) digits
    else "0." ++ zeros (-e - 1).toNat ++ digits
  else if digits.length = 1 then
    digits ++ "e" ++ exponentText e
  else
    pointAfter 1 digits ++ "e" ++ exponentText e

/-- The shortest text of a magnitude in a layout. -/
def text (layout : Layout) (x : Binary64) : String :=
  x.shortest.text layout

end ApiEmit.Binary64
