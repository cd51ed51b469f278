/-
ApiEmit.Binary64.Basic — finite magnitudes of the 64-bit binary format.

A magnitude is `mantissa * 2 ^ exponent`. Every result is the nearest one to the
exact ratio, a tie going to the even mantissa, computed on natural numbers.
-/

namespace ApiEmit

/-- The magnitude `mantissa * 2 ^ exponent`. A result of `ofRatio?` has a mantissa below `2 ^ 53`,
and one of `2 ^ 52` or more unless its exponent is the least. -/
structure Binary64 where
  mantissa : Nat
  exponent : Int
  deriving DecidableEq, Repr

namespace Binary64

/-- Number of bits of a mantissa. -/
def precision : Nat := 53

/-- The least mantissa of full precision, `2 ^ 52`. -/
def minFullMantissa : Nat := Nat.pow 2 (precision - 1)

/-- Exponent of the least positive magnitude. -/
def minExponent : Int := -1074

/-- Exponent of the greatest finite magnitude. -/
def maxExponent : Int := 971

/-- The magnitude zero. -/
def zero : Binary64 := ⟨0, minExponent⟩

/-- The quotient rounded to the nearest natural number, a tie going to the even one. -/
def roundDiv (num den : Nat) : Nat :=
  let quotient := num / den
  let twice := 2 * (num % den)
  if twice < den then quotient
  else if den < twice then quotient + 1
  else if quotient % 2 = 0 then quotient
  else quotient + 1

/-- The ratio `num / den` in units of `2 ^ exponent`. -/
def inUnits (num den : Nat) (exponent : Int) : Nat × Nat :=
  if 0 ≤ exponent then (num, den * Nat.pow 2 exponent.toNat)
  else (num * Nat.pow 2 (-exponent).toNat, den)

/-- The magnitude nearest to `num / den`, or `none` beyond the greatest finite one. The first
exponent tried is at most one too small, because a logarithm of base two is known to within one. -/
def ofRatio? (num den : Nat) : Option Binary64 :=
  if num = 0 then
    some zero
  else
    let least := max minExponent ((num.log2 : Int) - den.log2 - precision)
    let (n, d) := inUnits num den least
    let exponent := if n / d < 2 * minFullMantissa then least else least + 1
    let (n, d) := inUnits num den exponent
    let mantissa := roundDiv n d
    let result : Binary64 :=
      if mantissa = 2 * minFullMantissa then ⟨minFullMantissa, exponent + 1⟩
      else ⟨mantissa, exponent⟩
    if result.exponent ≤ maxExponent then some result else none

/-- The numerator of a magnitude as a ratio. -/
def numerator (x : Binary64) : Nat := x.mantissa * Nat.pow 2 x.exponent.toNat

/-- The denominator of a magnitude as a ratio. -/
def denominator (x : Binary64) : Nat := Nat.pow 2 (-x.exponent).toNat

/-- The product, or `none` when it is too large. -/
def mul? (x y : Binary64) : Option Binary64 :=
  ofRatio? (x.numerator * y.numerator) (x.denominator * y.denominator)

/-- The quotient, or `none` when it is too large. -/
def div? (x y : Binary64) : Option Binary64 :=
  ofRatio? (x.numerator * y.denominator) (x.denominator * y.numerator)

/-- Whether the magnitude is a natural number. -/
def isNatural (x : Binary64) : Bool :=
  x.numerator % x.denominator == 0

/-- The largest power of ten that is a finite magnitude. -/
def maxPowerOfTen : Nat := 308

/-- The magnitude nearest to `10 ^ n`. -/
def powerOfTen? (n : Nat) : Option Binary64 := ofRatio? (Nat.pow 10 n) 1

/-- Divides by `10 ^ n`, in steps of the largest power of ten while `n` is above it. Each division
is rounded on its own. -/
def divPowerOfTen (x : Binary64) (n : Nat) : Option Binary64 :=
  if n ≤ maxPowerOfTen then
    (powerOfTen? n).bind x.div?
  else if x.mantissa = 0 then
    some x
  else
    ((powerOfTen? maxPowerOfTen).bind x.div?).bind fun y => y.divPowerOfTen (n - maxPowerOfTen)
termination_by n
decreasing_by
  simp only [maxPowerOfTen] at *
  omega

/-- Multiplies by `10 ^ n`; above the largest power of ten only zero has a product. -/
def mulPowerOfTen (x : Binary64) (n : Nat) : Option Binary64 :=
  if n ≤ maxPowerOfTen then
    (powerOfTen? n).bind x.mul?
  else if x.mantissa = 0 then
    some x
  else
    none

/-- The magnitude of `significand * 10 ^ exponent`: the significand is rounded first and then
scaled, so the result can be some units away from the nearest magnitude. -/
def ofDecimal? (significand : Nat) (exponent : Int) : Option Binary64 :=
  (ofRatio? significand 1).bind fun x =>
    if 0 ≤ exponent then x.mulPowerOfTen exponent.toNat else x.divPowerOfTen (-exponent).toNat

end Binary64

end ApiEmit
