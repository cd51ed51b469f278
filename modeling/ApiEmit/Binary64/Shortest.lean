/-
ApiEmit.Binary64.Shortest — the fewest decimal digits that read back.

The numbers that round to a magnitude form an interval around it, whose ends
belong to it when the mantissa is even. Of the decimal grids `10 ^ p`, from
coarse to fine, the first with a point in that interval gives the digits. A grid
with a point there has one next to the value, so only two points are tested.
-/
import ApiEmit.Binary64.Basic

namespace ApiEmit.Binary64

/-- The number `digits * 10 ^ scale`. -/
structure Decimal where
  digits : Nat
  scale : Int
  deriving DecidableEq, Repr

/-- The point of the grid `10 ^ scale` that stands for a magnitude, if one rounds to it. The value
and the ends of its interval are counted in quarters of its last place; the lower end is nearer
below a power of two. Of two points the nearer is taken, and the even one of two as near. -/
def onGrid? (x : Binary64) (scale : Int) : Option Decimal :=
  let quarter := x.exponent - 2
  let num := Nat.pow 2 quarter.toNat * Nat.pow 10 (-scale).toNat
  let den := Nat.pow 2 (-quarter).toNat * Nat.pow 10 scale.toNat
  let value := 4 * x.mantissa
  let low := if x.mantissa = minFullMantissa ∧ minExponent < x.exponent
    then value - 1 else value - 2
  let high := value + 2
  let below := value * num / den
  let above := below + 1
  let closed := x.mantissa % 2 == 0
  let belowFits := low * num < below * den || (closed && low * num == below * den)
  let aboveFits := above * den < high * num || (closed && above * den == high * num)
  let middle := (below + above) * den
  if belowFits && aboveFits then
    if 2 * value * num < middle then some ⟨below, scale⟩
    else if middle < 2 * value * num then some ⟨above, scale⟩
    else if below % 2 = 0 then some ⟨below, scale⟩
    else some ⟨above, scale⟩
  else if belowFits then some ⟨below, scale⟩
  else if aboveFits then some ⟨above, scale⟩
  else none

/-- The first of the grids `10 ^ scale`, `10 ^ (scale - 1)`, … with a point for the magnitude. -/
def firstGrid (x : Binary64) : Nat → Int → Decimal
  | 0, scale => ⟨0, scale⟩
  | steps + 1, scale => (x.onGrid? scale).getD (firstGrid x steps (scale - 1))

/-- The fewest digits that read back as the magnitude, without trailing zeros. The first grid is
coarser than the value, and eighteen places below it every grid has a point. -/
def shortest (x : Binary64) : Decimal :=
  if x.mantissa = 0 then
    ⟨0, 0⟩
  else
    firstGrid x 24 (((x.mantissa.log2 : Int) + x.exponent + 1) * 30103 / 100000 + 2)

end ApiEmit.Binary64
