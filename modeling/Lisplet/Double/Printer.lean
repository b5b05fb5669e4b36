import Lisplet.Double.Basic

set_option autoImplicit false

/-! # The text of a double

A finite double is printed with the fewest significant digits from which it can be read back, always
positionally and without a point when the number is whole. Of the decimals with that many digits the
one nearest to the double is taken, and of two equally near ones the one with an even last digit.

Every finite double is a whole multiple of `10 ^ (-1074)`, so the search runs over natural numbers:
the double's own multiple is cut after one, two, three … of its digits. It ends at the latest when
no digit is cut off, where the decimal is the double itself and reads back. -/

namespace Lisplet

namespace Double

/-- The absolute value of a finite double as a multiple of `10 ^ (-1074)`. -/
def decimalUnits (d : Double) : Nat := d.units * Nat.pow 5 1074

/-- The decimal `coefficient * 10 ^ exponent * 10 ^ (-1074)`. -/
def gridPoint (coefficient exponent : Nat) : Decimal :=
  if exponent < 1074 then ⟨coefficient, 1074 - exponent⟩
  else ⟨coefficient * Nat.pow 10 (exponent - 1074), 0⟩

/-- Whether the decimal, with the sign of `d`, is nearest to `d` of all doubles. -/
def isReadFrom (d : Double) (decimal : Decimal) : Bool :=
  ofDecimal d.isNegative decimal == d

/-- Whether `total` lies below the middle between `cut` and `cut + 1` times `step`, where the middle
    itself counts as below when `cut` is even. -/
def isNearerBelow (total cut step : Nat) : Bool :=
  let rest := total - cut * step
  2 * rest < step || (2 * rest == step && cut % 2 == 0)

/-- The better of two candidates: one that reads back, and of two such ones the nearer. -/
def betterOf (reads : Decimal → Bool) (nearerBelow : Bool) (below above : Decimal) :
    Option Decimal :=
  match reads below, reads above with
  | true, true => some (if nearerBelow then below else above)
  | true, false => some below
  | false, true => some above
  | false, false => none

/-- The better of the two neighbours of `d` on the grid of the decimals that are multiples of
    `10 ^ exponent * 10 ^ (-1074)`, if one of them reads back. -/
def onGrid? (d : Double) (exponent : Nat) : Option Decimal :=
  let step := Nat.pow 10 exponent
  let cut := d.decimalUnits / step
  betterOf d.isReadFrom (isNearerBelow d.decimalUnits cut step)
    (gridPoint cut exponent) (gridPoint (cut + 1) exponent)

/-- The first hit on the grids with `exponent`, `exponent - 1`, … cut off digits; the grid on which
    nothing is cut off holds the double itself. -/
def firstOnGrid (d : Double) : Nat → Decimal
  | 0 => gridPoint d.decimalUnits 0
  | exponent + 1 => (d.onGrid? (exponent + 1)).getD (firstOnGrid d exponent)

/-- The number of digits after the first in the decimal text of `n`. The fraction is a lower bound
    of the decimal logarithm of two, close enough that the product falls short by at most one for
    the sizes that doubles have. -/
def digitsAfterFirst (n : Nat) : Nat :=
  let low := n.log2 * 1233 / 4096
  if Nat.pow 10 (low + 1) ≤ n then low + 1 else low

/-- The decimal that stands for the absolute value of a finite double in its text. -/
def shortest (d : Double) : Decimal := (d.firstOnGrid (digitsAfterFirst d.decimalUnits)).trim

/-- The printed form of a double. -/
def text (d : Double) : String :=
  if d.isNaN then "NaN"
  else
    let sign := if d.isNegative then "-" else ""
    if d.isInfinite then sign ++ "inf" else sign ++ d.shortest.text

/-! ## The format by example

One, one half, one tenth, negative zero, `1e23` and the smallest positive double. -/

example : (⟨0x3ff0000000000000⟩ : Double).text = "1" := by decide +kernel

example : (⟨0x3fe0000000000000⟩ : Double).text = "0.5" := by decide +kernel

example : (⟨0x3fb999999999999a⟩ : Double).text = "0.1" := by decide +kernel

example : (⟨0x8000000000000000⟩ : Double).text = "-0" := by decide +kernel

example : (⟨0x44b52d02c7e14af6⟩ : Double).text = "100000000000000000000000" := by decide +kernel

example : (⟨1⟩ : Double).shortest = ⟨5, 324⟩ := by decide +kernel

end Double

end Lisplet
