import Lisplet.Decimal

set_option autoImplicit false

/-! # Doubles

A `Double` is a binary64 number given by its 64 bits, so that equality of doubles is equality of bits
and every question about one can be put in terms of natural numbers. The lower 63 bits read as a
number are its `magnitude`; magnitudes are ordered as the absolute values are, which makes both
directions short:

* `Double.units` decodes a finite magnitude as a multiple of the smallest positive double,
  `2 ^ (-1074)`;
* `Double.nearest` takes a fraction to the magnitude of the nearest double, ties to the even one,
  with gradual underflow and with infinity past the largest finite double. -/

namespace Lisplet

/-- A binary64 number, as its bit pattern. -/
structure Double where
  bits : UInt64
deriving DecidableEq, Inhabited

/-- The quotient `num / den` rounded to the nearest natural number, a half to the even one. -/
def roundedQuotient (num den : Nat) : Nat :=
  let quotient := num / den
  let rest := num % den
  if 2 * rest < den ∨ 2 * rest = den ∧ quotient % 2 = 0 then quotient else quotient + 1

namespace Double

/-- The magnitude of infinity; larger magnitudes are those of the NaNs. -/
def infiniteMagnitude : Nat := 2047 * Nat.pow 2 52

/-- The double with the given sign and magnitude. -/
def ofMagnitude (negative : Bool) (magnitude : Nat) : Double :=
  ⟨UInt64.ofNat (magnitude + if negative then Nat.pow 2 63 else 0)⟩

/-- Whether the sign bit is set. -/
def isNegative (d : Double) : Bool := Nat.pow 2 63 ≤ d.bits.toNat

/-- The bits below the sign bit, as a number. -/
def magnitude (d : Double) : Nat := d.bits.toNat % Nat.pow 2 63

def isNaN (d : Double) : Bool := infiniteMagnitude < d.magnitude

def isInfinite (d : Double) : Bool := d.magnitude = infiniteMagnitude

def isFinite (d : Double) : Bool := d.magnitude < infiniteMagnitude

/-- The absolute value of a finite double as a multiple of `2 ^ (-1074)`: below `2 ^ 52` the
    magnitude itself, above it the significand shifted by the biased exponent less one. -/
def units (d : Double) : Nat :=
  let exponent := d.magnitude / Nat.pow 2 52
  let fraction := d.magnitude % Nat.pow 2 52
  if exponent = 0 then fraction else (Nat.pow 2 52 + fraction) * Nat.pow 2 (exponent - 1)

/-- The magnitude of the double nearest to `num / den`. The fraction is scaled to multiples of
    `2 ^ (-1074)` and cut to 53 significant bits by a shift; a significand that rounds up to
    `2 ^ 53` carries into the exponent by the addition. -/
def nearestMagnitude (num den : Nat) : Nat :=
  let scaled := num * Nat.pow 2 1074
  let shift := (scaled / den).log2 - 52
  min (shift * Nat.pow 2 52 + roundedQuotient scaled (den * Nat.pow 2 shift)) infiniteMagnitude

/-- The double nearest to the fraction `num / den` taken with a sign, ties to even. -/
def nearest (negative : Bool) (num den : Nat) : Double :=
  ofMagnitude negative (nearestMagnitude num den)

/-- The double nearest to a decimal taken with a sign; zero keeps the sign. -/
def ofDecimal (negative : Bool) (d : Decimal) : Double :=
  nearest negative d.coefficient (Nat.pow 10 d.places)

end Double

end Lisplet
