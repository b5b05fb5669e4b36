set_option autoImplicit false

/-! # Exact decimals

A `Decimal` is a non-negative number written with finitely many decimal places. It stands between
the text of a number and the binary number nearest to it: number literals are read into a `Decimal`
without loss, and a number is printed by choosing a `Decimal` for it first. -/

namespace Lisplet

/-- The number `coefficient / 10 ^ places`. -/
structure Decimal where
  coefficient : Nat
  places : Nat
deriving DecidableEq, Inhabited

namespace Decimal

/-- The decimal whose text has the digits `whole` before the point and `fraction` after it. -/
def ofDigits (whole fraction : List Char) : Decimal :=
  ⟨Nat.ofDigitChars 10 (whole ++ fraction) 0, fraction.length⟩

/-- Drop the zeros at the end of the fraction. -/
def dropZeros : Nat → Nat → Decimal
  | coefficient, 0 => ⟨coefficient, 0⟩
  | coefficient, places + 1 =>
    if coefficient % 10 = 0 then dropZeros (coefficient / 10) places
    else ⟨coefficient, places + 1⟩

/-- The same number with as few places as it can be written with. -/
def trim (d : Decimal) : Decimal := dropZeros d.coefficient d.places

/-- The digits of the coefficient, with zeros in front so that at least one of them stands before
    the point. -/
def digits (d : Decimal) : List Char := (Nat.toDigits 10 d.coefficient).leftpad (d.places + 1) '0'

/-- Positional text: the digits before the point and, if there are places, the point and the digits
    after it. -/
def text (d : Decimal) : String :=
  let before := d.digits.length - d.places
  if d.places = 0 then String.ofList d.digits
  else String.ofList (d.digits.take before ++ '.' :: d.digits.drop before)

/-- Trimming keeps the number: cross-multiplied, the two fractions agree. -/
theorem coefficient_dropZeros (coefficient places : Nat) :
    (dropZeros coefficient places).coefficient * Nat.pow 10 places
      = coefficient * Nat.pow 10 (dropZeros coefficient places).places := by
  induction places generalizing coefficient with
  | zero => rfl
  | succ places ih =>
    unfold dropZeros
    split
    · next h =>
      have hc : coefficient / 10 * 10 = coefficient := by omega
      have hp : Nat.pow 10 (places + 1) = Nat.pow 10 places * 10 := rfl
      rw [hp, ← Nat.mul_assoc, ih]
      generalize Nat.pow 10 (dropZeros (coefficient / 10) places).places = k
      rw [Nat.mul_right_comm, hc]
    · rfl

end Decimal

end Lisplet
