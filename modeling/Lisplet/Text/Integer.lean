import Lisplet.Text.Blank

set_option autoImplicit false

/-! # Reading whole numbers

A whole number may be written with the decimal digits of any script, with a sign, with single
underscores between digits and with blanks around it. -/

namespace Lisplet

namespace Text

/-- The code points of the zeros of all scripts; the other nine digits follow each of them. -/
def zeroCodes : List Nat :=
  [0x30, 0x660, 0x6f0, 0x7c0, 0x966, 0x9e6, 0xa66, 0xae6, 0xb66, 0xbe6, 0xc66, 0xce6, 0xd66, 0xde6,
   0xe50, 0xed0, 0xf20, 0x1040, 0x1090, 0x17e0, 0x1810, 0x1946, 0x19d0, 0x1a80, 0x1a90, 0x1b50,
   0x1bb0, 0x1c40, 0x1c50, 0xa620, 0xa8d0, 0xa900, 0xa9d0, 0xa9f0, 0xaa50, 0xabf0, 0xff10, 0x104a0,
   0x10d30, 0x11066, 0x110f0, 0x11136, 0x111d0, 0x112f0, 0x11450, 0x114d0, 0x11650, 0x116c0,
   0x11730, 0x118e0, 0x11950, 0x11c50, 0x11d50, 0x11da0, 0x16a60, 0x16ac0, 0x16b50, 0x1d7ce,
   0x1d7d8, 0x1d7e2, 0x1d7ec, 0x1d7f6, 0x1e140, 0x1e2f0, 0x1e950, 0x1fbf0]

/-- The value of a decimal digit. -/
def digitValue? (c : Char) : Option Nat :=
  (zeroCodes.find? (fun code => code ≤ c.toNat && c.toNat < code + 10)).map (c.toNat - ·)

/-- The blanks that may stand around a number: all of them but the information separators. -/
def isNumberBlank (c : Char) : Bool := isBlank c && !(0x1c ≤ c.toNat && c.toNat ≤ 0x1f)

/-- The greatest number of digits that is read. -/
def digitLimit : Nat := 4300

/-- The digits of a numeral after one that has just been read; an underscore needs a digit on both
    sides. -/
def digitsAfterDigit : List Char → Option (List Nat)
  | [] => some []
  | ['_'] => none
  | '_' :: c :: rest => do
    let digit ← digitValue? c
    return digit :: (← digitsAfterDigit rest)
  | c :: rest => do
    let digit ← digitValue? c
    return digit :: (← digitsAfterDigit rest)

/-- The digits of a numeral, of which there is at least one. -/
def digitsOf : List Char → Option (List Nat)
  | [] => none
  | c :: rest => do
    let digit ← digitValue? c
    return digit :: (← digitsAfterDigit rest)

/-- The number with these digits, the most significant one first. -/
def ofDigitValues (digits : List Nat) : Nat := digits.foldl (fun value digit => 10 * value + digit) 0

/-- The value of a numeral without sign and blanks. -/
def natural? (numeral : List Char) : Option Nat := do
  let digits ← digitsOf numeral
  if digits.length ≤ digitLimit then some (ofDigitValues digits) else none

/-- Read a whole number. -/
def integer? (text : String) : Option Int :=
  match trimList isNumberBlank text.toList with
  | '-' :: numeral => (natural? numeral).map (fun n => -(n : Int))
  | '+' :: numeral => (natural? numeral).map (fun n => (n : Int))
  | numeral => (natural? numeral).map (fun n => (n : Int))

example : integer? " +1_000 " = some 1000 := by decide +kernel

example : integer? "-٣" = some (-3) := by decide +kernel

example : integer? "1__0" = none := by decide +kernel

example : integer? "- 1" = none := by decide +kernel

end Text

end Lisplet
