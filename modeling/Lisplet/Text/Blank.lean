set_option autoImplicit false

/-! # Blank characters

The characters that count as white space in settings and in lines typed at the prompt: the Unicode
white space characters and the four information separators. Source texts have a narrower notion of
their own, since only four characters may stand between tokens. -/

namespace Lisplet

namespace Text

/-- The code points of the blank characters. -/
def blankCodes : List Nat :=
  [0x09, 0x0a, 0x0b, 0x0c, 0x0d, 0x1c, 0x1d, 0x1e, 0x1f, 0x20, 0x85, 0xa0, 0x1680,
   0x2000, 0x2001, 0x2002, 0x2003, 0x2004, 0x2005, 0x2006, 0x2007, 0x2008, 0x2009, 0x200a,
   0x2028, 0x2029, 0x202f, 0x205f, 0x3000]

def isBlank (c : Char) : Bool := blankCodes.contains c.toNat

/-- Whether a text has nothing but blanks. -/
def allBlank (text : String) : Bool := text.toList.all isBlank

/-- Drop the elements that satisfy `p` at both ends of a list. -/
def trimList {α : Type} (p : α → Bool) (items : List α) : List α :=
  (((items.dropWhile p).reverse).dropWhile p).reverse

/-- A text without the blanks at its ends. -/
def strip (text : String) : String := String.ofList (trimList isBlank text.toList)

end Text

end Lisplet
