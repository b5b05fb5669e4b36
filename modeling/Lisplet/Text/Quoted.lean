import Lisplet.Text.Printable

set_option autoImplicit false

/-! # Quoted text

Messages that cite a text put it in quotes and write what would not show as an escape: a backslash,
the quote in use, and every character that is not printable. -/

namespace Lisplet

namespace Text

/-- The hexadecimal digits of a number, with zeros in front up to a width. -/
def hex (width n : Nat) : String := String.ofList ((Nat.toDigits 16 n).leftpad width '0')

/-- Single quotes are used, unless the text has some and has no double quote. -/
def quoteFor (text : String) : Char :=
  if text.toList.contains '\'' && !text.toList.contains '"' then '"' else '\''

/-- A character as it is written between quotes. -/
def escaped (quote c : Char) : String :=
  if c = quote || c = '\\' then String.ofList ['\\', c]
  else if c = '\t' then "\\t"
  else if c = '\n' then "\\n"
  else if c = '\r' then "\\r"
  else if isPrintable c then String.singleton c
  else if c.toNat < 0x100 then "\\x" ++ hex 2 c.toNat
  else if c.toNat < 0x10000 then "\\u" ++ hex 4 c.toNat
  else "\\U" ++ hex 8 c.toNat

/-- A text in quotes. -/
def quoted (text : String) : String :=
  let quote := quoteFor text
  String.singleton quote ++ String.join (text.toList.map (escaped quote)) ++ String.singleton quote

example : quoted "abc" = "'abc'" := by decide +kernel

example : quoted "it's" = "\"it's\"" := by decide +kernel

example : quoted "a\tb\x1b\u2028" = "'a\\tb\\x1b\\u2028'" := by decide +kernel

end Text

end Lisplet
