import Lisplet.Double.Printer

set_option autoImplicit false

/-! # Tokens

A token is a lexeme with the part of the source it was read from. Lexemes that carry a value hold it
decoded: a number its double, a string, symbol or keyword its text without quotes or colon. -/

namespace Lisplet

/-- A place in a source text. Lines are counted from one. A column is the number of characters since
    the start of the first line, or since the newline before, that newline included: the newline
    itself is column one of the line that it opens. -/
structure Pos where
  line : Nat
  col : Nat
deriving DecidableEq, Inhabited

namespace Pos

/-- The place just before the first character. -/
def start : Pos := ⟨1, 0⟩

/-- The place of the character that follows the one at `p`; the end of the text has a place too. -/
def onto (p : Pos) : Option Char → Pos
  | some '\n' => ⟨p.line + 1, 1⟩
  | _ => ⟨p.line, p.col + 1⟩

/-- The place reached from the first of `chars`, which is at `p`, by going on for `count`
    characters. -/
def advance (p : Pos) : List Char → Nat → Pos
  | _ :: rest, count + 1 => advance (p.onto rest.head?) rest count
  | _, _ => p

def text (p : Pos) : String := toString p.line ++ ":" ++ toString p.col

end Pos

/-- A stretch of a source text, from its first character to the one after its last. -/
structure Span where
  first : Pos
  past : Pos
deriving DecidableEq, Inhabited

/-- The two kinds of brackets: round ones for lists and square ones for vectors. -/
inductive Bracket where
  | round
  | square
deriving DecidableEq, Inhabited

namespace Bracket

def opener : Bracket → String
  | .round => "("
  | .square => "["

def closer : Bracket → String
  | .round => ")"
  | .square => "]"

end Bracket

/-- The marks that quote or unquote the form after them. -/
inductive Mark where
  | quote
  | unquote
  | unquoteSplicing
  | syntaxQuote
deriving DecidableEq, Inhabited

namespace Mark

/-- The mark as it is written. -/
def text : Mark → String
  | .quote => "'"
  | .unquote => "~"
  | .unquoteSplicing => "~@"
  | .syntaxQuote => "`"

/-- The head of the list that the mark and its form abbreviate. -/
def name : Mark → String
  | .quote => "quote"
  | .unquote => "unquote"
  | .unquoteSplicing => "unquote-splicing"
  | .syntaxQuote => "syntax-quote"

end Mark

/-- The smallest meaningful pieces of source text. -/
inductive Lexeme where
  | number (value : Double)
  | string (text : String)
  | symbol (text : String)
  | keyword (text : String)
  | opening (bracket : Bracket)
  | closing (bracket : Bracket)
  | mark (mark : Mark)
deriving DecidableEq, Inhabited

/-- The canonical way to write a lexeme; a number is written in its shortest form. -/
def Lexeme.text : Lexeme → String
  | .number d => d.text
  | .string s => "\"" ++ s ++ "\""
  | .symbol s => s
  | .keyword s => ":" ++ s
  | .opening b => b.opener
  | .closing b => b.closer
  | .mark m => m.text

/-- A lexeme and where it stands. -/
structure Token where
  lexeme : Lexeme
  span : Span
deriving DecidableEq, Inhabited

end Lisplet
