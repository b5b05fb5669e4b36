import Lisplet.Token.Basic

set_option autoImplicit false

/-! # From characters to tokens

`scan` recognises one lexeme at the front of a text and says how many characters it takes, or which
character makes it impossible. It knows nothing of positions; `Tokens.readFrom` adds them, skips the
blanks and comments between lexemes and stops for good at the first character that fits nowhere.

Words (symbols, keywords and numbers) are as long as possible: they end at a blank, at a closing
bracket, at a comment or at the end of the text, and nowhere else. -/

namespace Lisplet

namespace Lexeme

/-! ## Classes of characters -/

/-- The characters that may stand between tokens. -/
def isBlank (c : Char) : Bool := c == ' ' || c == '\t' || c == '\r' || c == '\n'

/-- The characters that end a word. -/
def endsWord (c : Char) : Bool := isBlank c || c == ')' || c == ']' || c == ';'

def isSign (c : Char) : Bool := c == '+' || c == '-'

/-- The characters other than signs that start a symbol. -/
def startsSymbol (c : Char) : Bool :=
  c.isAlpha || c == '/' || c == '*' || c == '%' || c == '>' || c == '<' || c == '='

/-- The characters that may follow the colon of a keyword. -/
def startsKeyword (c : Char) : Bool := startsSymbol c || c.isDigit || isSign c

/-- The longest word at the front of a text. -/
def word (chars : List Char) : List Char := chars.takeWhile (!endsWord ·)

/-! ## One lexeme -/

/-- What is found at the front of a text: a lexeme of `length` characters, or none because of the
    character at `offset`, where an offset equal to the length of the text stands for its end. -/
inductive Scan where
  | found (lexeme : Lexeme) (length : Nat)
  | invalid (offset : Nat)
deriving DecidableEq

/-- The same finding when `count` more characters stand in front. -/
def Scan.shift (count : Nat) : Scan → Scan
  | .found lexeme length => .found lexeme (count + length)
  | .invalid offset => .invalid (count + offset)

/-- A finding that holds only if a word ends before `rest`. -/
def wholeWord (lexeme : Lexeme) (length : Nat) : List Char → Scan
  | [] => .found lexeme length
  | c :: _ => if endsWord c then .found lexeme length else .invalid length

/-- A number without its sign: digits and at most one point, which has a digit before it. -/
def scanNumber (negative : Bool) (chars : List Char) : Scan :=
  let whole := chars.takeWhile Char.isDigit
  match chars.dropWhile Char.isDigit with
  | '.' :: rest =>
    let fraction := rest.takeWhile Char.isDigit
    wholeWord (.number (Double.ofDecimal negative (Decimal.ofDigits whole fraction)))
      (whole.length + (1 + fraction.length)) (rest.dropWhile Char.isDigit)
  | rest =>
    wholeWord (.number (Double.ofDecimal negative (Decimal.ofDigits whole []))) whole.length rest

/-- A symbol: the longest word. -/
def scanSymbol (chars : List Char) : Scan :=
  .found (.symbol (String.ofList (word chars))) (word chars).length

/-- The rest of a string after its opening quote: everything up to the next quote, as it stands. -/
def scanString (chars : List Char) : Scan :=
  let text := chars.takeWhile (· != '"')
  match chars.dropWhile (· != '"') with
  | [] => .invalid text.length
  | _ :: _ => .found (.string (String.ofList text)) (text.length + 1)

/-- The rest of a keyword after its colon. -/
def scanKeyword (chars : List Char) : Scan :=
  match chars with
  | [] => .invalid 0
  | c :: _ =>
    if startsKeyword c then .found (.keyword (String.ofList (word chars))) (word chars).length
    else .invalid 0

/-- The lexeme at the front of the text `first :: rest`. A sign starts a number only right before a
    digit. -/
def scan (first : Char) (rest : List Char) : Scan :=
  if isSign first then
    if rest.head?.any Char.isDigit then (scanNumber (first == '-') rest).shift 1
    else scanSymbol (first :: rest)
  else if startsSymbol first then scanSymbol (first :: rest)
  else if first.isDigit then scanNumber false (first :: rest)
  else match first with
    | '"' => (scanString rest).shift 1
    | ':' => (scanKeyword rest).shift 1
    | '~' => if rest.head? = some '@' then .found (.mark .unquoteSplicing) 2
             else .found (.mark .unquote) 1
    | '\'' => .found (.mark .quote) 1
    | '\x60' => .found (.mark .syntaxQuote) 1
    | '(' => .found (.opening .round) 1
    | ')' => .found (.closing .round) 1
    | '[' => .found (.opening .square) 1
    | ']' => .found (.closing .square) 1
    | _ => .invalid 0

/-! ## Between lexemes -/

/-- Whether `c` belongs to the gap between two tokens and, if so, whether a comment goes on after
    it. A comment runs from a semicolon up to the next newline. -/
def gapGoesOn (inComment : Bool) (c : Char) : Option Bool :=
  if inComment && c != '\n' then some true
  else if isBlank c then some false
  else if c == ';' then some true
  else none

/-- The text after the gap at its front, with the position of its first character. -/
def skipGap (inComment : Bool) (pos : Pos) : List Char → Pos × List Char
  | [] => (pos, [])
  | c :: rest =>
    match gapGoesOn inComment c with
    | some inComment => skipGap inComment (pos.onto rest.head?) rest
    | none => (pos, c :: rest)

theorem length_skipGap_le (inComment : Bool) (pos : Pos) (chars : List Char) :
    (skipGap inComment pos chars).2.length ≤ chars.length := by
  induction chars generalizing inComment pos with
  | nil => simp [skipGap]
  | cons c rest ih =>
    unfold skipGap
    split
    · exact Nat.le_succ_of_le (ih _ _)
    · exact Nat.le_refl _

end Lexeme

/-! ## All of a text -/

/-- The tokens of a text up to its end, or up to the character that fits nowhere. -/
structure Tokens where
  tokens : List Token
  invalid : Option Pos
deriving DecidableEq

namespace Tokens

/-- The tokens of a text whose first character is at `pos`. -/
def readFrom (pos : Pos) (chars : List Char) : Tokens :=
  match _gap : Lexeme.skipGap false pos chars with
  | (_, []) => ⟨[], none⟩
  | (first, c :: rest) =>
    match Lexeme.scan c rest with
    | .invalid offset => ⟨[], some (first.advance (c :: rest) offset)⟩
    | .found lexeme length =>
      let past := first.advance (c :: rest) length
      let others := readFrom past (rest.drop (length - 1))
      ⟨⟨lexeme, ⟨first, past⟩⟩ :: others.tokens, others.invalid⟩
termination_by chars.length
decreasing_by
  have := Lexeme.length_skipGap_le false pos chars
  simp only [_gap, List.length_cons] at this
  simp only [List.length_drop]
  omega

/-- The tokens of a source text. -/
def ofSource (source : List Char) : Tokens := readFrom (Pos.start.onto source.head?) source

end Tokens

end Lisplet
