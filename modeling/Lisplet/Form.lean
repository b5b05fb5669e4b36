import Lisplet.Node.Basic
import Lisplet.Token.Lexer

set_option autoImplicit false

/-! # From tokens to forms

A source text is read as a sequence of forms. Reading keeps the brackets and marks that are still
open on a stack and handles one token at a time, so it ends with the tokens. An error does not stop
it: a closing bracket that closes nothing is reported, the unfinished form around it is dropped, and
reading goes on with the next token. Only the end of the text, a malformed lexeme and forms nested
deeper than `nestingLimit` end the sequence. -/

namespace Lisplet

/-- Why a form could not be read. -/
inductive ReadError where
  /-- No token can be read at this place. -/
  | invalid (pos : Pos)
  /-- A closing bracket stands where a form should start, or closes the wrong kind of bracket. -/
  | unexpectedToken (token : Token)
  | unexpectedEnd
  | tooDeep
deriving DecidableEq, Inhabited

/-- The wording of a read error. -/
def ReadError.message : ReadError → String
  | .invalid pos => "Invalid syntax at " ++ pos.text
  | .unexpectedToken token =>
    "Unexpected token \"" ++ token.lexeme.text ++ "\" at " ++ token.span.first.text ++ " detected"
  | .unexpectedEnd => "Unexpected end of file detected"
  | .tooDeep => "Too deeply nested form detected"

/-- One result of reading: a form or an error. -/
abbrev Reading := Except ReadError Node

namespace Form

/-- The number of brackets and marks that may be open at the same time. -/
def nestingLimit : Nat := 1000

/-- Something that is open: a bracket with the items read after it, newest first, or a mark that
    waits for its form. -/
inductive Frame where
  | sequence (bracket : Bracket) (items : List Node)
  | marked (mark : Mark)

/-- The form made of a mark and the form after it. -/
def ofMark (mark : Mark) (form : Node) : Node := .list [.symbol (QName.plain mark.name), form]

/-- The form made of brackets and the forms between them, given newest first. -/
def ofItems (bracket : Bracket) (items : List Node) : Node :=
  match bracket with
  | .round => .list items.reverse
  | .square => .vec items.reverse

/-- The effect of one token on the open frames. -/
inductive Step where
  /-- Frames are open; reading goes on. -/
  | within (stack : List Frame)
  /-- The outermost form is complete. -/
  | complete (form : Node)
  | unexpected
  | tooDeep

/-- Hand a finished form to the innermost frame: marks are completed by it, a bracket collects it. -/
def deliver (form : Node) : List Frame → Step
  | [] => .complete form
  | .marked mark :: outer => deliver (ofMark mark form) outer
  | .sequence bracket items :: outer => .within (.sequence bracket (form :: items) :: outer)

/-- Put a new frame on the stack, unless the stack is full. -/
def enter (frame : Frame) (stack : List Frame) : Step :=
  if stack.length < nestingLimit then .within (frame :: stack) else .tooDeep

/-- Close the innermost frame, which has to be a bracket of the same kind. -/
def close (bracket : Bracket) : List Frame → Step
  | .sequence opened items :: outer =>
    if opened = bracket then deliver (ofItems bracket items) outer else .unexpected
  | _ => .unexpected

/-- Handle one token. -/
def step (stack : List Frame) : Lexeme → Step
  | .number d => deliver (.number d) stack
  | .string s => deliver (.string s) stack
  | .symbol s => deliver (.symbol (QName.parse s)) stack
  | .keyword s => deliver (.keyword (QName.parse s)) stack
  | .opening bracket => enter (.sequence bracket []) stack
  | .mark mark => enter (.marked mark) stack
  | .closing bracket => close bracket stack

/-- What remains to be said when the tokens are used up: a malformed lexeme after them, or frames
    that were never closed. -/
def atEnd (invalid : Option Pos) (stack : List Frame) : List Reading :=
  match invalid, stack with
  | some pos, _ => [.error (.invalid pos)]
  | none, [] => []
  | none, _ :: _ => [.error .unexpectedEnd]

/-- Everything that is read from the tokens when the frames on the stack are open. -/
def readFrom (invalid : Option Pos) : List Frame → List Token → List Reading
  | stack, [] => atEnd invalid stack
  | stack, token :: rest =>
    match step stack token.lexeme with
    | .within stack => readFrom invalid stack rest
    | .complete form => .ok form :: readFrom invalid [] rest
    | .unexpected => .error (.unexpectedToken token) :: readFrom invalid [] rest
    | .tooDeep => [.error .tooDeep]

/-- The forms and errors of a token sequence, in order. -/
def ofTokens (tokens : Tokens) : List Reading := readFrom tokens.invalid [] tokens.tokens

/-- The forms and errors of a source text, in order. -/
def readAll (source : String) : List Reading := ofTokens (Tokens.ofSource source.toList)

/-- The forms, provided that there is no error, otherwise the first error. -/
def untilError : List Reading → Except ReadError (List Node)
  | [] => .ok []
  | .error e :: _ => .error e
  | .ok form :: rest => (untilError rest).map (form :: ·)

/-- All forms of a source text, or the first error in it. -/
def parse (source : String) : Except ReadError (List Node) := untilError (readAll source)

end Form

end Lisplet
