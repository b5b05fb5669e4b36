import Lisplet.Interpreter
import Lisplet.Text.Blank

set_option autoImplicit false

/-! # The prompt

A session at the prompt reads lines and answers each with the value of its last form or with what
went wrong; blank lines get no answer. It ends with the input. -/

namespace Lisplet

namespace Repl

def promptText : String := "-> "

/-- The lines of a text, each with the newline at its end; only the last one may lack it. -/
def lines : List Char → List (List Char)
  | [] => []
  | c :: rest =>
    if c = '\n' then [c] :: lines rest
    else match lines rest with
      | [] => [[c]]
      | line :: others => (c :: line) :: others

/-- What is printed for the outcome of a line. -/
def outcomeText : Except Fault Node → String
  | .ok value => value.text ++ "\n"
  | .error fault =>
    "Whoops, error detected.\n" ++ fault.message ++ ".\nPlease, try again...\n"

/-- The answer to one line, and the interpreter after it. -/
def answer (i : Interpreter) (line : String) : String × Interpreter :=
  if Text.allBlank line then ("", i)
  else
    let (outcome, i) := i.eval line
    (outcomeText outcome, i)

/-- Everything printed in a session with these lines, and the interpreter after it. -/
def session (i : Interpreter) : List String → String × Interpreter
  | [] => (promptText ++ "\n", i)
  | line :: rest =>
    let (reply, i) := answer i line
    let (others, i) := session i rest
    (promptText ++ reply ++ others, i)

/-- Everything printed in a session with this input, and the interpreter after it. -/
def transcript (i : Interpreter) (input : String) : String × Interpreter :=
  session i ((lines input.toList).map String.ofList)

end Repl

end Lisplet
