import Lisplet.CommandLine
import Lisplet.Directory
import Lisplet.Repl
import Lisplet.Settings

set_option autoImplicit false

/-! # The program

A run of the program as a function of its arguments, environment, files and input. A script is run
to its first fault; without a script there is a session at the prompt. What is logged goes to the
error channel. -/

namespace Lisplet

namespace Program

/-- What a finished run shows. -/
structure Outcome where
  code : Nat
  out : String
  err : String
deriving DecidableEq, Inhabited

/-- The severity from which on a run logs. -/
def threshold (options : CommandLine.Options) (env : Environment) : Nat :=
  if options.verbose then 10 else Settings.logThreshold env

/-- The log of the events after the first `seen` ones, a line each. -/
def logSince (threshold seen : Nat) (tree : ScopeTree) : String :=
  String.join ((Event.logLines threshold (tree.events.drop seen)).map (· ++ "\n"))

/-- Run a script; the result is what has to be said about it. -/
def runScript (i : Interpreter) (path : String) : Option Fault × Interpreter :=
  let (outcome, i) := ({ i with tree := i.tree.record (.running path) } : Interpreter).evalFile path
  match outcome with
  | .ok _ => (none, i)
  | .error fault => (some fault, i)

/-- Run with valid options. -/
def runOptions (options : CommandLine.Options) (env : Environment) (files : String → FileReply)
    (input : String) : Except Settings.Error Outcome := do
  let i ← Interpreter.ofSettings env files options.ns none
  let logOf (i : Interpreter) := logSince (threshold options env) 0 i.tree
  match options.script with
  | some path =>
    let (fault, i) := runScript i path
    match fault with
    | none => return ⟨0, "", logOf i⟩
    | some fault => return ⟨1, "", logOf i ++ fault.message ++ "\n"⟩
  | none =>
    let (out, i) := Repl.transcript i input
    return ⟨0, out, logOf i⟩

/-- Run the program. Only a bad setting of the depth limit keeps it from having an outcome. -/
def run (args : List String) (env : Environment) (files : String → FileReply) (input : String) :
    Except Settings.Error Outcome :=
  match CommandLine.parse args with
  | .error e => .ok ⟨2, "", CommandLine.complaint e⟩
  | .ok .help => .ok ⟨0, CommandLine.help, ""⟩
  | .ok (.run options) => runOptions options env files input

end Program

end Lisplet
