import Lisplet.Program

set_option autoImplicit false

/-! # The executable

The only part of the project that talks to the outside: it prints, reads lines and reads files.
Everything it shows is computed by the library. Since a step of the interpreter is a function, a step
that asks for files is tried, the files it asked for are read, and the step is taken again from the
same interpreter with their contents known. -/

namespace Lisplet

namespace Main

/-- A path without the names that do not matter, as the file system gets it. -/
def cleanPath (path : String) : String :=
  (if path.startsWith "/" then "/" else "") ++ "/".intercalate (Directory.names path)

/-- Read a file. What is there and is no file counts as missing. -/
def fetch (path : String) : IO FileReply := do
  try
    return Directory.replyOf (← IO.FS.readBinFile (cleanPath path)).toList
  catch
    | .noFileOrDirectory .. | .inappropriateType .. | .noSuchThing .. => return .missing
    | error => return .unreadable (toString error)

/-- The interpreter with the contents of some files. -/
def withFiles (i : Interpreter) (known : List (String × FileReply)) : Interpreter :=
  let files path := (known.lookup path).getD .missing
  ⟨i.tree.update ScopeTree.rootId fun root => { root with setup := { root.setup with files } }⟩

/-- The paths that were asked for after `before` and are not known. -/
def wanted (before after : Interpreter) (known : List (String × FileReply)) : List String :=
  (after.tree.events.drop before.tree.journal.length).filterMap fun
    | .asked path => if (known.lookup path).isSome then none else some path
    | _ => none

/-- Take a step with all the files it asks for. -/
partial def settle {α : Type} (i : Interpreter) (step : Interpreter → α × Interpreter)
    (known : List (String × FileReply)) : IO (α × Interpreter) := do
  let (result, after) := step (withFiles i known)
  match wanted i after known with
  | [] => return (result, after)
  | path :: _ => settle i step ((path, ← fetch path) :: known)

/-- Log what happened after `before`. -/
def logStep (threshold : Nat) (before after : Interpreter) : IO Unit :=
  IO.eprint (Program.logSince threshold before.tree.journal.length after.tree)

/-- Answer lines until the input ends. -/
partial def converse (threshold : Nat) (i : Interpreter) : IO Unit := do
  let stdout ← IO.getStdout
  stdout.putStr Repl.promptText
  stdout.flush
  let line ← (← IO.getStdin).getLine
  if line.isEmpty then
    stdout.putStr "\n"
  else
    let (reply, after) ← settle i (Repl.answer · line) []
    logStep threshold i after
    stdout.putStr reply
    converse threshold after

/-- Run a script or a session at the prompt. -/
def start (options : CommandLine.Options) (threshold : Nat) (i : Interpreter) : IO UInt32 := do
  match options.script with
  | none =>
    converse threshold i
    return 0
  | some path =>
    let (fault, after) ← settle i (Program.runScript · path) []
    logStep threshold i after
    match fault with
    | none => return 0
    | some fault =>
      IO.eprintln fault.message
      return 1

/-- The variables that matter. -/
def environment : IO Environment := do
  let names := [Settings.namespaceVariable, Settings.depthVariable, Settings.levelVariable]
  let values ← names.mapM fun name => return (name, ← IO.getEnv name)
  return fun name => (values.lookup name).join

/-- Do what the command line asks for. -/
def run (args : List String) : IO UInt32 := do
  match CommandLine.parse args with
  | .error e =>
    IO.eprint (CommandLine.complaint e)
    return 2
  | .ok .help =>
    IO.print CommandLine.help
    return 0
  | .ok (.run options) =>
    let env ← environment
    match Interpreter.ofSettings env (fun _ => .missing) options.ns none with
    | .error e =>
      IO.eprintln e.message
      return 1
    | .ok i => start options (Program.threshold options env) i

end Main

end Lisplet

def main (args : List String) : IO UInt32 := Lisplet.Main.run args
