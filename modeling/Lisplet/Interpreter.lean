import Lisplet.Eval.Evaluate

set_option autoImplicit false

/-! # Interpreters

An interpreter is a tree of scopes in which texts are run. They are run in the root scope, form by
form; the first fault ends a text and leaves the interpreter with everything that was done before. -/

namespace Lisplet

/-- A tree of scopes to run texts in. -/
structure Interpreter where
  tree : ScopeTree

namespace Interpreter

/-- How deep expansion and evaluation may be nested in each other. It leaves some twenty passes to
    each of two hundred nested scopes and ends the runs that would nest forever. -/
def budget : Nat := 4000

/-- An interpreter with nothing defined but `nil`, `true` and `false`. -/
def fresh (setup : Setup) (ns : String) : Interpreter := ⟨ScopeTree.root setup ns⟩

/-- The setup of an interpreter is that of its root scope. -/
def setup (i : Interpreter) : Setup := (i.tree.scope ScopeTree.rootId).setup

/-- The two passes of an interpreter, which are the same for all. -/
def passes (_ : Interpreter) : Passes := Passes.within budget

/-- Perform a computation: its outcome, and the interpreter after it. -/
def perform {α : Type} (i : Interpreter) (computation : Eval α) : Except Fault α × Interpreter :=
  match computation.run i.tree with
  | .ok value tree => (.ok value, ⟨tree⟩)
  | .error fault tree => (.error fault, ⟨tree⟩)

/-- Run all forms of a text in a scope; the value is that of the last form, or the empty list. -/
def evalIn (i : Interpreter) (id : ScopeId) (text : String) : Except Fault Node × Interpreter :=
  i.perform (i.passes.runReadings id .misread .nil (Form.readAll text))

/-- Run all forms of a text in the root scope. -/
def eval (i : Interpreter) (text : String) : Except Fault Node × Interpreter :=
  i.evalIn ScopeTree.rootId text

/-- Run all forms of a file in the root scope, as a call of `load` does. -/
def evalFile (i : Interpreter) (path : String) : Except Fault Node × Interpreter :=
  i.perform (i.passes.run ScopeTree.rootId (.call (QName.plain "load") [.string path]))

/-- Treat the forms of a text one after the other and keep all results. -/
def mapReadings (act : Node → Eval Node) : List Reading → Eval (List Node)
  | [] => return []
  | .error e :: _ => throw (.misread e)
  | .ok form :: rest => do
    let result ← act form
    return result :: (← mapReadings act rest)

/-- The expanded forms of a text; they are not evaluated, but macros do run. -/
def expand (i : Interpreter) (text : String) : Except Fault (List Node) × Interpreter :=
  i.perform (mapReadings (i.passes.expand ScopeTree.rootId) (Form.readAll text))

/-- The values of all forms of a text in a scope. -/
def valuesIn (i : Interpreter) (id : ScopeId) (text : String) :
    Except Fault (List Node) × Interpreter :=
  i.perform (mapReadings (i.passes.run id) (Form.readAll text))

end Interpreter

end Lisplet
