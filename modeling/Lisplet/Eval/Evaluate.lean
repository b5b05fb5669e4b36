import Lisplet.Eval.Builtin
import Lisplet.Eval.Expand

set_option autoImplicit false

/-! # Evaluation

Evaluation takes expanded nodes to values. Symbols are looked up, definitions, `let` forms and calls
are carried out, and everything else is its own value. Bodies are kept as they were written down in
their function or macro and are expanded again in the scope of each call. -/

namespace Lisplet

namespace Eval

/-- Bind parameters to values, one by one. -/
def bindAll (id : ScopeId) : List Node → List Node → Eval Unit
  | param :: params, value :: values => do
    bindNode id param value
    bindAll id params values
  | _, _ => return ()

/-- Evaluate the bindings of a `let` in its own scope, so that later ones see earlier ones. -/
def bindLet (p : Passes) (id : ScopeId) : List (Node × Node) → Eval Unit
  | [] => return ()
  | (target, expr) :: rest =>
    match target.bindingName? with
    | some name => do
      bindName id name (← p.run id expr)
      bindLet p id rest
    | none => throw (.nameless target)

/-- Call a function: the arguments are evaluated by the caller, the body runs in a scope of its own. -/
def callFn (p : Passes) (id : ScopeId) (params body : List Node) (head : QName)
    (args : List Node) : Eval Node := do
  let values ← args.mapM (p.evaluate id)
  let inner ← nest id (.call head args)
  bindAll inner params values
  p.runAll inner .nil body

/-- Call a macro: the body gets the arguments as they are, and the code it gives is expanded in the
    scope of the body. -/
def callMacro (p : Passes) (id : ScopeId) (params body : List Node) (head : QName)
    (args : List Node) : Eval Node := do
  let inner ← nest id (.call head args)
  bindAll inner params args
  let code ← p.runAll inner .nil body
  record (.produced head.name code)
  p.expand inner code

/-- Call what a name is bound to, with as many arguments as there are parameters. -/
def callNamed (p : Passes) (id : ScopeId) (head : QName) (args : List Node) :
    Eval Node := do
  let whole := .call head args
  match ← resolve id head with
  | .fn params body =>
    if args.length = params.length then callFn p id params body head args
    else throw (.wrongCount whole)
  | .macroFn params body =>
    if args.length = params.length then callMacro p id params body head args
    else throw (.wrongCount whole)
  | _ => throw (.undispatchable whole)

/-- Evaluate an expanded node. -/
def evaluateNode (p : Passes) (id : ScopeId) : Node → Eval Node
  | .symbol q => resolve id q
  | .call head args =>
    match Builtin.ofName? head.name with
    | some builtin => runBuiltin p id builtin head args
    | none => callNamed p id head args
  | .define name expr => do
    let value ← p.evaluate id expr
    bindName id name value
    record (.defined (← current id) name)
    return value
  | .letIn bindings body => do
    let inner ← nest id (.letIn bindings body)
    bindLet p inner (Node.pairs bindings)
    p.runAll inner .nil body
  | other => return other

end Eval

/-! ## Tying the knot -/

/-- The two passes with a budget for how deep they may be nested in each other. Without a budget
    nothing can be done; each pass leaves one unit less to the passes it calls. -/
def Passes.within : Nat → Passes
  | 0 =>
    { expand := fun _ _ => throw .stackExhausted
      evaluate := fun _ _ => throw .stackExhausted }
  | budget + 1 =>
    { expand := fun id node => Eval.expandNode (Passes.within budget) id node
      evaluate := fun id node => Eval.evaluateNode (Passes.within budget) id node }

end Lisplet
