import Lisplet.Fault
import Lisplet.ScopeTree

set_option autoImplicit false

/-! # Computations on scopes

Expansion and evaluation are computations that read and change a tree of scopes and may end in a
fault; what was changed before a fault stays changed. All of them are put together from the few
operations of this file, so that a law about every computation only has to look at these. -/

namespace Lisplet

/-- A computation on a tree of scopes. -/
abbrev Eval := EStateM Fault ScopeTree

/-- The two passes that all others come back to. They are passed as an argument, which leaves open
    how deep they may be nested. -/
structure Passes where
  expand : ScopeId → Node → Eval Node
  evaluate : ScopeId → Node → Eval Node

/-- Expand a form and evaluate the result. -/
def Passes.run (p : Passes) (id : ScopeId) (form : Node) : Eval Node := do
  let code ← p.expand id form
  p.evaluate id code

namespace Eval

/-- Note an event in the journal. -/
def record (event : Event) : Eval Unit := modify (·.record event)

/-- The current namespace of a scope. -/
def current (id : ScopeId) : Eval String := do return ((← get).scope id).current

/-- The value of a name as seen from a scope. -/
def find? (id : ScopeId) (q : QName) : Eval (Option Node) := do return (← get).find? id q

/-- The value of a name as seen from a scope, which has to have one. -/
def resolve (id : ScopeId) (q : QName) : Eval Node := do
  match ← find? id q with
  | some value => return value
  | none => throw (.unresolved q.name)

/-- Enter a value in a scope's own table and give back the value it replaces. -/
def enter (id : ScopeId) (q : QName) (value : Node) : Eval (Option Node) := do
  let previous := ((← get).scope id).lookup q
  modify (·.update id (·.enter q value))
  return previous

/-- Bind a plain name in the current namespace of a scope. -/
def bindName (id : ScopeId) (name : String) (value : Node) : Eval Unit :=
  discard (enter id (QName.plain name) value)

/-- Bind the name that a node carries. -/
def bindNode (id : ScopeId) (target value : Node) : Eval Unit :=
  match target.bindingName? with
  | some name => bindName id name value
  | none => throw (.nameless target)

/-- Change the current namespace of a scope and give back the previous one. -/
def switchTo (id : ScopeId) (ns : String) : Eval String := do
  let previous ← current id
  modify (·.update id (·.switchTo ns))
  record (.switched previous ns)
  return previous

/-- Open a scope inside another one for the sake of a node, within a depth limit. -/
def openInside (limit : Int) (id : ScopeId) (cause : Node) : Eval ScopeId := do
  let tree ← get
  if limit < (tree.scope id).depth + 1 then throw (.tooDeep cause)
  else
    let inner := tree.scopes.size
    set (tree.addInside id)
    return inner

/-- Nest a scope in another one for the sake of a node, within the depth limit of that one. -/
def nest (id : ScopeId) (cause : Node) : Eval ScopeId := do
  openInside ((← get).scope id).setup.depthLimit id cause

/-- What a scope gets when it asks for a file. -/
def reply (id : ScopeId) (path : String) : Eval FileReply := do
  return ((← get).scope id).setup.files path

/-- The next number for a fresh symbol. -/
def nextId : Eval Nat := do
  let number := (← get).counter
  modify fun tree => { tree with counter := tree.counter + 1 }
  return number

/-! ## Demands on arguments -/

/-- The only item of a list; with another number of items, `whole` has the wrong number of
    arguments. -/
def expectOne (whole : Node) : List Node → Eval Node
  | [a] => return a
  | _ => throw (.wrongCount whole)

def expectTwo (whole : Node) : List Node → Eval (Node × Node)
  | [a, b] => return (a, b)
  | _ => throw (.wrongCount whole)

def expectThree (whole : Node) : List Node → Eval (Node × Node × Node)
  | [a, b, c] => return (a, b, c)
  | _ => throw (.wrongCount whole)

def expectSymbol : Node → Eval QName
  | .symbol q => return q
  | other => throw (.wrongType other)

def expectString : Node → Eval String
  | .string s => return s
  | other => throw (.wrongType other)

def expectNumber : Node → Eval Double
  | .number d => return d
  | other => throw (.wrongType other)

def expectList : Node → Eval (List Node)
  | .list items => return items
  | other => throw (.wrongType other)

def expectVec : Node → Eval (List Node)
  | .vec items => return items
  | other => throw (.wrongType other)

end Eval

/-! ## Running forms in sequence -/

/-- Run the forms of a body one after the other; the value is that of the last one, or `result` if
    there is none. -/
def Passes.runAll (p : Passes) (id : ScopeId) (result : Node) : List Node → Eval Node
  | [] => return result
  | form :: rest => do
    let value ← p.run id form
    p.runAll id value rest

/-- Run the forms of a text one after the other up to the first read error, which becomes a fault. -/
def Passes.runReadings (p : Passes) (id : ScopeId) (fault : ReadError → Fault) (result : Node) :
    List Reading → Eval Node
  | [] => return result
  | .error e :: _ => throw (fault e)
  | .ok form :: rest => do
    let value ← p.run id form
    p.runReadings id fault value rest

end Lisplet
