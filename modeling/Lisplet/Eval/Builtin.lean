import Lisplet.Eval.Template

set_option autoImplicit false

/-! # Builtin calls

A call whose head has the name of a builtin is carried out by the builtin, whatever that name is
bound to. Each builtin decides for itself which of its arguments it evaluates. -/

namespace Lisplet

/-- The builtins. -/
inductive Builtin where
  | add
  | sub
  | mul
  | div
  | lt
  | gt
  | eq
  | cond
  | template
  | unquote
  | unquoteSplicing
  | eval
  | apply
  | gensym
  | inNs
  | load
  | refer
deriving DecidableEq, Inhabited

namespace Builtin

/-- Builtins go by the name of the head alone; its namespace does not matter. -/
def ofName? : String → Option Builtin
  | "+" => some .add
  | "-" => some .sub
  | "*" => some .mul
  | "/" => some .div
  | "<" => some .lt
  | ">" => some .gt
  | "=" => some .eq
  | "if" => some .cond
  | "quote" => some .template
  | "syntax-quote" => some .template
  | "unquote" => some .unquote
  | "unquote-splicing" => some .unquoteSplicing
  | "eval" => some .eval
  | "apply" => some .apply
  | "gensym" => some .gensym
  | "in-ns" => some .inNs
  | "load" => some .load
  | "refer" => some .refer
  | _ => none

end Builtin

namespace Eval

/-! ## Numbers -/

/-- The value of an argument, which has to be a number. -/
def numberOf (p : Passes) (id : ScopeId) (arg : Node) : Eval Double := do
  expectNumber (← p.evaluate id arg)

/-- Evaluate the arguments from left to right and combine each with the result so far. -/
def accumulate (p : Passes) (id : ScopeId) (combine : Double → Double → Double) (result : Double) :
    List Node → Eval Node
  | [] => return .number result
  | arg :: rest => do
    let value ← numberOf p id arg
    accumulate p id combine (combine result value) rest

/-- Subtraction and division: a single argument is treated by `alone`, more arguments are combined
    from the left. -/
def reduce (p : Passes) (id : ScopeId) (whole : Node) (alone : Double → Double)
    (combine : Double → Double → Double) : List Node → Eval Node
  | [] => throw (.wrongCount whole)
  | [arg] => return .number (alone (← numberOf p id arg))
  | arg :: rest => do
    let first ← numberOf p id arg
    accumulate p id combine first rest

/-- Compare each value with the one before it; the first pair out of order ends the evaluation. -/
def compareFrom (p : Passes) (id : ScopeId) (inOrder : Double → Double → Bool) (previous : Double) :
    List Node → Eval Node
  | [] => return .bool true
  | arg :: rest => do
    let value ← numberOf p id arg
    if inOrder previous value then compareFrom p id inOrder value rest else return .bool false

/-- A chain of comparisons with at least one argument. -/
def compareAll (p : Passes) (id : ScopeId) (whole : Node) (inOrder : Double → Double → Bool) :
    List Node → Eval Node
  | [] => throw (.wrongCount whole)
  | arg :: rest => do
    let first ← numberOf p id arg
    compareFrom p id inOrder first rest

/-! ## Files -/

/-- The text of a file; a path that is no file is a wrong argument. -/
def readFile (id : ScopeId) (path : String) : Eval String := do
  record (.asked path)
  match ← reply id path with
  | .missing => throw (.wrongType (.string path))
  | .unreadable reason => throw (.unreadable path reason)
  | .content text => return text

/-- Run the forms of a file one after the other in a scope. -/
def loadFile (p : Passes) (id : ScopeId) (path : String) : Eval Node := do
  let text ← readFile id path
  record (.loading path (← current id))
  p.runReadings id .misreadFile .nil (Form.readAll text)

/-! ## All builtins -/

/-- Carry out the builtin call `(head args…)`. -/
def runBuiltin (p : Passes) (id : ScopeId) (builtin : Builtin) (head : QName)
    (args : List Node) : Eval Node :=
  let whole := .call head args
  match builtin with
  | .add => accumulate p id Double.add .zero args
  | .mul => accumulate p id Double.mul .one args
  | .sub => reduce p id whole Double.neg Double.sub args
  | .div => reduce p id whole (Double.div .one) Double.div args
  | .lt => compareAll p id whole Double.lt args
  | .gt => compareAll p id whole Double.gt args
  | .eq => compareAll p id whole Double.eqv args
  | .cond => do
    let (test, positive, negative) ← expectThree whole args
    if (← p.evaluate id test).isTruthy then p.evaluate id positive else p.evaluate id negative
  | .template => do fill p id (← expectOne whole args)
  | .unquote => unquoted p id whole args
  | .unquoteSplicing => .list <$> spliced p id whole args
  | .eval => do p.run id (← p.evaluate id (← expectOne whole args))
  | .apply => do
    let (target, vector) ← expectTwo whole args
    let q ← expectSymbol target
    let items ← expectVec (← p.evaluate id vector)
    p.evaluate id (.call q items)
  | .gensym => do
    let stem ← expectString (← p.evaluate id (← expectOne whole args))
    let symbol := QName.plain (stem ++ toString (← nextId))
    record (.issued symbol)
    return .symbol symbol
  | .inNs => do
    let target ← expectSymbol (← p.evaluate id (← expectOne whole args))
    return .symbol (QName.plain (← switchTo id target.name))
  | .load => do
    let path ← expectString (← p.evaluate id (← expectOne whole args))
    loadFile p id path
  | .refer => do
    let (source, target) ← expectTwo whole args
    let name := (← expectSymbol source).name
    let target ← expectSymbol target
    let ns ← current id
    let target : QName := QName.qualify ns target
    bindName id name (.aliasTo (target.ns.getD ns) target.name)
    record (.referred ns name target)
    return .symbol target

end Eval

end Lisplet
