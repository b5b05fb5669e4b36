import Lisplet.Eval.Basic

set_option autoImplicit false

/-! # Expansion

Expansion turns lists into canonical forms. Lists headed by the name of a special form are checked
and taken apart; any other list becomes a call with expanded arguments. If the head of such a call is
bound to a macro, the macro runs at once and what it gives takes the place of the call. -/

namespace Lisplet

/-- The forms with expansion rules of their own. -/
inductive SpecialForm where
  | define
  | fn
  | macroFn
  | letIn
  | quote
  | syntaxQuote
  | unquote
  | unquoteSplicing
deriving DecidableEq, Inhabited

namespace SpecialForm

/-- Special forms go by the name of the head alone; its namespace does not matter. -/
def ofName? : String → Option SpecialForm
  | "def" => some .define
  | "fn" => some .fn
  | "macro" => some .macroFn
  | "let" => some .letIn
  | "quote" => some .quote
  | "syntax-quote" => some .syntaxQuote
  | "unquote" => some .unquote
  | "unquote-splicing" => some .unquoteSplicing
  | _ => none

end SpecialForm

namespace Eval

/-- An unquote keeps its name and gets its argument expanded. -/
def expandUnquote (p : Passes) (id : ScopeId) (name : String) (whole : Node) (args : List Node) :
    Eval Node := do
  let arg ← expectOne whole args
  return .call (QName.plain name) [← p.expand id arg]

/-- The name of the head of an unquote form. -/
def unquoteName? : List Node → Option String
  | .symbol q :: _ =>
    match SpecialForm.ofName? q.name with
    | some .unquote | some .unquoteSplicing => some q.name
    | _ => none
  | _ => none

mutual

/-- Rebuild quoted data. Symbols are renamed, unquote forms are expanded, and everything else stays
    as it is. -/
def expandQuoted (p : Passes) (id : ScopeId) (rename : QName → QName) : Node → Eval Node
  | .symbol q => return .symbol (rename q)
  | .vec items => return .vec (← expandQuotedAll p id rename items)
  | .list items =>
    match unquoteName? items with
    | some name => expandUnquote p id name (.list items) items.tail
    | none => return .list (← expandQuotedAll p id rename items)
  | other => return other

/-- Rebuild quoted items from left to right. -/
def expandQuotedAll (p : Passes) (id : ScopeId) (rename : QName → QName) :
    List Node → Eval (List Node)
  | [] => return []
  | item :: rest => do
    let item ← expandQuoted p id rename item
    return item :: (← expandQuotedAll p id rename rest)

end

/-- The parameters and the body of a function or macro: a vector of symbols and at least one form. -/
def expandAbstraction (p : Passes) (id : ScopeId) (whole : Node) :
    List Node → Eval (List Node × List Node)
  | params :: form :: rest => do
    let params ← (← expectVec params).mapM expectSymbol
    let body ← (form :: rest).mapM (p.expand id)
    return (params.map .symbol, body)
  | _ => throw (.wrongCount whole)

/-- Expand the expression of one binding after a look at its name. -/
def expandBinding (p : Passes) (id : ScopeId) (binding : Node × Node) : Eval (List Node) := do
  let q ← expectSymbol binding.1
  let expr ← p.expand id binding.2
  return [.symbol q, expr]

/-- The bindings and the body of a `let`: a vector of names and expressions in turn, then any number
    of forms. -/
def expandLet (p : Passes) (id : ScopeId) (whole : Node) : List Node → Eval Node
  | [] => throw (.wrongCount whole)
  | bindings :: forms => do
    let items ← expectVec bindings
    if items.length % 2 = 0 then
      let bindings ← (Node.pairs items).mapM (expandBinding p id)
      let body ← forms.mapM (p.expand id)
      return .letIn bindings.flatten body
    else throw (.wrongCount bindings)

/-- Expand the special form `(head args…)`. -/
def expandSpecial (p : Passes) (id : ScopeId) (form : SpecialForm) (head : QName)
    (args : List Node) : Eval Node :=
  let whole := .list (.symbol head :: args)
  match form with
  | .define => do
    let (target, expr) ← expectTwo whole args
    let q ← expectSymbol target
    return .define q.name (← p.expand id expr)
  | .fn => do
    let (params, body) ← expandAbstraction p id whole args
    return .fn params body
  | .macroFn => do
    let (params, body) ← expandAbstraction p id whole args
    return .macroFn params body
  | .letIn => expandLet p id whole args
  | .quote => do
    let template ← expectOne whole args
    return .call (QName.plain "quote") [← expandQuoted p id (fun q => q) template]
  | .syntaxQuote => do
    let ns ← current id
    let template ← expectOne whole args
    record (.qualified ns)
    return .call (QName.plain "syntax-quote") [← expandQuoted p id (QName.qualify ns) template]
  | .unquote | .unquoteSplicing => expandUnquote p id head.name whole args

/-- Expand the list `(head args…)` that is no special form: a call, or what a macro makes of it. -/
def expandCall (p : Passes) (id : ScopeId) (head : QName) (args : List Node) : Eval Node := do
  let args ← args.mapM (p.expand id)
  let call := .call head args
  match ← find? id head with
  | some (.macroFn ..) =>
    record (.expanding call)
    p.run id call
  | _ => return call

/-- Expand a node. What is no list, and the empty list, stays as it is. -/
def expandNode (p : Passes) (id : ScopeId) : Node → Eval Node
  | .list (.symbol head :: args) =>
    match SpecialForm.ofName? head.name with
    | some form => expandSpecial p id form head args
    | none => expandCall p id head args
  | .list (other :: args) => throw (.undispatchable (.list (other :: args)))
  | other => return other

end Eval

end Lisplet
