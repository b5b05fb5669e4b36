import Lisplet.Eval.Basic

set_option autoImplicit false

/-! # Filling templates

An expanded template is data in which calls of `unquote` and `unquote-splicing` mark the places to be
filled. Filling evaluates their arguments from left to right; values that are put in are not looked
into again. -/

namespace Lisplet

namespace Eval

/-- The value of an unquote. -/
def unquoted (p : Passes) (id : ScopeId) (whole : Node) (args : List Node) : Eval Node := do
  p.evaluate id (← expectOne whole args)

/-- The elements of a splice, whose value has to be a list. -/
def spliced (p : Passes) (id : ScopeId) (whole : Node) (args : List Node) : Eval (List Node) := do
  expectList (← unquoted p id whole args)

/-- The arguments of a splice. -/
def spliceArgs? : Node → Option (List Node)
  | .call head args => if head.name = "unquote-splicing" then some args else none
  | _ => none

mutual

/-- Fill a template. A splice that is the whole template gives the list itself. -/
def fill (p : Passes) (id : ScopeId) : Node → Eval Node
  | .call head args =>
    if head.name = "unquote" then unquoted p id (.call head args) args
    else if head.name = "unquote-splicing" then .list <$> spliced p id (.call head args) args
    else return .call head args
  | .list items => .list <$> fillAll p id items
  | .vec items => .vec <$> fillAll p id items
  | other => return other

/-- Fill the items of a list or vector; a splice puts its elements in the place of one item. -/
def fillAll (p : Passes) (id : ScopeId) : List Node → Eval (List Node)
  | [] => return []
  | item :: rest => do
    let values ← match spliceArgs? item with
      | some args => spliced p id item args
      | none => (fun value => [value]) <$> fill p id item
    return values ++ (← fillAll p id rest)

end

end Eval

end Lisplet
