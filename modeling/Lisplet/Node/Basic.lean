import Lisplet.Double.Arithmetic
import Lisplet.QName

set_option autoImplicit false

/-! # Nodes

One type serves for source code and for values. A reader form is built from atoms, lists and
vectors; expansion turns lists into the canonical forms (`letIn`, `fn`, `macroFn`, `define`,
`call`), and `aliasTo` is what a table holds for a name that refers to a name elsewhere. -/

namespace Lisplet

/-- Code and data. -/
inductive Node where
  | number (value : Double)
  | bool (value : Bool)
  | string (value : String)
  | symbol (name : QName)
  | keyword (name : QName)
  | list (items : List Node)
  | vec (items : List Node)
  /-- Bindings are names and expressions in turn. -/
  | letIn (bindings body : List Node)
  | fn (params body : List Node)
  | macroFn (params body : List Node)
  | define (name : String) (expr : Node)
  | call (head : QName) (args : List Node)
  | aliasTo (ns name : String)
deriving Inhabited

namespace Node

/-- The empty list, the value of nothing at all. -/
def nil : Node := .list []

/-- The word for a node's kind. -/
def kindName : Node → String
  | .number _ => "Number"
  | .bool _ => "Bool"
  | .string _ => "String"
  | .symbol _ => "Symbol"
  | .keyword _ => "Keyword"
  | .list _ => "List"
  | .vec _ => "Vec"
  | .letIn .. => "Let"
  | .fn .. => "Fn"
  | .macroFn .. => "Macro"
  | .define .. => "Def"
  | .call .. => "Call"
  | .aliasTo .. => "Alias"

/-- Everything counts as true except the boolean `false`, so `0` and `()` do. -/
def isTruthy : Node → Bool
  | .bool b => b
  | _ => true

/-- Whether the node is a call whose head has this name, in any namespace. -/
def isCallOf (name : String) : Node → Bool
  | .call head _ => head.name == name
  | _ => false

/-- The name under which a node in a binding position is bound; only nodes that carry a name have
    one. -/
def bindingName? : Node → Option String
  | .symbol q => some q.name
  | .keyword q => some q.name
  | .call head _ => some head.name
  | .aliasTo _ name => some name
  | _ => none

/-- The consecutive pairs of a list; a last element without a partner is left out. -/
def pairs : List Node → List (Node × Node)
  | a :: b :: rest => (a, b) :: pairs rest
  | _ => []

/-! ## Nesting -/

mutual

/-- How deep lists, vectors and canonical forms are nested in a node; an atom has depth zero. -/
def nesting : Node → Nat
  | .list items => nestingAll items + 1
  | .vec items => nestingAll items + 1
  | .letIn bindings body => max (nestingAll bindings) (nestingAll body) + 1
  | .fn params body => max (nestingAll params) (nestingAll body) + 1
  | .macroFn params body => max (nestingAll params) (nestingAll body) + 1
  | .define _ expr => nesting expr + 1
  | .call _ args => nestingAll args + 1
  | _ => 0

/-- The greatest depth of some nodes. -/
def nestingAll : List Node → Nat
  | [] => 0
  | node :: rest => max (nesting node) (nestingAll rest)

end

/-! ## Equality of values

Two nodes are equal as values when they have the same kind and shape and their numbers are equal as
numbers, which is coarser than equality on zeros and finer on NaNs. -/

mutual

/-- Equality as values. -/
def eqv : Node → Node → Bool
  | .number a, .number b => a.eqv b
  | .bool a, .bool b => a == b
  | .string a, .string b => a == b
  | .symbol a, .symbol b => a == b
  | .keyword a, .keyword b => a == b
  | .list a, .list b => eqvAll a b
  | .vec a, .vec b => eqvAll a b
  | .letIn a b, .letIn c d => eqvAll a c && eqvAll b d
  | .fn a b, .fn c d => eqvAll a c && eqvAll b d
  | .macroFn a b, .macroFn c d => eqvAll a c && eqvAll b d
  | .define a b, .define c d => a == c && eqv b d
  | .call a b, .call c d => a == c && eqvAll b d
  | .aliasTo a b, .aliasTo c d => a == c && b == d
  | _, _ => false

/-- Equality as values, element by element. -/
def eqvAll : List Node → List Node → Bool
  | [], [] => true
  | a :: as, b :: bs => eqv a b && eqvAll as bs
  | _, _ => false

end

end Node

end Lisplet
