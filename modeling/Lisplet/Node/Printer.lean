import Lisplet.Double.Printer
import Lisplet.Node.Basic

set_option autoImplicit false

/-! # The text of a node

The printed form is what results, error messages and log lines show. Atoms, lists and vectors print
as they are read; canonical forms print like the list from which they were expanded. A string is
printed between quotes as it is, since strings know no escapes. -/

namespace Lisplet

namespace Node

mutual

/-- The printed form of a node. -/
def text : Node → String
  | .number d => d.text
  | .bool b => if b then "true" else "false"
  | .string s => "\"" ++ s ++ "\""
  | .symbol q => q.text
  | .keyword q => ":" ++ q.text
  | .list items => "(" ++ textAll items ++ ")"
  | .vec items => "[" ++ textAll items ++ "]"
  | .letIn bindings body => "(let [" ++ textAll bindings ++ "] " ++ textAll body ++ ")"
  | .fn params body => "(fn [" ++ textAll params ++ "] " ++ textAll body ++ ")"
  | .macroFn params body => "(macro [" ++ textAll params ++ "] " ++ textAll body ++ ")"
  | .define name expr => "(def " ++ name ++ " " ++ text expr ++ ")"
  | .call head args =>
    if args.isEmpty then "(" ++ head.text ++ ")" else "(" ++ head.text ++ " " ++ textAll args ++ ")"
  | .aliasTo ns name => ns ++ "/" ++ name

/-- The printed forms of nodes with a space between neighbours. -/
def textAll : List Node → String
  | [] => ""
  | [node] => text node
  | node :: next :: rest => text node ++ " " ++ textAll (next :: rest)

end

/-- The printed form with the node's kind in front, which tells nodes of equal text apart. -/
def describe (node : Node) : String := node.kindName ++ "(" ++ node.text ++ ")"

end Node

end Lisplet
