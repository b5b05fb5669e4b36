import Lisplet.Form
import Lisplet.Node.Printer

set_option autoImplicit false

/-! # Faults

Everything that can keep a text or a form from having a value, by its cause. -/

namespace Lisplet

/-- Why a text or a form has no value. -/
inductive Fault where
  /-- The text given to the interpreter is malformed. -/
  | misread (error : ReadError)
  /-- The text of a loaded file is malformed. -/
  | misreadFile (error : ReadError)
  /-- A name is not defined in any scope around. -/
  | unresolved (name : String)
  /-- A list or call has no head that can be called. -/
  | undispatchable (node : Node)
  | wrongType (node : Node)
  | wrongCount (node : Node)
  /-- A scope would have more scopes around it than the limit allows. -/
  | tooDeep (node : Node)
  /-- A file exists and cannot be read. -/
  | unreadable (path reason : String)
  /-- A node without a name stands where a name is to be bound. -/
  | nameless (node : Node)
  /-- Expansion and evaluation are nested deeper than their budget. -/
  | stackExhausted
deriving Inhabited

/-- The wording of a fault. -/
def Fault.message : Fault → String
  | .misread e => e.message
  | .misreadFile e => e.message
  | .unresolved name => "Unable to resolve symbol \"" ++ name ++ "\""
  | .undispatchable node => "Unable to dispatch expression \"" ++ node.text ++ "\""
  | .wrongType node => "Incorrect type of argument \"" ++ node.text ++ "\""
  | .wrongCount node => "Incorrect number of arguments " ++ node.text
  | .tooDeep node => "Maximum recursion depth exceeded in \"" ++ node.text ++ "\""
  | .unreadable path reason => "Unable to read " ++ path ++ ": " ++ reason
  | .nameless node => "Unable to bind \"" ++ node.text ++ "\""
  | .stackExhausted => "Maximum recursion depth exceeded"

end Lisplet
