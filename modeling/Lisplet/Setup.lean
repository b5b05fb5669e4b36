set_option autoImplicit false

/-! # Setups

What a run is given from outside: how deep scopes may be nested, and the files that it can load. A
setup is handed to the root scope, and every scope has it from the scope it was opened in. -/

namespace Lisplet

/-- The answer to a request for a file. -/
inductive FileReply where
  /-- There is no file of that name. -/
  | missing
  | unreadable (reason : String)
  | content (text : String)
deriving DecidableEq, Inhabited

/-- What a scope is given from outside. -/
structure Setup where
  /-- The greatest number of scopes that may be around a scope. -/
  depthLimit : Int
  files : String → FileReply
deriving Inhabited

end Lisplet
