import Lisplet.Node.Printer

set_option autoImplicit false

/-! # Events

A run keeps a journal of what it did. Some events are meant for the log and have a line there; the
others are kept for whoever wants to know which symbols were made or which files were asked for. -/

namespace Lisplet

/-- Something that happened during a run. -/
inductive Event where
  /-- A script was started. -/
  | running (path : String)
  /-- A scope changed its current namespace. -/
  | switched (previous next : String)
  /-- A name was defined in the current namespace of a scope. -/
  | defined (ns name : String)
  /-- A call turned out to be a macro call during expansion. -/
  | expanding (call : Node)
  /-- The body of a macro gave this code. -/
  | produced (name : String) (code : Node)
  /-- A name was made an alias. -/
  | referred (ns name : String) (target : QName)
  /-- A file was asked for. -/
  | asked (path : String)
  /-- A file was read and its forms are about to be evaluated in a namespace. -/
  | loading (path ns : String)
  /-- A fresh symbol was made. -/
  | issued (symbol : QName)
  /-- A template was expanded and its plain symbols were qualified by a namespace. -/
  | qualified (ns : String)
deriving Inhabited

/-- A line of the log before it is laid out. -/
structure LogRecord where
  level : String
  /-- The rank by which levels are compared. -/
  severity : Nat
  source : String
  message : String

namespace LogRecord

def debug (source message : String) : LogRecord := ⟨"DEBUG", 10, source, message⟩

def info (source message : String) : LogRecord := ⟨"INFO", 20, source, message⟩

/-- The layout of a log line. -/
def text (r : LogRecord) : String := r.level ++ " " ++ r.source ++ ": " ++ r.message

end LogRecord

namespace Event

/-- What the log says about an event. -/
def logRecord? : Event → Option LogRecord
  | .running path => some (.debug "lust" ("running " ++ path))
  | .switched previous next =>
    some (.debug "lust.state" ("switched namespace " ++ previous ++ " -> " ++ next))
  | .defined ns name => some (.debug "lust.evaluation.evaluator" ("defined " ++ ns ++ "/" ++ name))
  | .expanding call =>
    some (.debug "lust.evaluation.expander" ("expanding macro call " ++ call.text))
  | .produced name code =>
    some (.debug "lust.evaluation.apply" ("macro " ++ name ++ " produced " ++ code.text))
  | .referred ns name target =>
    some (.debug "lust.builtin.namespace_forms"
      ("referred " ++ ns ++ "/" ++ name ++ " -> " ++ target.text))
  | .loading path ns =>
    some (.info "lust.builtin.load_form" ("loading " ++ path ++ " into namespace " ++ ns))
  | .asked _ | .issued _ | .qualified _ => none

/-- The log lines of events, oldest first, that are at least as severe as `threshold`. -/
def logLines (threshold : Nat) (events : List Event) : List String :=
  (events.filterMap logRecord?).filterMap
    (fun record => if threshold ≤ record.severity then some record.text else none)

end Event

end Lisplet
