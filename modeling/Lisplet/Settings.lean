import Lisplet.Interpreter
import Lisplet.Text.Integer
import Lisplet.Text.Quoted

set_option autoImplicit false

/-! # Settings

Three variables of the environment set the namespace in which a run starts, the depth limit and the
severity from which on events are logged. A variable that is unset or blank has no effect. -/

namespace Lisplet

/-- The variables of the environment. -/
abbrev Environment := String → Option String

namespace Settings

/-- What is wrong with the setting of the depth limit. -/
inductive Error where
  | notInteger (name text : String)
  | notPositive (name : String) (value : Int)
deriving DecidableEq, Inhabited

def Error.message : Error → String
  | .notInteger name text => name ++ " must be an integer, got " ++ Text.quoted text
  | .notPositive name value => name ++ " must be positive, got " ++ toString value

def namespaceVariable : String := "LUST_DEFAULT_NAMESPACE"

def depthVariable : String := "LUST_MAX_DEPTH"

def levelVariable : String := "LUST_LOG_LEVEL"

/-- The value of a variable without the blanks around it, unless nothing is left. -/
def stripped? (env : Environment) (name : String) : Option String := do
  let text ← env name
  if Text.allBlank text then none else some (Text.strip text)

/-- The namespace in which a run starts. -/
def startNamespace (env : Environment) : String := (stripped? env namespaceVariable).getD "user"

/-- The depth limit; it has to be positive. -/
def depthLimit (env : Environment) : Except Error Int :=
  match env depthVariable with
  | none => .ok 64
  | some text =>
    if Text.allBlank text then .ok 64
    else match Text.integer? text with
      | none => .error (.notInteger depthVariable text)
      | some value => if value < 1 then .error (.notPositive depthVariable value) else .ok value

/-- The capital of a letter, as far as it can occur in the name of a level. -/
def capital (c : Char) : Char :=
  if c = 'ı' then 'I' else if c = 'ſ' then 'S' else c.toUpper

/-- The severity that goes by a name written in capitals. -/
def severityOf? : String → Option Nat
  | "NOTSET" => some 0
  | "DEBUG" => some 10
  | "INFO" => some 20
  | "WARN" => some 30
  | "WARNING" => some 30
  | "ERROR" => some 40
  | "CRITICAL" => some 50
  | "FATAL" => some 50
  | _ => none

/-- The least severity that is logged; small letters do as well, and an unknown name counts as
    `WARNING`. -/
def logThreshold (env : Environment) : Nat :=
  ((stripped? env levelVariable).bind
    (fun name => severityOf? (String.ofList (name.toList.map capital)))).getD 30

end Settings

/-- A fresh interpreter: a namespace that is not empty and a depth limit that are given win over
    those of the environment. -/
def Interpreter.ofSettings (env : Environment) (files : String → FileReply) (ns : Option String)
    (limit : Option Int) : Except Settings.Error Interpreter := do
  let limit ← match limit with
    | some limit => .ok limit
    | none => Settings.depthLimit env
  let ns := match ns with
    | none | some "" => Settings.startNamespace env
    | some ns => ns
  return .fresh ⟨limit, files⟩ ns

end Lisplet
