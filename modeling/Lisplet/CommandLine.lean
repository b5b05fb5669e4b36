import Lisplet.Text.Integer
import Lisplet.Text.Quoted

set_option autoImplicit false

/-! # The command line

The program takes at most one script and three options. A long option may be shortened as long as it
stays unambiguous and takes its value from the next word or from behind an equals sign; flags of one
letter may be joined. After `--` every word is taken as it is. Words that fit nowhere are collected
and reported together, after everything else was found in order. -/

namespace Lisplet

namespace CommandLine

/-- The options. -/
inductive Switch where
  | help
  | ns
  | verbose
deriving DecidableEq, Inhabited

/-- The ways to write the options, in the order in which they are listed. -/
def spellings : List (String × Switch) :=
  [("-h", .help), ("--help", .help), ("--ns", .ns), ("-v", .verbose), ("--verbose", .verbose)]

/-- The option that is written like this. -/
def switch? (spelling : String) : Option Switch := spellings.lookup spelling

/-- An option as messages refer to it: all its spellings. -/
def Switch.label (s : Switch) : String :=
  "/".intercalate ((spellings.filter (fun entry => entry.2 == s)).map Prod.fst)

/-- What is wrong with a command line. -/
inductive Error where
  | ambiguous (word : String) (matching : List String)
  | valueMissing (switch : Switch)
  | valueUnwanted (switch : Switch) (value : String)
  | unrecognized (words : List String)
deriving DecidableEq, Inhabited

def Error.message : Error → String
  | .ambiguous word matching =>
    "ambiguous option: " ++ word ++ " could match " ++ ", ".intercalate matching
  | .valueMissing s => "argument " ++ s.label ++ ": expected one argument"
  | .valueUnwanted s value =>
    "argument " ++ s.label ++ ": ignored explicit argument " ++ Text.quoted value
  | .unrecognized words => "unrecognized arguments: " ++ " ".intercalate words

/-! ## Words -/

/-- What a word on the command line is. -/
inductive Word where
  /-- A word that stands for itself. -/
  | plain (text : String)
  /-- The mark after which all words are plain. -/
  | separator
  /-- An option; `short` tells a spelling of one letter, and `value` is what is attached to it. -/
  | switch (switch : Switch) (short : Bool) (value : Option String)
  /-- Something that looks like an option. -/
  | unknown (text : String)
deriving DecidableEq, Inhabited

def Word.text : Word → String
  | .plain text => text
  | .separator => "--"
  | .switch .. => ""
  | .unknown text => text

/-- Whether a word is a negative number such as `-1`, `-.5` or `-1.5`, which is plain. A newline may
    follow the number. -/
def isNegativeNumber (word : List Char) : Bool :=
  let isDigit (c : Char) : Bool := (Text.digitValue? c).isSome
  let ends (rest : List Char) : Bool := rest == [] || rest == ['\n']
  match word with
  | '-' :: rest =>
    let whole := rest.takeWhile isDigit
    match rest.dropWhile isDigit with
    | '.' :: fraction => !(fraction.takeWhile isDigit).isEmpty && ends (fraction.dropWhile isDigit)
    | other => !whole.isEmpty && ends other
  | _ => false

/-- A word with dashes in front that is no exact spelling and has no exact spelling before an equals
    sign: a shortened long option, a short option with something attached, or nothing known. -/
def classifyLoosely (word : String) : Except Error Word :=
  let chars := word.toList
  let stem := String.ofList (chars.takeWhile (· != '='))
  let value := if chars.contains '=' then some (String.ofList ((chars.dropWhile (· != '=')).drop 1))
    else none
  let candidates : List (String × Word) :=
    if "--".isPrefixOf word then
      (spellings.filter (fun entry => stem.isPrefixOf entry.1)).map
        (fun entry => (entry.1, .switch entry.2 false value))
    else
      (spellings.filter (fun entry => entry.1 == String.ofList (chars.take 2))).map
        (fun entry => (entry.1, .switch entry.2 true (some (String.ofList (chars.drop 2)))))
  match candidates with
  | [] => .ok (if isNegativeNumber chars || chars.contains ' ' then .plain word else .unknown word)
  | [(_, found)] => .ok found
  | several => .error (.ambiguous word (several.map Prod.fst))

/-- Tell what a word before the separator is. -/
def classify (word : String) : Except Error Word :=
  if !"-".isPrefixOf word || word == "-" then .ok (.plain word)
  else match switch? word with
    | some s => .ok (.switch s (!"--".isPrefixOf word) none)
    | none =>
      let chars := word.toList
      let spelling := String.ofList (chars.takeWhile (· != '='))
      match switch? spelling, (chars.dropWhile (· != '=')) with
      | some s, _ :: value =>
        .ok (.switch s (!"--".isPrefixOf spelling) (some (String.ofList value)))
      | _, _ => classifyLoosely word

/-- Tell what all words are. -/
def classifyAll : List String → Except Error (List Word)
  | [] => .ok []
  | "--" :: rest => .ok (.separator :: rest.map .plain)
  | word :: rest => do
    let found ← classify word
    return found :: (← classifyAll rest)

/-! ## Options and script -/

/-- What the words that were looked at say. -/
structure Options where
  script : Option String
  ns : Option String
  verbose : Bool
deriving DecidableEq, Inhabited

/-- What a command line asks for. -/
inductive Request where
  | help
  | run (options : Options)
deriving DecidableEq, Inhabited

/-- The flags that joined letters stand for. All letters have to be known before any of them has an
    effect. -/
def joinedFlags (s : Switch) : List Char → Except Error (List Switch)
  | [] => .ok [s]
  | c :: rest =>
    match switch? (String.ofList ['-', c]) with
    | some next => do return s :: (← joinedFlags next rest)
    | none => .error (.valueUnwanted s (String.ofList (c :: rest)))

/-- The flags of one word. -/
def flagsOf (s : Switch) (short : Bool) : Option String → Except Error (List Switch)
  | none => .ok [s]
  | some value =>
    if short && value != "" then joinedFlags s value.toList else .error (.valueUnwanted s value)

/-- Whether the words have an option among them, known or not. -/
def hasOption (words : List Word) : Bool :=
  words.any fun
    | .switch .. => true
    | .unknown _ => true
    | _ => false

/-- The script among the words after the last option, and the words that are left over. The
    separator next to the script belongs to it. -/
def lastScript : List Word → Option String × List Word
  | [] => (none, [])
  | .separator :: [] => (none, [])
  | .separator :: word :: rest => (some word.text, rest)
  | word :: .separator :: rest => (some word.text, rest)
  | word :: rest => (some word.text, rest)

/-- The request to run with these options, unless words are left over. -/
def finish (options : Options) (extra : List String) : Except Error Request :=
  if extra.isEmpty then .ok (.run options) else .error (.unrecognized extra)

/-- Go through the words. `free` tells whether the script is still to come, and `extra` has the words
    that fit nowhere. A namespace given as two dashes counts as empty. -/
def gather (options : Options) (free : Bool) (extra : List String) :
    List Word → Except Error Request
  | [] => finish options extra
  | .unknown text :: rest => gather options free (extra ++ [text]) rest
  | .switch .ns _ (some value) :: rest =>
    gather { options with ns := some (if value = "--" then "" else value) } free extra rest
  | .switch .ns _ none :: .plain value :: rest =>
    gather { options with ns := some value } free extra rest
  | .switch .ns _ none :: _ => .error (.valueMissing .ns)
  | .switch s short value :: rest => do
    let flags ← flagsOf s short value
    if flags.contains .help then return .help
    gather { options with verbose := true } free extra rest
  | word :: rest =>
    if hasOption rest then
      if free then gather { options with script := some word.text } false extra rest
      else gather options free (extra ++ [word.text]) rest
    else if free then
      let (script, others) := lastScript (word :: rest)
      finish { options with script := script } (extra ++ others.map Word.text)
    else finish options (extra ++ (word :: rest).map Word.text)

/-- What a command line asks for. -/
def parse (words : List String) : Except Error Request := do
  gather ⟨none, none, false⟩ true [] (← classifyAll words)

/-! ## Texts -/

def usage : String := "usage: lust [-h] [--ns NAMESPACE] [-v] [script]\n"

def help : String :=
  usage ++ "
Run Lust scripts or start a REPL.

positional arguments:
  script          script to run (conventionally *.ls)

options:
  -h, --help      show this help message and exit
  --ns NAMESPACE  default namespace name
  -v, --verbose   log at DEBUG level
"

/-- What is printed about a command line with an error. -/
def complaint (e : Error) : String := usage ++ "lust: error: " ++ e.message ++ "\n"

end CommandLine

end Lisplet
