set_option autoImplicit false

/-! # Qualified names

Symbols, keywords and call heads are named by a `QName`: a name that may be qualified by a namespace
and is then written `namespace/name`. -/

namespace Lisplet

/-- A name, possibly qualified by a namespace. -/
structure QName where
  ns : Option String
  name : String
deriving DecidableEq, Inhabited

namespace QName

/-- The name without a namespace. -/
def plain (name : String) : QName := ⟨none, name⟩

/-- Split a text at its first slash. The slash divides only if something stands on both sides of it,
    so that `/`, `/a` and `a/` are plain names. -/
def parse (text : String) : QName :=
  let chars := text.toList
  let front := chars.takeWhile (· != '/')
  let back := (chars.dropWhile (· != '/')).drop 1
  if front = [] ∨ back = [] then plain text else ⟨some (String.ofList front), String.ofList back⟩

/-- The written form, `namespace/name` or the name alone. -/
def text (q : QName) : String :=
  match q.ns with
  | some ns => ns ++ "/" ++ q.name
  | none => q.name

/-- Qualify a plain name by `ns`; a qualified name stays as it is. -/
def qualify (ns : String) (q : QName) : QName :=
  match q.ns with
  | some _ => q
  | none => ⟨some ns, q.name⟩

end QName

end Lisplet
