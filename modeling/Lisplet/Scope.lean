import Lisplet.Node.Basic
import Lisplet.Setup
import Lisplet.Table

set_option autoImplicit false

/-! # Scopes

A scope owns a table of namespaces and has one of them as its current namespace. The root scope is
made once and is given a setup; every `let`, function call and macro call opens a scope inside the
scope it runs in, which gets the same setup. A scope writes only to its own table and reads through
the scopes around it.

Scopes are known by their number of creation, the root being `0`. -/

namespace Lisplet

/-- The number of a scope in order of creation. -/
abbrev ScopeId := Nat

/-- One scope: its namespaces, the current one, the scopes around it from the inside out, and its
    setup. -/
structure Scope where
  current : String
  namespaces : Table (Table Node)
  outer : List ScopeId
  setup : Setup
deriving Inhabited

namespace Scope

/-- The outermost scope, in which `nil`, `true` and `false` are defined. -/
def root (setup : Setup) (ns : String) : Scope :=
  { current := ns
    namespaces := .singleton ns
      (((Table.empty.insert "nil" .nil).insert "true" (.bool true)).insert "false" (.bool false))
    outer := []
    setup := setup }

/-- A new scope inside `around`, whose number is `id`. It starts with one empty namespace, named after
    the one that is current around it. -/
def inside (around : Scope) (id : ScopeId) : Scope :=
  let ns := around.current ++ "_chained"
  { current := ns
    namespaces := .singleton ns .empty
    outer := id :: around.outer
    setup := around.setup }

/-- How many scopes are around this one. -/
def depth (s : Scope) : Nat := s.outer.length

/-- The value of a name in this scope's own table; an unqualified name is looked up in the current
    namespace. -/
def lookup (s : Scope) (q : QName) : Option Node :=
  (s.namespaces.get? (q.ns.getD s.current)).bind (·.get? q.name)

/-- Enter a value in this scope's own table, in a namespace that is made if need be. -/
def enter (s : Scope) (q : QName) (value : Node) : Scope :=
  let ns := q.ns.getD s.current
  let table := (s.namespaces.get? ns).getD .empty
  { s with namespaces := s.namespaces.insert ns (table.insert q.name value) }

/-- Make a namespace the current one, and make it if need be. -/
def switchTo (s : Scope) (ns : String) : Scope :=
  { s with
    current := ns
    namespaces := if s.namespaces.contains ns then s.namespaces else s.namespaces.insert ns .empty }

/-- The names defined in the current namespace, in the order of their code points. -/
def sortedNames (s : Scope) : List String :=
  ((s.namespaces.get? s.current).getD .empty).names.mergeSort (fun a b => !decide (b < a))

/-! ## What an entry does to look-ups -/

/-- A name has the value that was entered for it last. -/
theorem lookup_enter_self (s : Scope) (q : QName) (value : Node) :
    (s.enter q value).lookup q = some value := by
  simp [lookup, enter]

/-- An entry does not change the value of a name with another last part. -/
theorem lookup_enter_of_ne (s : Scope) {q other : QName} (value : Node) (h : other.name ≠ q.name) :
    (s.enter q value).lookup other = s.lookup other := by
  have hname : ¬ q.name = other.name := fun he => h he.symm
  simp only [lookup, enter, Table.get?_insert]
  by_cases hns : q.ns.getD s.current = other.ns.getD s.current
  · rw [if_pos hns, ← hns]
    cases ht : s.namespaces.get? (q.ns.getD s.current) with
    | none => simp [Table.get?_insert, hname]
    | some table => simp [Table.get?_insert, hname]
  · rw [if_neg hns]

end Scope

end Lisplet
