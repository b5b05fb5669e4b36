import Lisplet.Event
import Lisplet.Scope

set_option autoImplicit false

/-! # The tree of scopes

All scopes of a run, in the order in which they were made, together with the counter for fresh
symbols and the journal. Scopes are never removed: one that evaluation has left is simply not referred
to any more. -/

namespace Lisplet

/-- The state of a run. -/
structure ScopeTree where
  scopes : Array Scope
  /-- The number of fresh symbols made so far. -/
  counter : Nat
  /-- The events so far, newest first. -/
  journal : List Event
deriving Inhabited

namespace ScopeTree

/-- The number of the root scope. -/
def rootId : ScopeId := 0

/-- The tree that has only a root scope. -/
def root (setup : Setup) (ns : String) : ScopeTree := ⟨#[Scope.root setup ns], 0, []⟩

/-- The scope with a number. -/
def scope (t : ScopeTree) (id : ScopeId) : Scope := t.scopes[id]?.getD default

/-- Change one scope. -/
def update (t : ScopeTree) (id : ScopeId) (change : Scope → Scope) : ScopeTree :=
  { t with scopes := t.scopes.modify id change }

/-- Add a scope inside the one with number `id`; its own number is the next free one. -/
def addInside (t : ScopeTree) (id : ScopeId) : ScopeTree :=
  { t with scopes := t.scopes.push ((t.scope id).inside id) }

def record (t : ScopeTree) (event : Event) : ScopeTree := { t with journal := event :: t.journal }

/-- The events so far, oldest first. -/
def events (t : ScopeTree) : List Event := t.journal.reverse

/-- A scope and the scopes around it, from the inside out. -/
def chain (t : ScopeTree) (id : ScopeId) : List Scope :=
  t.scope id :: (t.scope id).outer.map t.scope

/-- What the innermost scope that has a name holds for it. -/
def innermost? (t : ScopeTree) (id : ScopeId) (q : QName) : Option Node :=
  (t.chain id).findSome? (·.lookup q)

/-- The value of a name as seen from a scope: the innermost scope that has the name decides. An alias
    found there stands for the value of its target in the root scope, whatever that is. -/
def find? (t : ScopeTree) (id : ScopeId) (q : QName) : Option Node :=
  match t.innermost? id q with
  | some (.aliasTo ns name) => (t.scope rootId).lookup ⟨some ns, name⟩
  | found => found

/-- One line on a scope and those around it, each with the names of its current namespace. -/
def describe (t : ScopeTree) (id : ScopeId) : String :=
  let link (s : Scope) := s.current ++ "\x7b" ++ ", ".intercalate s.sortedNames ++ "\x7d"
  "<State chain: " ++ " -> ".intercalate ((t.chain id).map link) ++ ">"

/-! ## Which scopes an operation touches -/

@[simp]
theorem size_update (t : ScopeTree) (id : ScopeId) (change : Scope → Scope) :
    (t.update id change).scopes.size = t.scopes.size := by
  simp [update]

@[simp]
theorem size_addInside (t : ScopeTree) (id : ScopeId) :
    (t.addInside id).scopes.size = t.scopes.size + 1 := by
  simp [addInside]

/-- A change of one scope leaves all others as they are. -/
theorem scope_update_of_ne (t : ScopeTree) {id other : ScopeId} (change : Scope → Scope)
    (h : other ≠ id) : (t.update id change).scope other = t.scope other := by
  simp [scope, update, Array.getElem?_modify, h.symm]

theorem scope_update_self (t : ScopeTree) {id : ScopeId} (change : Scope → Scope)
    (h : id < t.scopes.size) : (t.update id change).scope id = change (t.scope id) := by
  simp [scope, update, h, Array.getElem_modify]

/-- A new scope leaves all others as they are. -/
theorem scope_addInside_of_lt (t : ScopeTree) (id : ScopeId) {other : ScopeId}
    (h : other < t.scopes.size) : (t.addInside id).scope other = t.scope other := by
  simp [scope, addInside, Array.getElem?_push, Nat.ne_of_lt h]

theorem scope_addInside_self (t : ScopeTree) (id : ScopeId) :
    (t.addInside id).scope t.scopes.size = (t.scope id).inside id := by
  simp [scope, addInside]

end ScopeTree

end Lisplet
