set_option autoImplicit false

/-! # Tables

A `Table α` keeps one value for each name it holds, in the order in which the names were first
entered. It is an association list in which no name is entered twice; the two operations that the
rest of the library uses are `get?` and `insert`, and `get?_insert` says what a table holds after an
entry. -/

namespace Lisplet

/-- Values filed under names, in order of first entry. -/
structure Table (α : Type) where
  entries : List (String × α)
deriving Inhabited

namespace Table

variable {α : Type}

/-- The table with no entries. -/
def empty : Table α := ⟨[]⟩

/-- The value of the first entry for `name` in an entry list. -/
def lookup (name : String) : List (String × α) → Option α
  | [] => none
  | (key, value) :: rest => if key = name then some value else lookup name rest

/-- Replace the value of the entry for `name`, or add an entry at the end. -/
def enter (name : String) (value : α) : List (String × α) → List (String × α)
  | [] => [(name, value)]
  | (key, old) :: rest =>
    if key = name then (key, value) :: rest else (key, old) :: enter name value rest

/-- The value filed under `name`. -/
def get? (t : Table α) (name : String) : Option α := lookup name t.entries

/-- File `value` under `name`; an earlier value of that name is lost, its place in the order is
    kept. -/
def insert (t : Table α) (name : String) (value : α) : Table α := ⟨enter name value t.entries⟩

/-- The names that have a value, oldest first. -/
def names (t : Table α) : List String := t.entries.map Prod.fst

/-- Whether `name` has a value. -/
def contains (t : Table α) (name : String) : Bool := (t.get? name).isSome

/-- The table of one entry. -/
def singleton (name : String) (value : α) : Table α := ⟨[(name, value)]⟩

/-! ## What an entry does to `get?` -/

@[simp]
theorem get?_empty (name : String) : (empty : Table α).get? name = none := rfl

theorem lookup_enter (name other : String) (value : α) (entries : List (String × α)) :
    lookup other (enter name value entries)
      = if name = other then some value else lookup other entries := by
  induction entries with
  | nil => rfl
  | cons e rest ih =>
    obtain ⟨key, old⟩ := e
    by_cases h : key = name
    · subst h
      by_cases ho : key = other <;> simp [enter, lookup, ho]
    · by_cases ho : key = other
      · subst ho
        simp [enter, lookup, h, Ne.symm h]
      · simp [enter, lookup, h, ho, ih]

/-- After an entry under `name` that name has the new value and every other name its old one. -/
theorem get?_insert (t : Table α) (name other : String) (value : α) :
    (t.insert name value).get? other = if name = other then some value else t.get? other :=
  lookup_enter name other value t.entries

@[simp]
theorem get?_insert_self (t : Table α) (name : String) (value : α) :
    (t.insert name value).get? name = some value := by
  simp [get?_insert]

end Table

end Lisplet
