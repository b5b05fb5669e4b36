import Lisplet.Proofs.Law.Passes

set_option autoImplicit false

/-! # Invariants of single runs

A law with the same run on both sides is about what each operation keeps in one tree. -/

namespace Lisplet

/-- What a run keeps to in the scope `id` of the tree `t`. -/
structure Invariant extends Discipline where
  /-- What holds before and after each computation. -/
  holds : ScopeId → ScopeTree → Prop
  record : ∀ {id t} (event : Event), (∀ q, event ≠ .issued q) → holds id t →
    holds id (t.record event)
  enter : ∀ {id t} (name : String) {value : Node}, node value → holds id t →
    holds id (t.update id (·.enter (QName.plain name) value))
  switchTo : ∀ {id t} {q : QName}, node (.symbol q) → holds id t →
    holds id (t.update id (·.switchTo q.name))
  issue : ∀ {id t} (stem : String), holds id t →
    holds id (t.issue stem) ∧ node (.symbol (t.freshSymbol stem))
  inside : ∀ {id t}, ¬ (t.scope id).AtLimit → holds id t →
    holds t.scopes.size (t.addInside id)
  outside : ∀ {id t t₁}, holds id t → holds t.scopes.size t₁ →
    Frame t.scopes.size (t.addInside id) t₁ → holds id t₁
  find : ∀ {id t q value}, holds id t → t.find? id q = some value → node value
  current : ∀ {id t}, holds id t → node (.symbol (QName.plain (t.scope id).current))

namespace Invariant

/-- The invariant that holds of everything. -/
def free : Invariant where
  toDiscipline := .free
  holds _ _ := True
  record _ _ _ := trivial
  enter _ _ _ _ := trivial
  switchTo _ _ := trivial
  issue _ _ := ⟨trivial, trivial⟩
  inside _ _ := trivial
  outside _ _ _ := trivial
  find _ _ := trivial
  current _ := trivial

/-- The law of a run that is compared with itself. -/
def law (I : Invariant) : Law where
  toDiscipline := I.toDiscipline
  inv id id' t t' := id' = id ∧ t' = t ∧ I.holds id t
  escape _ := False
  files_eq := by
    rintro id _ t _ ⟨rfl, rfl, _⟩
    rfl
  limit_le := by
    rintro id _ t _ ⟨rfl, rfl, _⟩
    exact Int.le_refl _
  limit_ge := by
    rintro id _ t _ ⟨rfl, rfl, _⟩
    exact .inl (Int.le_refl _)
  record := by
    rintro id _ t _ event hevent ⟨rfl, rfl, h⟩
    exact ⟨rfl, rfl, I.record event hevent h⟩
  enter := by
    rintro id _ t _ name value hvalue ⟨rfl, rfl, h⟩
    exact ⟨rfl, rfl, I.enter name hvalue h⟩
  switchTo := by
    rintro id _ t _ q hq ⟨rfl, rfl, h⟩
    exact ⟨rfl, rfl, I.switchTo hq h⟩
  issue := by
    rintro id _ t _ stem ⟨rfl, rfl, h⟩
    obtain ⟨hholds, hnode⟩ := I.issue stem h
    exact ⟨⟨rfl, rfl, hholds⟩, hnode⟩
  inside := by
    rintro id _ t _ hlimit ⟨rfl, rfl, h⟩
    exact ⟨rfl, rfl, I.inside hlimit h⟩
  outside := by
    rintro id _ t _ t₁ _ ⟨rfl, rfl, h⟩ ⟨_, rfl, hinner⟩ hframe _
    exact ⟨rfl, rfl, I.outside h hinner hframe⟩
  find := by
    rintro id _ t _ q ⟨rfl, rfl, h⟩
    exact ⟨rfl, fun _ hvalue => I.find h hvalue⟩
  current := by
    rintro id _ t _ ⟨rfl, rfl, h⟩
    exact ⟨rfl, I.current h⟩
  depth := by
    rintro id _ t _ ⟨rfl, rfl, _⟩
    rfl
  counter := by
    rintro id _ t _ ⟨rfl, rfl, _⟩
    rfl

variable {I : Invariant} {id : ScopeId} {α : Type}

/-- Started where the invariant holds, the computation `x` does what `y` does, its value is `good`
    or its fault allowed, and the invariant holds again. -/
def Keeps (I : Invariant) (id : ScopeId) (good : α → Prop) (x y : Eval α) : Prop :=
  ∀ t, I.holds id t → y t = x t ∧
    match x t with
    | .ok value t₁ => good value ∧ I.holds id t₁
    | .error fault t₁ => I.fault fault ∧ I.holds id t₁

theorem keeps_of_obeys {good : α → Prop} {x y : Eval α} (h : I.law.Obeys id id good x y) :
    I.Keeps id good x y := by
  intro t ht
  have hx := h t t ⟨rfl, rfl, ht⟩
  cases hr : x t with
  | ok value t₁ =>
    rw [hr] at hx
    obtain ⟨_, hvalue, _, hy, _, _, rfl, ht₁⟩ := hx
    exact ⟨hy, hvalue, ht₁⟩
  | error fault t₁ =>
    rw [hr] at hx
    obtain ⟨_, hfault, hescape | ⟨_, hy, _, _, rfl, ht₁⟩⟩ := hx
    · exact hescape.elim
    · exact ⟨hy, hfault, ht₁⟩

theorem holds_after_of_obeys {good : α → Prop} {x y : Eval α} (h : I.law.Obeys id id good x y)
    {t : ScopeTree} (ht : I.holds id t) : I.holds id (x.after t) := by
  have hkeeps := (keeps_of_obeys h t ht).2
  unfold Eval.after
  cases hr : x t with
  | ok value t₁ =>
    rw [hr] at hkeeps
    exact hkeeps.2
  | error fault t₁ =>
    rw [hr] at hkeeps
    exact hkeeps.2

/-- The frame of a computation that obeys the law without demands. -/
theorem frame_of_obeys {good : α → Prop} {x y : Eval α} (h : free.law.Obeys id id good x y)
    (t : ScopeTree) : Frame id t (x.after t) :=
  h.frame_after ⟨rfl, rfl, trivial⟩

/-- The passes keep every invariant, within any budget. -/
theorem agree_within (I : Invariant) (budget : Nat) :
    I.law.Agree (Passes.within budget) (Passes.within budget) :=
  I.law.agree_within (Nat.le_refl _) (.inl (Nat.le_refl _))

end Invariant

end Lisplet
