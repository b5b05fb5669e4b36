import Lisplet.Proofs.Law.Invariant

set_option autoImplicit false

/-! # Operations on a tree of scopes

A tree is worked on from outside by operations on any of its scopes, in any order; one that fails
does not keep the next one from being carried out. The trees that come about in this way from a
fresh root are `Reachable`, and an invariant of the passes that outlasts the few operations that
passes do not have (`Invariant.Lasting`) holds in all of them.

What is the case between two operations says little about the moments inside of one. For these there
are watched passes: whenever a pass is started, they compare the tree with what is expected of it,
and raise an alarm if it is not so. If an invariant gives what is expected, then watched passes do
exactly what the passes do (`Invariant.Lasting.perform_watched`). -/

namespace Lisplet

/-! ## Operations -/

/-- What can be done with a scope from outside. -/
inductive Operation where
  /-- Nest a scope in it for the sake of a node. -/
  | nest (cause : Node)
  /-- Enter a value in its own table, in a given namespace or in the current one. -/
  | enter (q : QName) (value : Node)
  | switchTo (ns : String)
  /-- Take a number for a fresh symbol. -/
  | nextId
  | expand (node : Node)
  | evaluate (node : Node)
  | run (node : Node)
  /-- Run all forms of a text. -/
  | runText (text : String)

/-- Carry out an operation on a scope, whatever it gives back. -/
def Operation.perform (p : Passes) (id : ScopeId) : Operation → Eval Unit
  | .nest cause => discard (Eval.nest id cause)
  | .enter q value => discard (Eval.enter id q value)
  | .switchTo ns => discard (Eval.switchTo id ns)
  | .nextId => discard Eval.nextId
  | .expand node => discard (p.expand id node)
  | .evaluate node => discard (p.evaluate id node)
  | .run node => discard (p.run id node)
  | .runText text => discard (p.runReadings id .misread .nil (Form.readAll text))

theorem Eval.discard_congr {α : Type} {x y : Eval α} {t : ScopeTree} (h : y t = x t) :
    (discard y : Eval Unit) t = (discard x : Eval Unit) t := by
  show EStateM.map (fun _ => ()) y t = EStateM.map (fun _ => ()) x t
  unfold EStateM.map
  rw [h]

theorem Eval.after_discard {α : Type} (x : Eval α) (t : ScopeTree) :
    (discard x : Eval Unit).after t = x.after t := by
  have hdiscard : (discard x : Eval Unit) t = EStateM.map (fun _ => ()) x t := rfl
  unfold Eval.after
  rw [hdiscard, EStateM.map]
  cases x t <;> rfl

/-! ## Reachable trees -/

/-- The trees that operations can make of a fresh root, each operation with a budget of its own. -/
inductive Reachable (setup : Setup) (ns : String) : ScopeTree → Prop where
  | root : Reachable setup ns (ScopeTree.root setup ns)
  | after {t : ScopeTree} {id : ScopeId} (h : Reachable setup ns t) (hid : id < t.scopes.size)
      (budget : Nat) (op : Operation) :
      Reachable setup ns ((op.perform (Passes.within budget) id).after t)

namespace Invariant

variable {I : Invariant} {id : ScopeId} {t : ScopeTree}

/-- An invariant of every computation that holds in every scope if in one, and outlasts entries in
    any namespace and numbers that are taken for no symbol. -/
structure Lasting (I : Invariant) : Prop where
  node : ∀ node, I.node node
  every : ∀ {id other t}, I.holds id t → other < t.scopes.size → I.holds other t
  enter : ∀ {id t} (q : QName) (value : Node), I.holds id t →
    I.holds id (t.update id (·.enter q value))
  count : ∀ {id t}, I.holds id t → I.holds id { t with counter := t.counter + 1 }

theorem Lasting.nest (h : I.Lasting) (hid : id < t.scopes.size) (ht : I.holds id t)
    (cause : Node) : I.holds id ((Eval.nest id cause).after t) := by
  unfold Eval.after
  rw [Eval.nest_eq]
  by_cases hlimit : (t.scope id).AtLimit
  · rw [if_pos hlimit]
    exact ht
  · rw [if_neg hlimit]
    refine h.every (I.inside hlimit ht) ?_
    rw [ScopeTree.size_addInside]
    exact Nat.lt_succ_of_lt hid

/-- What one operation keeps. -/
theorem Lasting.perform (h : I.Lasting) (budget : Nat) (hid : id < t.scopes.size)
    (ht : I.holds id t) (op : Operation) :
    I.holds id ((op.perform (Passes.within budget) id).after t) := by
  have hagree := I.agree_within budget
  cases op with
  | nest cause =>
    rw [Operation.perform, Eval.after_discard]
    exact h.nest hid ht cause
  | enter q value => exact h.enter q value ht
  | switchTo ns =>
    rw [Operation.perform, Eval.after_discard]
    exact holds_after_of_obeys (Law.obeys_switchTo (h.node (.symbol (QName.plain ns)))) ht
  | nextId => exact h.count ht
  | expand node =>
    rw [Operation.perform, Eval.after_discard]
    exact holds_after_of_obeys (hagree.expand (h.node node)) ht
  | evaluate node =>
    rw [Operation.perform, Eval.after_discard]
    exact holds_after_of_obeys (hagree.evaluate (h.node node)) ht
  | run node =>
    rw [Operation.perform, Eval.after_discard]
    exact holds_after_of_obeys (hagree.run (h.node node)) ht
  | runText text =>
    rw [Operation.perform, Eval.after_discard]
    refine holds_after_of_obeys (hagree.runReadings (by simp) Law.good_nil ?_) ht
    exact fun form _ => h.node form

/-- A lasting invariant that holds in a fresh tree holds in all scopes of all reachable ones. -/
theorem Lasting.holds (h : I.Lasting) {setup : Setup} {ns : String}
    (hroot : I.holds ScopeTree.rootId (ScopeTree.root setup ns)) (ht : Reachable setup ns t)
    (hid : id < t.scopes.size) : I.holds id t := by
  induction ht generalizing id with
  | root =>
    rw [Nat.lt_one_iff.1 hid]
    exact hroot
  | after _ hother budget op ih => exact h.every (h.perform budget hother (ih hother) op) hid

end Invariant

/-! ## Watched passes -/

/-- What is expected of the tree whenever a pass is started on a node in a scope. -/
structure Watch where
  expand : ScopeId → Node → ScopeTree → Bool
  evaluate : ScopeId → Node → ScopeTree → Bool

/-- Raise the alarm if the tree is not as expected. -/
def Eval.demand (expected : ScopeTree → Bool) (alarm : Fault) : Eval Unit := do
  if expected (← get) then return () else throw alarm

/-- The two passes under a watch. -/
def Passes.watchedWithin (watch : Watch) (alarm : Fault) : Nat → Passes
  | 0 =>
    { expand := fun _ _ => throw .stackExhausted
      evaluate := fun _ _ => throw .stackExhausted }
  | budget + 1 =>
    { expand := fun id node => do
        Eval.demand (watch.expand id node) alarm
        Eval.expandNode (Passes.watchedWithin watch alarm budget) id node
      evaluate := fun id node => do
        Eval.demand (watch.evaluate id node) alarm
        Eval.evaluateNode (Passes.watchedWithin watch alarm budget) id node }

theorem Eval.demand_bind {α : Type} {expected : ScopeTree → Bool} {t : ScopeTree}
    (h : expected t) (alarm : Fault) (x : Eval α) :
    (Eval.demand expected alarm >>= fun _ => x) t = x t := by
  have hdemand : Eval.demand expected alarm t = .ok () t := by
    show (if expected t then pure () else throw alarm : Eval Unit) t = _
    rw [if_pos h]
    rfl
  simp only [Bind.bind, EStateM.bind, hdemand]

namespace Invariant

variable {I : Invariant} {watch : Watch}

/-- What the watch expects of good nodes is given by the invariant. -/
def Meets (I : Invariant) (watch : Watch) : Prop :=
  ∀ id node t, I.node node → I.holds id t → watch.expand id node t ∧ watch.evaluate id node t

/-- Where the invariant holds, what is expected can be demanded. -/
theorem obeys_demand {id id' : ScopeId} {good : Node → Prop} {x y : Eval Node}
    {expected : ScopeTree → Bool} (hexpected : ∀ t, I.holds id' t → expected t) (alarm : Fault)
    (h : I.law.Obeys id id' good x y) :
    I.law.Obeys id id' good x (do Eval.demand expected alarm; y) := by
  rintro t _ ⟨rfl, rfl, ht⟩
  rw [Eval.demand_bind (hexpected _ ht)]
  exact h _ _ ⟨rfl, rfl, ht⟩

theorem agree_watchedWithin (h : I.Meets watch) (alarm : Fault) (budget : Nat) :
    I.law.Agree (Passes.within budget) (Passes.watchedWithin watch alarm budget) := by
  induction budget with
  | zero => exact ⟨fun _ => Law.obeys_fault nofun, fun _ => Law.obeys_fault nofun⟩
  | succ budget ih =>
    constructor
    · intro id id' node hnode
      exact obeys_demand (fun t ht => (h id' node t hnode ht).1) alarm (ih.expandNode hnode)
    · intro id id' node hnode
      exact obeys_demand (fun t ht => (h id' node t hnode ht).2) alarm (ih.evaluateNode hnode)

end Invariant

/-- Where an invariant gives what a watch expects, no moment of an operation raises the alarm. -/
theorem Invariant.Lasting.perform_watched {I : Invariant} {watch : Watch} (hlasting : I.Lasting)
    (hmeets : I.Meets watch) {id : ScopeId} {t : ScopeTree} (hholds : I.holds id t) (budget : Nat)
    (alarm : Fault) (op : Operation) :
    op.perform (Passes.watchedWithin watch alarm budget) id t
      = op.perform (Passes.within budget) id t := by
  have hagree := Invariant.agree_watchedWithin hmeets alarm budget
  cases op with
  | nest _ => rfl
  | enter _ _ => rfl
  | switchTo _ => rfl
  | nextId => rfl
  | expand node =>
    have hkeeps := Invariant.keeps_of_obeys (hagree.expand (hlasting.node node)) t hholds
    exact Eval.discard_congr hkeeps.1
  | evaluate node =>
    have hkeeps := Invariant.keeps_of_obeys (hagree.evaluate (hlasting.node node)) t hholds
    exact Eval.discard_congr hkeeps.1
  | run node =>
    have hkeeps := Invariant.keeps_of_obeys (hagree.run (hlasting.node node)) t hholds
    exact Eval.discard_congr hkeeps.1
  | runText text =>
    have hrun : I.law.Obeys id id I.node
        ((Passes.within budget).runReadings id .misread .nil (Form.readAll text))
        ((Passes.watchedWithin watch alarm budget).runReadings id .misread .nil
          (Form.readAll text)) :=
      hagree.runReadings (by simp) Law.good_nil fun form _ => hlasting.node form
    exact Eval.discard_congr (Invariant.keeps_of_obeys hrun t hholds).1

end Lisplet
