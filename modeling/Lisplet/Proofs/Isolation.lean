import Lisplet.Proofs.Law.Invariant

set_option autoImplicit false

/-! # What a run leaves alone

A run in a scope writes to that scope and to scopes that it opens itself; all other scopes are the
same afterwards, however the run ends. For a `let`, which does everything in a scope of its own, it
follows that even the scope around it is the same. -/

namespace Lisplet

namespace Passes

/-- Evaluating a `let` leaves every scope as it was, the one around it included. -/
theorem intact_evaluate_letIn (budget : Nat) (id : ScopeId)
    (bindings body : List Node) (t : ScopeTree) :
    Intact t (((within budget).evaluate id (.letIn bindings body)).after t) := by
  cases budget with
  | zero => exact Intact.refl t
  | succ budget =>
    have hagree := Invariant.free.agree_within budget
    refine intact_nest (.letIn bindings body) ?_ t
    intro inner t'
    exact Invariant.frame_of_obeys (hagree.letInside trivial) t'

/-- An expanded `let` is its own expansion, so running it is evaluating it. -/
theorem intact_run_letIn (budget : Nat) (id : ScopeId) (bindings body : List Node)
    (t : ScopeTree) : Intact t (((within budget).run id (.letIn bindings body)).after t) := by
  cases budget with
  | zero => exact Intact.refl t
  | succ budget => exact intact_evaluate_letIn (budget + 1) id bindings body t

/-- Scopes never write outside themselves. Whatever node is expanded, evaluated or run in a scope,
    in whatever tree, and however that ends, all other scopes are as before and the counter for
    fresh symbols has not gone down; after a `let`, the scope itself is as before, too. -/
theorem keep_other_scopes (budget : Nat) (id : ScopeId) (t : ScopeTree) :
    let p := within budget
    (∀ node, Frame id t ((p.expand id node).after t) ∧ Frame id t ((p.evaluate id node).after t) ∧
      Frame id t ((p.run id node).after t)) ∧
    ∀ bindings body, Intact t ((p.evaluate id (.letIn bindings body)).after t) ∧
      Intact t ((p.run id (.letIn bindings body)).after t) := by
  intro p
  have hagree := Invariant.free.agree_within budget
  constructor
  · intro node
    refine ⟨?_, ?_, ?_⟩
    · exact Invariant.frame_of_obeys (hagree.expand trivial) t
    · exact Invariant.frame_of_obeys (hagree.evaluate trivial) t
    · exact Invariant.frame_of_obeys (hagree.run trivial) t
  · intro bindings body
    constructor
    · exact intact_evaluate_letIn budget id bindings body t
    · exact intact_run_letIn budget id bindings body t

end Passes

end Lisplet
