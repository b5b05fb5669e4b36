import Lisplet.Proofs.Representation

set_option autoImplicit false

/-! # The namespace of a template

A template that is expanded gets its plain symbols qualified by the namespace that is current in the
scope of the expansion. Since a scope has its current namespace in its own table and never loses a
namespace, the symbols have a place in the table of this scope from then on
(`Reachable.qualified_inOwnTable`). For forms that are expanded in the root that is the table of the
root. A scope inside of it has a namespace of its own, which the root need not have; so what is
qualified there, by way of `eval` or in the output of a macro, may name nothing once the scope is
left (`Reachable.qualified_inLet`). -/

namespace Lisplet

/-! ## What is written on plain symbols -/

/-- Whether a node is a template that gets its symbols qualified when it is expanded. -/
def Node.isSyntaxQuote : Node → Bool
  | .list [.symbol head, _] => SpecialForm.ofName? head.name == some .syntaxQuote
  | _ => false

/-- The namespace on the symbols of a template is the current one of the scope. -/
theorem Eval.expandNode_syntaxQuote (p : Passes) (id : ScopeId) {head : QName}
    (h : SpecialForm.ofName? head.name = some .syntaxQuote) (template : Node) (t : ScopeTree) :
    Eval.expandNode p id (.list [.symbol head, template]) t
      = (do
          let data ← Eval.expandQuoted p id (QName.qualify (t.scope id).current) template
          return .call (QName.plain "syntax-quote") [data] : Eval Node)
          (t.record (.qualified (t.scope id).current)) := by
  rw [Eval.expandNode, h]
  rfl

/-- The watch that expects, whenever such a template is expanded in a scope, to find the current
    namespace of this scope in the table of the scope that is its home. -/
def qualifyingWatch (home : ScopeId → ScopeId) : Watch where
  expand id node t :=
    !node.isSyntaxQuote || (t.scope (home id)).namespaces.contains (t.scope id).current
  evaluate _ _ _ := true

theorem meets_qualifyingWatch (setup : Setup) :
    (soundInvariant setup).Meets (qualifyingWatch fun id => id) := by
  intro id node t _ h
  have hcurrent : (t.scope id).namespaces.contains (t.scope id).current :=
    (h.1.scopes id h.2).hasCurrent
  refine ⟨?_, rfl⟩
  simp [qualifyingWatch, hcurrent]

/-! ## Namespaces stay -/

/-- The scope `home` is there and has the namespace `ns`. -/
structure ScopeTree.HasNamespace (home : ScopeId) (ns : String) (t : ScopeTree) : Prop where
  home_lt : home < t.scopes.size
  contains : (t.scope home).namespaces.contains ns

theorem ScopeTree.HasNamespace.update {home : ScopeId} {ns : String} {t : ScopeTree}
    (h : t.HasNamespace home ns) (id : ScopeId) {change : Scope → Scope}
    (hchange : ∀ s : Scope, s.namespaces.contains ns → (change s).namespaces.contains ns) :
    (t.update id change).HasNamespace home ns := by
  refine ⟨by rw [size_update]; exact h.home_lt, ?_⟩
  exact update_keeps (P := fun s => s.namespaces.contains ns) hchange h.home_lt h.contains

theorem ScopeTree.HasNamespace.addInside {home : ScopeId} {ns : String} {t : ScopeTree}
    (h : t.HasNamespace home ns) (id : ScopeId) : (t.addInside id).HasNamespace home ns := by
  refine ⟨by rw [size_addInside]; exact Nat.lt_succ_of_lt h.home_lt, ?_⟩
  rw [t.scope_addInside_of_lt id h.home_lt]
  exact h.contains

/-- No run takes a namespace away from a scope. -/
def namespaceInvariant (home : ScopeId) (ns : String) : Invariant where
  toDiscipline := .free
  holds _ t := t.HasNamespace home ns
  record _ _ h := ⟨h.home_lt, h.contains⟩
  enter name value _ h := h.update _ fun _ hs => Scope.contains_enter hs (QName.plain name) value
  switchTo {_ _ q} _ h := h.update _ fun _ hs => Scope.contains_switchTo hs q.name
  issue _ h := ⟨⟨h.home_lt, h.contains⟩, trivial⟩
  inside _ h := h.addInside _
  outside _ h _ := h
  find _ _ := trivial
  current _ := trivial

theorem lasting_namespaceInvariant (home : ScopeId) (ns : String) :
    (namespaceInvariant home ns).Lasting where
  node _ := trivial
  every h _ := h
  enter q value h := h.update _ fun _ hs => Scope.contains_enter hs q value
  count h := ⟨h.home_lt, h.contains⟩

/-! ## Templates have their place -/

/-- Every time a template is expanded in a run from a fresh root, in whatever scope that happens,
    its plain symbols are qualified by the current namespace of this scope, and that is a namespace
    in the scope's own table at this moment. No operation takes it away again. In particular, what
    is qualified in the root keeps naming a place in the root. -/
theorem Reachable.qualified_inOwnTable {setup : Setup} {ns : String} {t : ScopeTree}
    (h : Reachable setup ns t) (budget : Nat) (op : Operation) {id : ScopeId}
    (hid : id < t.scopes.size) :
    (∀ alarm,
      op.perform (Passes.watchedWithin (qualifyingWatch fun inner => inner) alarm budget) id t
        = op.perform (Passes.within budget) id t) ∧
    (∀ (p : Passes) (inner : ScopeId) (u : ScopeTree) (form : Node), form.isSyntaxQuote →
      ∃ head template, form = .list [.symbol head, template] ∧
        Eval.expandNode p inner form u
          = (do
              let data ← Eval.expandQuoted p inner (QName.qualify (u.scope inner).current) template
              return .call (QName.plain "syntax-quote") [data] : Eval Node)
              (u.record (.qualified (u.scope inner).current))) ∧
    ∀ (u : ScopeTree) (home inner : ScopeId) (name : String), inner < u.scopes.size →
      u.HasNamespace home name →
      ((op.perform (Passes.within budget) inner).after u).HasNamespace home name := by
  refine ⟨?_, ?_, ?_⟩
  · intro alarm
    exact (lasting_soundInvariant setup).perform_watched (meets_qualifyingWatch setup)
      (h.holds_soundInvariant hid) budget alarm op
  · intro p inner u form hform
    unfold Node.isSyntaxQuote at hform
    split at hform
    · next head template =>
      exact ⟨head, template, rfl, Eval.expandNode_syntaxQuote p inner (beq_iff_eq.1 hform) template u⟩
    · cases hform
  · intro u home inner name hinner hhome
    exact (lasting_namespaceInvariant home name).perform budget hinner hhome op

/-- The form `(let [] (eval '(syntax-quote x)))`, whose template is expanded in the scope of the
    `let`. -/
def quotingInLet : Node :=
  let word (name : String) : Node := .symbol (QName.plain name)
  .list [word "let", .vec [],
    .list [word "eval", .list [word "quote", .list [word "syntax-quote", word "x"]]]]

/-- A template in the scope of a `let`, with the place of its symbols in the table of this scope. -/
theorem Reachable.qualified_inOwnTable_let :
    let setup : Setup := ⟨1, fun _ => .missing⟩
    let op : Operation := .run quotingInLet
    let t := ScopeTree.root setup "user"
    op.perform (Passes.watchedWithin (qualifyingWatch fun inner => inner) .stackExhausted 9)
        ScopeTree.rootId t
      = op.perform (Passes.within 9) ScopeTree.rootId t ∧
    ((op.perform (Passes.within 9) ScopeTree.rootId).after t).HasNamespace ScopeTree.rootId
      "user" := by
  intro setup op t
  have hroot : ScopeTree.rootId < t.scopes.size := Nat.one_pos
  have hreachable : Reachable setup "user" t := .root
  obtain ⟨hwatched, _, hstays⟩ := hreachable.qualified_inOwnTable 9 op hroot
  refine ⟨hwatched .stackExhausted, ?_⟩
  exact hstays t ScopeTree.rootId ScopeTree.rootId "user" hroot ⟨hroot, rfl⟩

/-- The table of the root is not the place: the same form makes a symbol of the namespace of the
    `let`, which the root does not have, and a watch on the table of the root raises the alarm. -/
theorem Reachable.qualified_inLet :
    let setup : Setup := ⟨1, fun _ => .missing⟩
    let t := ScopeTree.root setup "user"
    (∃ t', (Passes.within 9).run ScopeTree.rootId quotingInLet t
        = .ok (.symbol ⟨some "user_chained", "x"⟩) t' ∧
      ¬ t'.HasNamespace ScopeTree.rootId "user_chained") ∧
    ∀ alarm, ∃ t', (Passes.watchedWithin (qualifyingWatch fun _ => ScopeTree.rootId) alarm 9).run
      ScopeTree.rootId quotingInLet t = .error alarm t' := by
  intro setup t
  refine ⟨⟨_, rfl, ?_⟩, fun alarm => ⟨_, rfl⟩⟩
  intro h
  exact absurd h.contains (by decide)

end Lisplet
