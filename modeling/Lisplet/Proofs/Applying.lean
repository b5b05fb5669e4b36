import Lisplet.Proofs.Inlining

set_option autoImplicit false

/-! # Applying a name to a vector

`apply` makes a call of a name and the items of a vector and has it evaluated. A form that calls the
name directly is expanded first. If the name is bound to no macro, expansion leaves the call as it
is, and both do the same (`Passes.run_apply`). If it is bound to a macro, the macro runs in both
cases, but the direct call goes on to evaluate the code that it gives, and `apply` returns the code.
The two also differ in what they need of the budget: the call that `apply` makes is one pass further
in. -/

namespace Lisplet

/-! ## Runs up to notes and budgets -/

/-- The same value or the same fault, in trees that differ in their journals at most. -/
inductive SameOutcome {α : Type} :
    EStateM.Result Fault ScopeTree α → EStateM.Result Fault ScopeTree α → Prop where
  | value {value : α} {t t' : ScopeTree} : t.EqUpToJournal t' →
      SameOutcome (.ok value t) (.ok value t')
  | fault {fault : Fault} {t t' : ScopeTree} : t.EqUpToJournal t' →
      SameOutcome (.error fault t) (.error fault t')

/-- With the same budget, runs in trees that are equal up to their journals always do the same. -/
def exactJournalLaw : Law :=
  { journalLaw with
    escape := fun _ => False
    limit_ge := fun h => .inl (by rw [h.1, h.2.scope_eq]) }

namespace SameOutcome

variable {α β : Type} {t t' : ScopeTree}

theorem of_obeys {id : ScopeId} {good : α → Prop} {x y : Eval α}
    (h : exactJournalLaw.Obeys id id good x y) (ht : t.EqUpToJournal t') :
    SameOutcome (x t) (y t') := by
  have hxy := h t t' ⟨rfl, ht⟩
  cases hx : x t with
  | ok value t₁ =>
    rw [hx] at hxy
    obtain ⟨_, _, t₁', hy, _, _, ht₁⟩ := hxy
    rw [hy]
    exact .value ht₁
  | error fault t₁ =>
    rw [hx] at hxy
    obtain ⟨_, _, hescape | ⟨t₁', hy, _, _, ht₁⟩⟩ := hxy
    · exact hescape.elim
    · rw [hy]
      exact .fault ht₁

theorem evaluate (budget : Nat) (id : ScopeId) (node : Node) (ht : t.EqUpToJournal t') :
    SameOutcome ((Passes.within budget).evaluate id node t)
      ((Passes.within budget).evaluate id node t') := by
  have hagree : exactJournalLaw.Agree (.within budget) (.within budget) :=
    exactJournalLaw.agree_within (Nat.le_refl _) (.inl (Nat.le_refl _))
  exact of_obeys (hagree.evaluate trivial) ht

/-- Outcomes that are the same stay so if both runs go on in the same way. -/
theorem bind {x y : Eval α} {f : α → Eval β} (h : SameOutcome (x t) (y t'))
    (hf : ∀ value t₁ t₁', t₁.EqUpToJournal t₁' → SameOutcome (f value t₁) (f value t₁')) :
    SameOutcome ((x >>= f) t) ((y >>= f) t') := by
  simp only [Bind.bind, EStateM.bind]
  generalize x t = outcome at h
  generalize y t' = outcome' at h
  cases h with
  | value ht => exact hf _ _ _ ht
  | fault ht => exact .fault ht

end SameOutcome

/-- Runs in the same tree do the same as long as the smaller budget lasts. -/
def budgetLaw : Law :=
  { Invariant.free.law with
    escape := fun fault => fault = .stackExhausted
    limit_ge := fun h => .inl (by rw [h.1, h.2.1]) }

namespace Passes

variable {budget : Nat} {id : ScopeId} {t : ScopeTree} {args : List Node}

/-- A budget that is not exhausted might as well be larger. -/
theorem evaluate_of_le {more : Nat} (hle : budget ≤ more) {node : Node}
    (hne : ∀ t', (within budget).evaluate id node t ≠ .error .stackExhausted t') :
    (within more).evaluate id node t = (within budget).evaluate id node t := by
  have hagree : budgetLaw.Agree (within budget) (within more) :=
    budgetLaw.agree_within hle (.inr rfl)
  have hobeys : budgetLaw.Obeys id id (fun _ => True)
      ((within budget).evaluate id node) ((within more).evaluate id node) :=
    hagree.evaluate trivial
  have h := hobeys t t ⟨rfl, rfl, trivial⟩
  cases hr : (within budget).evaluate id node t with
  | ok value t₁ =>
    rw [hr] at h
    obtain ⟨_, _, _, hmore, _, _, rfl, _⟩ := h
    exact hmore
  | error fault t₁ =>
    rw [hr] at h
    obtain ⟨_, _, rfl | ⟨_, hmore, _, _, rfl, _⟩⟩ := h
    · exact absurd hr (hne t₁)
    · exact hmore

/-! ## Calls that need no expansion -/

theorem mapM_expand_of_not_list
    (h : ∀ arg ∈ args, ∀ first rest, arg ≠ .list (first :: rest)) :
    args.mapM ((within (budget + 1)).expand id) t = .ok args t := by
  suffices hpure : args.mapM ((within (budget + 1)).expand id) = pure args by
    rw [hpure]
    rfl
  induction args with
  | nil => rfl
  | cons arg args ih =>
    obtain ⟨harg, hargs⟩ := List.forall_mem_cons.1 h
    rw [List.mapM_cons, expand_of_not_list harg, ih hargs, pure_bind, pure_bind]

/-- Running a form that calls a name is evaluating the call, if the name is bound to no macro … -/
theorem run_call_of_plain {f : QName} (hspecial : SpecialForm.ofName? f.name = none)
    (hargs : ∀ arg ∈ args, ∀ first rest, arg ≠ .list (first :: rest))
    (hplain : ∀ params body, t.find? id f ≠ some (.macroFn params body)) :
    (within (budget + 2)).run id (.list (.symbol f :: args)) t
      = (within (budget + 2)).evaluate id (.call f args) t := by
  have hexpand := expand_call_of_plain (budget + 1) hspecial (mapM_expand_of_not_list hargs)
    hplain
  simp only [run, Bind.bind, EStateM.bind, hexpand]

/-- … and if it is, the call is evaluated in the course of expansion, after a note. -/
theorem expand_call_of_macro {f : QName} (hspecial : SpecialForm.ofName? f.name = none)
    (hargs : ∀ arg ∈ args, ∀ first rest, arg ≠ .list (first :: rest)) {params body : List Node}
    (hbound : t.find? id f = some (.macroFn params body)) :
    (within (budget + 2)).expand id (.list (.symbol f :: args)) t
      = (within (budget + 1)).evaluate id (.call f args)
          (t.record (.expanding (.call f args))) := by
  have hvalues : args.mapM ((within (budget + 1)).expand id) t = .ok args t :=
    mapM_expand_of_not_list hargs
  rw [expand_call_eq (budget + 1) hspecial hvalues, hbound]
  rfl

/-- `apply` evaluates the call that it makes. -/
theorem run_apply_eq {ns : Option String}
    (hplain : ∀ params body, t.find? id ⟨ns, "apply"⟩ ≠ some (.macroFn params body)) (f : QName)
    (args : List Node) :
    (within (budget + 2)).run id (.list [.symbol ⟨ns, "apply"⟩, .symbol f, .vec args]) t
      = (within (budget + 1)).evaluate id (.call f args) t := by
  rw [run_call_of_plain rfl (by simp) hplain]
  rfl

/-! ## Applying and calling -/

/-- Suppose that `apply` is bound to no macro, and take the name of no special form and arguments
    that are no lists, but for the empty one.

    If the name is bound to no macro, then applying it to a vector of the arguments does exactly what
    calling it does with a budget of one pass less; so with the same budget, the outcome and the tree
    are the same, unless `apply` exhausts it. If the name is bound to a macro, and it is no builtin,
    then applying it gives what the call is expanded to, and does not evaluate this code; calling it
    is applying it and evaluating the code. -/
theorem run_apply (budget : Nat) {ns : Option String}
    (happly : ∀ params body, t.find? id ⟨ns, "apply"⟩ ≠ some (.macroFn params body)) {f : QName}
    (hspecial : SpecialForm.ofName? f.name = none)
    (hargs : ∀ arg ∈ args, ∀ first rest, arg ≠ .list (first :: rest)) :
    let applied : Node := .list [.symbol ⟨ns, "apply"⟩, .symbol f, .vec args]
    let direct : Node := .list (.symbol f :: args)
    let p := within (budget + 2)
    ((∀ params body, t.find? id f ≠ some (.macroFn params body)) →
      (within (budget + 3)).run id applied t = p.run id direct t ∧
      ((∀ t', p.run id applied t ≠ .error .stackExhausted t') →
        p.run id direct t = p.run id applied t)) ∧
    (Builtin.ofName? f.name = none →
      ∀ params body, t.find? id f = some (.macroFn params body) →
        SameOutcome (p.run id applied t) (p.expand id direct t) ∧
        SameOutcome ((p.run id applied >>= p.evaluate id) t) (p.run id direct t)) := by
  intro applied direct p
  constructor
  · intro hplain
    have hdirect : p.run id direct t = p.evaluate id (.call f args) t :=
      run_call_of_plain hspecial hargs hplain
    constructor
    · rw [hdirect]
      exact run_apply_eq happly f args
    · intro hne
      rw [run_apply_eq happly] at hne ⊢
      rw [hdirect]
      exact evaluate_of_le (Nat.le_succ _) hne
  · intro _ params body hbound
    -- The direct call has taken a note, and that is all the difference.
    have hcode : SameOutcome (p.run id applied t) (p.expand id direct t) := by
      rw [run_apply_eq happly f args, expand_call_of_macro hspecial hargs hbound]
      exact .evaluate _ id _ ⟨rfl, rfl⟩
    refine ⟨hcode, hcode.bind ?_⟩
    intro code t₁ t₁' ht₁
    exact .evaluate _ id code ht₁

/-- A builtin that changes the current namespace, applied and called, and a macro that gives the code
    `(if true "a" "b")`, applied and expanded. -/
theorem run_apply_sample :
    let setup : Setup := ⟨1, fun _ => .missing⟩
    let word (name : String) : Node := .symbol (QName.plain name)
    let branches : List Node := [word "true", .string "a", .string "b"]
    let code : Node := .call (QName.plain "quote") [.list (word "if" :: branches)]
    let t := ((ScopeTree.root setup "user").update ScopeTree.rootId
      (·.enter (QName.plain "x") (word "other"))).update ScopeTree.rootId
      (·.enter (QName.plain "m") (.macroFn [] [code]))
    let p := within 9
    (∃ t', p.run ScopeTree.rootId (.list [word "apply", word "in-ns", .vec [word "x"]]) t
        = .ok (word "user") t' ∧
      p.run ScopeTree.rootId (.list [word "in-ns", word "x"]) t = .ok (word "user") t' ∧
      (t'.scope ScopeTree.rootId).current = "other") ∧
    SameOutcome (p.run ScopeTree.rootId (.list [word "apply", word "m", .vec []]) t)
      (p.expand ScopeTree.rootId (.list [word "m"]) t) := by
  intro setup word branches code t p
  have happly (params body : List Node) :
      t.find? ScopeTree.rootId ⟨none, "apply"⟩ ≠ some (.macroFn params body) := nofun
  constructor
  · obtain ⟨t', happlied, hcurrent⟩ : ∃ t',
        p.run ScopeTree.rootId (.list [word "apply", word "in-ns", .vec [word "x"]]) t
          = .ok (word "user") t' ∧ (t'.scope ScopeTree.rootId).current = "other" := ⟨_, rfl, rfl⟩
    have hplain (params body : List Node) :
        t.find? ScopeTree.rootId (QName.plain "in-ns") ≠ some (.macroFn params body) := nofun
    have hargs : ∀ arg ∈ [word "x"], ∀ first rest, arg ≠ .list (first :: rest) := by simp [word]
    have hsame := (run_apply 7 happly rfl hargs).1 hplain
    refine ⟨t', happlied, ?_, hcurrent⟩
    rw [← happlied]
    refine hsame.2 fun t₁ hend => ?_
    have hboth := happlied.symm.trans hend
    cases hboth
  · have hbound : t.find? ScopeTree.rootId (QName.plain "m") = some (.macroFn [] [code]) := rfl
    exact ((run_apply 7 happly rfl (by simp)).2 rfl [] [code] hbound).1

/-- A macro that gives the code `(if true "a" "b")`: applied, it gives the code, and called, its
    value. -/
theorem run_apply_macro :
    let setup : Setup := ⟨1, fun _ => .missing⟩
    let word (name : String) : Node := .symbol (QName.plain name)
    let branches : List Node := [word "true", .string "a", .string "b"]
    let code : Node := .call (QName.plain "quote") [.list (word "if" :: branches)]
    let t := (ScopeTree.root setup "user").update ScopeTree.rootId
      (·.enter (QName.plain "m") (.macroFn [] [code]))
    let p := within 9
    (∃ t', p.run ScopeTree.rootId (.list [word "apply", word "m", .vec []]) t
      = .ok (.call (QName.plain "if") branches) t') ∧
    ∃ t', p.run ScopeTree.rootId (.list [word "m"]) t = .ok (.string "a") t' :=
  ⟨⟨_, rfl⟩, _, rfl⟩

end Passes

end Lisplet
