import Lisplet.Proofs.MacroFree
import Lisplet.Proofs.Termination

set_option autoImplicit false

/-! # Expansion as a function of forms

Where no name is bound to a macro, expansion is syntax (`Passes.expand_syntactic`). For each form and
each namespace there is one outcome, and this is how the expansion of the form ends in all scopes
without macros that have the namespace as the current one, whatever else there is in them. A fault is
about a part of the form. A value is in normal form: wherever evaluation will take a part of it for
code (`Node.HasCode`) there is no list left to be expanded, other than the empty one. So code may be
expanded again, as bodies are in the scope of each call, and stays the same. -/

namespace Lisplet

/-! ## Forms and their parts -/

namespace Node

mutual

/-- Whether a node is built from atoms, lists and vectors, as all forms of a text are. -/
def isForm : Node → Bool
  | .number _ | .bool _ | .string _ | .symbol _ | .keyword _ => true
  | .list items | .vec items => areForms items
  | _ => false

/-- Whether some nodes are forms, all of them. -/
def areForms : List Node → Bool
  | [] => true
  | item :: rest => isForm item && areForms rest

end

theorem areForms_iff {items : List Node} : areForms items ↔ ∀ item ∈ items, item.isForm := by
  induction items with
  | nil => simp [areForms]
  | cons item items ih => simp [areForms, ← ih]

/-- The node itself, or a part of an item of it. -/
inductive HasPart : Node → Node → Prop where
  | self (node : Node) : HasPart node node
  | list {items : List Node} {item part : Node} : item ∈ items → HasPart item part →
      HasPart (.list items) part
  | vec {items : List Node} {item part : Node} : item ∈ items → HasPart item part →
      HasPart (.vec items) part

theorem HasPart.trans {node middle part : Node} (h : node.HasPart middle)
    (h' : middle.HasPart part) : node.HasPart part := by
  induction h with
  | self => exact h'
  | list hitem _ ih => exact .list hitem (ih h')
  | vec hitem _ ih => exact .vec hitem (ih h')

theorem HasPart.of_list {whole : Node} {items : List Node} (h : whole.HasPart (.list items))
    {depth : Nat} (hdepth : (Node.list items).nesting ≤ depth) :
    ∀ item ∈ items, whole.HasPart item ∧ item.nesting < depth := by
  intro item hitem
  have hnested := nesting_lt_of_mem hitem
  rw [nesting] at hdepth
  exact ⟨h.trans (.list hitem (.self item)), by omega⟩

theorem HasPart.of_vec {whole : Node} {items : List Node} (h : whole.HasPart (.vec items))
    {depth : Nat} (hdepth : (Node.vec items).nesting ≤ depth) :
    ∀ item ∈ items, whole.HasPart item ∧ item.nesting < depth := by
  intro item hitem
  have hnested := nesting_lt_of_mem hitem
  rw [nesting] at hdepth
  exact ⟨h.trans (.vec hitem (.self item)), by omega⟩

mutual

/-- The parts of a node that evaluation takes for code, the node itself included. -/
inductive HasCode : Node → Node → Prop where
  | self (node : Node) : HasCode node node
  | define {name : String} {expr code : Node} : HasCode expr code →
      HasCode (.define name expr) code
  | binding {bindings body : List Node} {binding : Node × Node} {code : Node} :
      binding ∈ pairs bindings → HasCode binding.2 code → HasCode (.letIn bindings body) code
  | letBody {bindings body : List Node} {form code : Node} : form ∈ body → HasCode form code →
      HasCode (.letIn bindings body) code
  | fnBody {params body : List Node} {form code : Node} : form ∈ body → HasCode form code →
      HasCode (.fn params body) code
  | macroBody {params body : List Node} {form code : Node} : form ∈ body → HasCode form code →
      HasCode (.macroFn params body) code
  | arg {head : QName} {args : List Node} {arg code : Node} :
      Builtin.ofName? head.name ≠ some .template → arg ∈ args → HasCode arg code →
      HasCode (.call head args) code
  /-- The argument of a call of `quote` or `syntax-quote` is data. -/
  | template {head : QName} {args : List Node} {template code : Node} :
      Builtin.ofName? head.name = some .template → template ∈ args →
      TemplateHasCode template code → HasCode (.call head args) code

/-- The code in a template: that in its unquotes. -/
inductive TemplateHasCode : Node → Node → Prop where
  | list {items : List Node} {item code : Node} : item ∈ items → TemplateHasCode item code →
      TemplateHasCode (.list items) code
  | vec {items : List Node} {item code : Node} : item ∈ items → TemplateHasCode item code →
      TemplateHasCode (.vec items) code
  | unquote {head : QName} {args : List Node} {arg code : Node} :
      SpecialForm.IsUnquote head.name → arg ∈ args → HasCode arg code →
      TemplateHasCode (.call head args) code

end

end Node

/-! ## One outcome for all scopes -/

namespace Eval

/-- How a computation ends that leaves the tree `t`. -/
def ending {α : Type} (outcome : Except Fault α) (t : ScopeTree) :
    EStateM.Result Fault ScopeTree α :=
  match outcome with
  | .ok value => .ok value t
  | .error fault => .error fault t

end Eval

/-- Where a form is expanded: the scope, and the budget that is not needed for the form itself. -/
structure Place where
  spare : Nat
  id : ScopeId

/-- At all places where no name is bound to a macro and `ns` is the current namespace, the
    computations have the same outcome and change nothing but the journal; and a fault is about a
    part of `whole`. -/
def syntactic (ns : String) (whole : Node) : Sequential Place where
  fault fault := ∃ part, whole.HasPart part ∧ fault.Blames part
  holds x := ∃ outcome, (∀ fault, outcome = .error fault →
      ∃ part, whole.HasPart part ∧ fault.Blames part) ∧
    ∀ (i : Place) (t : ScopeTree), t.MacroFree ns i.id →
      ∃ t', t.EqUpToJournal t' ∧ x i t = Eval.ending outcome t'
  pure value := ⟨.ok value, nofun, fun _ t _ => ⟨t, .refl t, rfl⟩⟩
  throw {_ fault} h := by
    refine ⟨.error fault, ?_, fun _ t _ => ⟨t, .refl t, rfl⟩⟩
    rintro _ ⟨⟩
    exact h
  record event := ⟨.ok (), nofun, fun _ t _ => ⟨t.record event, ⟨rfl, rfl⟩, rfl⟩⟩
  bind {_ _ x f} hx hf := by
    obtain ⟨outcome, hfault, hx⟩ := hx
    cases outcome with
    | error fault =>
      refine ⟨.error fault, ?_, fun i t ht => ?_⟩
      · rintro _ ⟨⟩
        exact hfault fault rfl
      · obtain ⟨t₁, ht₁, hrun⟩ := hx i t ht
        exact ⟨t₁, ht₁, by simp only [Bind.bind, EStateM.bind, hrun, Eval.ending]⟩
    | ok value =>
      obtain ⟨outcome, hfault, hf⟩ := hf value
      refine ⟨outcome, hfault, fun i t ht => ?_⟩
      obtain ⟨t₁, ht₁, hrun⟩ := hx i t ht
      obtain ⟨t₂, ht₂, hrun'⟩ := hf i t₁ (ht.of_scopes_eq ht₁.scopes_eq)
      refine ⟨t₂, ht₁.trans ht₂, ?_⟩
      rw [← hrun']
      simp only [Bind.bind, EStateM.bind, hrun, Eval.ending]

namespace Syntactic

variable {ns : String} {whole : Node}

/-- The scopes are chosen so that the current namespace is the same. -/
theorem current : (syntactic ns whole).holds fun i => Eval.current i.id :=
  ⟨.ok ns, nofun, fun _ t ht => ⟨t, .refl t, congrArg (EStateM.Result.ok · t) ht.current_eq⟩⟩

/-- Calls stay calls, whatever their head is bound to. -/
theorem expandCall {p : Place → Passes} {args : List Node}
    (h : ∀ arg ∈ args, (syntactic ns whole).holds fun i => (p i).expand i.id arg) (head : QName) :
    (syntactic ns whole).holds fun i => Eval.expandCall (p i) i.id head args := by
  refine (syntactic ns whole).bind (Sequential.mapM h) fun values => ?_
  refine ⟨.ok (.call head values), nofun, fun i t ht => ⟨t, .refl t, ?_⟩⟩
  exact Eval.keepCall (ht.not_macro head) (p i) values

/-- Parts of a form that are nested less than `depth` take no more budget than that. -/
theorem expand (depth : Nat) {node : Node} (hpart : whole.HasPart node)
    (hdepth : node.nesting < depth) :
    (syntactic ns whole).holds fun i =>
      (Passes.within (i.spare + depth)).expand i.id node := by
  have hblame {node : Node} (hpart : whole.HasPart node) : (syntactic ns whole).MayBlame node :=
    fun _ hfault => ⟨node, hpart, hfault⟩
  induction depth generalizing node with
  | zero => exact absurd hdepth (Nat.not_lt_zero _)
  | succ depth ih =>
    have hexpands : (syntactic ns whole).Expands (fun i => Passes.within (i.spare + depth)) (·.id)
        (fun part => whole.HasPart part ∧ part.nesting < depth) := by
      refine ⟨?_, ?_, fun h => ih h.1 h.2, fun h => hblame h.1, current⟩
      · exact fun h => h.1.of_list (Nat.le_of_lt h.2)
      · exact fun h => h.1.of_vec (Nat.le_of_lt h.2)
    have hitems : ∀ items, node = .list items → ∀ item ∈ items,
        whole.HasPart item ∧ item.nesting < depth := by
      rintro items rfl
      exact hpart.of_list (Nat.lt_succ_iff.1 hdepth)
    refine hexpands.expandNode (hblame hpart) hitems ?_
    rintro head args rfl _
    obtain ⟨_, hargs⟩ := List.forall_mem_cons.1 (hitems _ rfl)
    exact expandCall (fun arg harg => hexpands.expand (hargs arg harg)) head

end Syntactic

/-! ## Normal forms -/

namespace Node

/-- Nothing that evaluation takes for code is a list to be expanded. -/
def IsNormal (node : Node) : Prop :=
  ∀ code, node.HasCode code → ∀ first rest, code ≠ .list (first :: rest)

/-- The same for the code in a template. -/
def IsNormalTemplate (template : Node) : Prop :=
  ∀ code, template.TemplateHasCode code → ∀ first rest, code ≠ .list (first :: rest)

/-- A form is code as a whole, but no part of it is. -/
theorem isNormal_of_isForm {node : Node} (hform : node.isForm)
    (hnot : ∀ first rest, node ≠ .list (first :: rest)) : node.IsNormal := by
  intro code hcode
  cases hcode with
  | self => exact hnot
  | _ => cases hform

theorem isNormal_define {name : String} {expr : Node} (h : expr.IsNormal) :
    (Node.define name expr).IsNormal := by
  intro code hcode
  cases hcode with
  | self => nofun
  | define hexpr => exact h code hexpr

theorem isNormal_fn {params body : List Node} (h : ∀ form ∈ body, form.IsNormal) :
    (Node.fn params body).IsNormal := by
  intro code hcode
  cases hcode with
  | self => nofun
  | fnBody hform hcode => exact h _ hform code hcode

theorem isNormal_macroFn {params body : List Node} (h : ∀ form ∈ body, form.IsNormal) :
    (Node.macroFn params body).IsNormal := by
  intro code hcode
  cases hcode with
  | self => nofun
  | macroBody hform hcode => exact h _ hform code hcode

theorem isNormal_letIn {bindings body : List Node}
    (hbindings : ∀ binding ∈ pairs bindings, binding.2.IsNormal)
    (hbody : ∀ form ∈ body, form.IsNormal) : (Node.letIn bindings body).IsNormal := by
  intro code hcode
  cases hcode with
  | self => nofun
  | binding hbinding hcode => exact hbindings _ hbinding code hcode
  | letBody hform hcode => exact hbody _ hform code hcode

theorem isNormal_call {head : QName} {args : List Node}
    (hhead : Builtin.ofName? head.name ≠ some .template) (h : ∀ arg ∈ args, arg.IsNormal) :
    (Node.call head args).IsNormal := by
  intro code hcode
  cases hcode with
  | self => nofun
  | arg _ harg hcode => exact h _ harg code hcode
  | template hquote _ _ => exact absurd hquote hhead

theorem isNormal_quoting {name : String} (hname : Builtin.ofName? name = some .template)
    {data : Node} (h : data.IsNormalTemplate) :
    (Node.call (QName.plain name) [data]).IsNormal := by
  intro code hcode
  cases hcode with
  | self => nofun
  | arg hnot _ _ => exact absurd hname hnot
  | template _ hdata hcode =>
    rw [List.mem_singleton.1 hdata] at hcode
    exact h code hcode

end Node

section Rules

variable {R : Node → Node → Prop}

/-- Forms are expanded to normal forms. -/
def NormalizesForms (R : Node → Node → Prop) : Prop :=
  ∀ node value, R node value → node.isForm → value.IsNormal

theorem NormalizesForms.all (hR : NormalizesForms R) {forms values : List Node}
    (h : List.Forall₂ R forms values) (hforms : ∀ form ∈ forms, form.isForm) :
    ∀ value ∈ values, value.IsNormal := by
  induction h with
  | nil => simp
  | cons hvalue _ ih =>
    obtain ⟨hform, hforms⟩ := List.forall_mem_cons.1 hforms
    exact List.forall_mem_cons.2 ⟨hR _ _ hvalue hform, ih hforms⟩

mutual

theorem QuotedBy.isNormalTemplate (hR : NormalizesForms R) {rename : QName → QName} :
    ∀ {template data : Node}, QuotedBy R rename template data → template.isForm →
      data.IsNormalTemplate
  | _, _, .symbol _, _ => by nofun
  | _, _, .vec hitems, hform => by
    rintro code (_ | ⟨hitem, hcode⟩ | _)
    exact hitems.isNormalTemplate hR (Node.areForms_iff.1 hform) _ hitem code hcode
  | _, _, .list _ hitems, hform => by
    rintro code (⟨hitem, hcode⟩ | _ | _)
    exact hitems.isNormalTemplate hR (Node.areForms_iff.1 hform) _ hitem code hcode
  | _, _, @QuotedBy.unquote _ _ _ arg value _ hvalue, hform => by
    rintro code (_ | _ | ⟨_, hmem, hcode⟩)
    rw [List.mem_singleton.1 hmem] at hcode
    exact hR arg value hvalue (Node.areForms_iff.1 hform arg (by simp)) code hcode
  | _, _, .other _ hvec hlist, hform => by
    intro code hcode
    cases hcode with
    | list _ _ => exact absurd rfl (hlist _)
    | vec _ _ => exact absurd rfl (hvec _)
    | unquote _ _ _ => cases hform

theorem QuotedAllBy.isNormalTemplate (hR : NormalizesForms R) {rename : QName → QName} :
    ∀ {items values : List Node}, QuotedAllBy R rename items values →
      (∀ item ∈ items, item.isForm) → ∀ value ∈ values, value.IsNormalTemplate
  | _, _, .nil, _ => by simp
  | _, _, .cons hvalue hvalues, hforms => by
    obtain ⟨hform, hforms⟩ := List.forall_mem_cons.1 hforms
    exact List.forall_mem_cons.2
      ⟨hvalue.isNormalTemplate hR hform, hvalues.isNormalTemplate hR hforms⟩

end

theorem BindsBy.isNormal (hR : NormalizesForms R) {items bindings : List Node}
    (h : BindsBy R items bindings) (hforms : ∀ item ∈ items, item.isForm) :
    ∀ binding ∈ Node.pairs bindings, binding.2.IsNormal := by
  induction h with
  | nil => simp [Node.pairs]
  | cons hvalue _ ih =>
    simp only [List.forall_mem_cons] at hforms
    simp only [Node.pairs, List.forall_mem_cons]
    exact ⟨hR _ _ hvalue hforms.2.1, ih hforms.2.2⟩

/-- Builtins that fill templates have the names of the forms that make them. -/
theorem Builtin.eq_template {name : String} (h : ofName? name = some .template) :
    name = "quote" ∨ name = "syntax-quote" := by
  unfold ofName? at h
  split at h <;> simp_all

theorem SpecialBy.isNormal (hR : NormalizesForms R) {ns name : String} {form : SpecialForm}
    (hname : SpecialForm.ofName? name = some form) {args : List Node} {value : Node}
    (h : SpecialBy R ns name form args value) (hargs : ∀ arg ∈ args, arg.isForm) :
    value.IsNormal := by
  cases h with
  | define hexpr => exact Node.isNormal_define (hR _ _ hexpr (hargs _ (by simp)))
  | fn _ hbody => exact Node.isNormal_fn (hR.all hbody (List.forall_mem_cons.1 hargs).2)
  | macroFn _ hbody => exact Node.isNormal_macroFn (hR.all hbody (List.forall_mem_cons.1 hargs).2)
  | letIn hbindings hbody =>
    obtain ⟨hvec, hforms⟩ := List.forall_mem_cons.1 hargs
    exact Node.isNormal_letIn (hbindings.isNormal hR (Node.areForms_iff.1 hvec))
      (hR.all hbody hforms)
  | quote htemplate =>
    exact Node.isNormal_quoting rfl (htemplate.isNormalTemplate hR (hargs _ List.mem_cons_self))
  | syntaxQuote htemplate =>
    exact Node.isNormal_quoting rfl (htemplate.isNormalTemplate hR (hargs _ List.mem_cons_self))
  | unquote harg =>
    refine Node.isNormal_call ?_ ?_
    · rw [QName.plain, SpecialForm.eq_unquote hname]
      intro hquote
      cases hquote
    · simpa using hR _ _ harg (hargs _ List.mem_cons_self)
  | unquoteSplicing harg =>
    refine Node.isNormal_call ?_ ?_
    · rw [QName.plain, SpecialForm.eq_unquoteSplicing hname]
      intro hquote
      cases hquote
    · simpa using hR _ _ harg (hargs _ List.mem_cons_self)

theorem ExpandsBy.isNormal (hR : NormalizesForms R) (ns : String) :
    NormalizesForms (ExpandsBy R ns) := by
  intro node value h hform
  cases h with
  | same hnot => exact Node.isNormal_of_isForm hform hnot
  | special hname hspecial =>
    obtain ⟨_, hargs⟩ := List.forall_mem_cons.1 (Node.areForms_iff.1 hform)
    exact hspecial.isNormal hR hname hargs
  | call hname hvalues =>
    obtain ⟨_, hargs⟩ := List.forall_mem_cons.1 (Node.areForms_iff.1 hform)
    refine Node.isNormal_call ?_ (hR.all hvalues hargs)
    intro hquote
    rcases Builtin.eq_template hquote with hquote | hquote
    · rw [hquote] at hname
      cases hname
    · rw [hquote] at hname
      cases hname

end Rules

theorem ExpandsTo.isNormal (ns : String) (budget : Nat) :
    NormalizesForms (ExpandsTo ns budget) := by
  induction budget with
  | zero => exact fun _ _ h => h.elim
  | succ budget ih => exact ExpandsBy.isNormal ih ns

/-! ## Expansion without macros -/

namespace Passes

/-- Without macros, expansion is a function of the form and the current namespace. There is one
    outcome for all scopes from which no name is bound to a macro and which have the namespace, in
    whatever trees, with whatever setup, and with any budget larger than the form is nested. A fault
    is that a part of the form cannot be dispatched, has the wrong type or has the wrong number of
    items. In a value, nothing that evaluation takes for code is a list other than the empty one; so
    all of it is its own expansion, in any scope. Nothing but the journal is changed. -/
theorem expand_syntactic (ns : String) {node : Node} (hform : node.isForm) :
    ∃ outcome : Except Fault Node,
      (∀ (budget : Nat) (id : ScopeId) (t : ScopeTree), node.nesting < budget →
        (t.scope id).current = ns →
        (∀ q params body, t.find? id q ≠ some (.macroFn params body)) →
        ∃ t', t.EqUpToJournal t' ∧
          (within budget).expand id node t = Eval.ending outcome t') ∧
      (∀ fault, outcome = .error fault → ∃ part, node.HasPart part ∧ fault.Blames part) ∧
      ∀ value, outcome = .ok value → ∀ code, value.HasCode code →
        (∀ first rest, code ≠ .list (first :: rest)) ∧
        ∀ (budget : Nat) (id : ScopeId) (t : ScopeTree),
          (within (budget + 1)).expand id code t = .ok code t := by
  have hexpand : (syntactic ns node).holds fun i =>
      (within (i.spare + (node.nesting + 1))).expand i.id node :=
    Syntactic.expand _ (.self node) (Nat.lt_succ_self _)
  obtain ⟨outcome, hfault, hruns⟩ := hexpand
  refine ⟨outcome, ?_, hfault, ?_⟩
  · intro budget id t hbudget hcurrent hmacros
    have hrun := hruns ⟨budget - (node.nesting + 1), id⟩ t ⟨hcurrent, hmacros⟩
    have hsum : budget - (node.nesting + 1) + (node.nesting + 1) = budget := by omega
    simpa only [hsum] using hrun
  · rintro value rfl code hcode
    -- The value can be read off a fresh root.
    have hroot := ScopeTree.macroFree_root default ns
    obtain ⟨t', _, hrun⟩ := hruns ⟨0, ScopeTree.rootId⟩ _ hroot
    have hexpands := ((yields_expand _ node _ hroot).1 value t' hrun).1
    have hnot := ExpandsTo.isNormal ns _ node value hexpands hform code hcode
    refine ⟨hnot, fun budget id t => ?_⟩
    rw [expand_of_not_list hnot]
    rfl

/-- The form ``(def x `(a ~(f y)))`` in a fresh root. -/
theorem expand_syntactic_template :
    let root := ScopeTree.root ⟨1, fun _ => .missing⟩ "user"
    let word (name : String) : Node := .symbol (QName.plain name)
    let form : Node := .list [word "def", word "x", .list [word "syntax-quote",
      .list [word "a", .list [word "unquote", .list [word "f", word "y"]]]]]
    let value : Node := .define "x" (.call (QName.plain "syntax-quote")
      [.list [.symbol ⟨some "user", "a"⟩,
        .call (QName.plain "unquote") [.call (QName.plain "f") [word "y"]]]])
    (∃ t', (within 6).expand ScopeTree.rootId form root = .ok value t') ∧
    ∀ code, value.HasCode code → ∀ (budget : Nat) (id : ScopeId) (t : ScopeTree),
      (within (budget + 1)).expand id code t = .ok code t := by
  intro root word form value
  obtain ⟨t₁, hvalue⟩ : ∃ t₁, (within 6).expand ScopeTree.rootId form root = .ok value t₁ :=
    ⟨_, rfl⟩
  have hform : form.isForm := rfl
  have hfree : root.MacroFree "user" ScopeTree.rootId := ScopeTree.macroFree_root _ "user"
  obtain ⟨outcome, hruns, _, hnormal⟩ := expand_syntactic "user" hform
  obtain ⟨t₂, _, hrun⟩ := hruns 6 ScopeTree.rootId root (by decide) rfl hfree.not_macro
  have houtcome : outcome = .ok value := by
    rw [hvalue] at hrun
    cases outcome with
    | ok _ => cases hrun; rfl
    | error _ => cases hrun
  exact ⟨⟨t₁, hvalue⟩, fun code hcode => (hnormal value houtcome code hcode).2⟩

end Passes

end Lisplet
