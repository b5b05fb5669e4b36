import Lisplet.Proofs.Law.Passes

set_option autoImplicit false

/-! # Expansion and its parts

Expansion takes a node apart and expands what it finds; besides that, it looks at the current
namespace and complains about parts of the node. So a property of computations holds of expansion if
it holds of these steps and of sequences of steps (`Sequential`), up to calls, where a macro may have
to run: there is one lemma to say so for each function of expansion, and `Sequential.Expands.expandNode`
puts them together.

The property is one of families of computations, so that it may be about several runs of the same
code, say with different budgets or in different scopes. -/

namespace Lisplet

/-- The faults that expansion can find with a node. -/
inductive Fault.Blames (node : Node) : Fault → Prop where
  | undispatchable : Blames node (.undispatchable node)
  | wrongType : Blames node (.wrongType node)
  | wrongCount : Blames node (.wrongCount node)

/-- A property of families of computations that a sequence has if its steps have it. -/
structure Sequential (ι : Type) where
  holds : {α : Type} → (ι → Eval α) → Prop
  /-- The faults for which there is no other demand. -/
  fault : Fault → Prop
  pure : ∀ {α : Type} (value : α), holds fun _ => (Pure.pure value : Eval α)
  throw : ∀ {α : Type} {f : Fault}, fault f → holds fun _ => (MonadExcept.throw f : Eval α)
  record : ∀ event : Event, holds fun _ => Eval.record event
  bind : ∀ {α β : Type} {x : ι → Eval α} {f : ι → α → Eval β}, holds x →
    (∀ value, holds fun i => f i value) → holds fun i => x i >>= f i

namespace Sequential

variable {ι : Type} {S : Sequential ι} {α β : Type}

theorem mapM {f : ι → α → Eval β} {items : List α}
    (h : ∀ item ∈ items, S.holds fun i => f i item) : S.holds fun i => items.mapM (f i) := by
  induction items with
  | nil =>
    simp only [List.mapM_nil]
    exact S.pure []
  | cons item items ih =>
    obtain ⟨hitem, hitems⟩ := List.forall_mem_cons.1 h
    simp only [List.mapM_cons]
    refine S.bind hitem fun value => ?_
    exact S.bind (ih hitems) fun values => S.pure (value :: values)

/-! ## Demands on arguments -/

/-- Complaints about the node are allowed. -/
def MayBlame (S : Sequential ι) (node : Node) : Prop := ∀ fault, fault.Blames node → S.fault fault

theorem expectOne {whole : Node} (hwhole : S.MayBlame whole) {args : List Node}
    {f : ι → Node → Eval β} (h : ∀ arg, args = [arg] → S.holds fun i => f i arg) :
    S.holds fun i => Eval.expectOne whole args >>= f i := by
  unfold Eval.expectOne
  split
  · simpa using h _ rfl
  · exact S.throw (hwhole _ .wrongCount)

theorem expectTwo {whole : Node} (hwhole : S.MayBlame whole) {args : List Node}
    {f : ι → Node × Node → Eval β} (h : ∀ a b, args = [a, b] → S.holds fun i => f i (a, b)) :
    S.holds fun i => Eval.expectTwo whole args >>= f i := by
  unfold Eval.expectTwo
  split
  · simpa using h _ _ rfl
  · exact S.throw (hwhole _ .wrongCount)

theorem expectVec {node : Node} (hnode : S.MayBlame node) {f : ι → List Node → Eval β}
    (h : ∀ items, node = .vec items → S.holds fun i => f i items) :
    S.holds fun i => Eval.expectVec node >>= f i := by
  unfold Eval.expectVec
  split
  · simpa using h _ rfl
  · exact S.throw (hnode _ .wrongType)

theorem expectSymbol {node : Node} (hnode : S.MayBlame node) :
    S.holds fun _ => Eval.expectSymbol node := by
  unfold Eval.expectSymbol
  split
  · exact S.pure _
  · exact S.throw (hnode _ .wrongType)

/-! ## Expansion -/

/-- In the scopes `id`, the nodes of a kind are expanded as the property demands, their parts are of
    this kind, and complaints about them are allowed. -/
structure Expands (S : Sequential ι) (p : ι → Passes) (id : ι → ScopeId) (ok : Node → Prop) :
    Prop where
  list : ∀ {items : List Node}, ok (.list items) → ∀ item ∈ items, ok item
  vec : ∀ {items : List Node}, ok (.vec items) → ∀ item ∈ items, ok item
  expand : ∀ {node : Node}, ok node → S.holds fun i => (p i).expand (id i) node
  mayBlame : ∀ {node : Node}, ok node → S.MayBlame node
  current : S.holds fun i => Eval.current (id i)

namespace Expands

variable {p : ι → Passes} {id : ι → ScopeId} {ok : Node → Prop}

theorem expandUnquote (h : S.Expands p id ok) (name : String) {whole : Node}
    (hwhole : S.MayBlame whole) {args : List Node} (hargs : ∀ arg ∈ args, ok arg) :
    S.holds fun i => Eval.expandUnquote (p i) (id i) name whole args := by
  refine expectOne hwhole ?_
  rintro arg rfl
  exact S.bind (h.expand (hargs arg List.mem_cons_self)) fun value => S.pure _

mutual

theorem expandQuoted (h : S.Expands p id ok) (rename : QName → QName) :
    ∀ {template : Node}, ok template →
      S.holds fun i => Eval.expandQuoted (p i) (id i) rename template
  | .symbol _, _ => by
    simp only [Eval.expandQuoted]
    exact S.pure _
  | .vec items, hitems => by
    simp only [Eval.expandQuoted]
    refine S.bind (h.expandQuotedAll rename (h.vec hitems)) fun values => ?_
    exact S.pure (Node.vec values)
  | .list items, hitems => by
    simp only [Eval.expandQuoted]
    cases Eval.unquoteName? items with
    | some name =>
      refine h.expandUnquote name (h.mayBlame hitems) ?_
      intro arg harg
      exact h.list hitems arg (List.mem_of_mem_tail harg)
    | none =>
      refine S.bind (h.expandQuotedAll rename (h.list hitems)) fun values => ?_
      exact S.pure (Node.list values)
  | .number _, _ | .bool _, _ | .string _, _ | .keyword _, _ | .letIn _ _, _ | .fn _ _, _
  | .macroFn _ _, _ | .define _ _, _ | .call _ _, _ | .aliasTo _ _, _ => by
    simp only [Eval.expandQuoted]
    exact S.pure _

theorem expandQuotedAll (h : S.Expands p id ok) (rename : QName → QName) :
    ∀ {items : List Node}, (∀ item ∈ items, ok item) →
      S.holds fun i => Eval.expandQuotedAll (p i) (id i) rename items
  | [], _ => by
    simp only [Eval.expandQuotedAll]
    exact S.pure []
  | item :: items, hitems => by
    obtain ⟨hitem, hitems⟩ := List.forall_mem_cons.1 hitems
    simp only [Eval.expandQuotedAll]
    refine S.bind (h.expandQuoted rename hitem) fun value => ?_
    exact S.bind (h.expandQuotedAll rename hitems) fun values => S.pure (value :: values)

end

theorem expandAbstraction (h : S.Expands p id ok) {whole : Node} (hwhole : S.MayBlame whole)
    {args : List Node} (hargs : ∀ arg ∈ args, ok arg) :
    S.holds fun i => Eval.expandAbstraction (p i) (id i) whole args := by
  unfold Eval.expandAbstraction
  split
  · next params form rest =>
    obtain ⟨hparams, hbody⟩ := List.forall_mem_cons.1 hargs
    refine expectVec (h.mayBlame hparams) ?_
    rintro items rfl
    have hsymbol (item : Node) (hitem : item ∈ items) : S.holds fun _ => Eval.expectSymbol item :=
      expectSymbol (h.mayBlame (h.vec hparams item hitem))
    refine S.bind (mapM hsymbol) fun names => ?_
    refine S.bind (mapM fun form hform => h.expand (hbody form hform)) fun body => ?_
    exact S.pure _
  · exact S.throw (hwhole _ .wrongCount)

theorem expandBinding (h : S.Expands p id ok) {binding : Node × Node} (hname : ok binding.1)
    (hexpr : ok binding.2) : S.holds fun i => Eval.expandBinding (p i) (id i) binding := by
  refine S.bind (expectSymbol (h.mayBlame hname)) fun q => ?_
  exact S.bind (h.expand hexpr) fun expr => S.pure _

theorem expandLet (h : S.Expands p id ok) {whole : Node} (hwhole : S.MayBlame whole)
    {args : List Node} (hargs : ∀ arg ∈ args, ok arg) :
    S.holds fun i => Eval.expandLet (p i) (id i) whole args := by
  cases args with
  | nil => exact S.throw (hwhole _ .wrongCount)
  | cons bindings forms =>
    obtain ⟨hbindings, hforms⟩ := List.forall_mem_cons.1 hargs
    refine expectVec (h.mayBlame hbindings) ?_
    rintro items rfl
    split
    · refine S.bind (mapM fun binding hbinding => ?_) fun made => ?_
      · have hboth := Node.forall_mem_pairs (h.vec hbindings) binding hbinding
        exact h.expandBinding hboth.1 hboth.2
      · refine S.bind (mapM fun form hform => h.expand (hforms form hform)) fun body => ?_
        exact S.pure _
    · exact S.throw (h.mayBlame hbindings _ .wrongCount)

theorem expandSpecial (h : S.Expands p id ok) (form : SpecialForm) {head : QName}
    {args : List Node} (hwhole : S.MayBlame (.list (.symbol head :: args)))
    (hargs : ∀ arg ∈ args, ok arg) :
    S.holds fun i => Eval.expandSpecial (p i) (id i) form head args := by
  cases form with
  | define =>
    refine expectTwo hwhole ?_
    rintro target expr rfl
    refine S.bind (expectSymbol (h.mayBlame (hargs target List.mem_cons_self))) fun q => ?_
    exact S.bind (h.expand (hargs expr (by simp))) fun value => S.pure _
  | fn => exact S.bind (h.expandAbstraction hwhole hargs) fun made => S.pure _
  | macroFn => exact S.bind (h.expandAbstraction hwhole hargs) fun made => S.pure _
  | letIn => exact h.expandLet hwhole hargs
  | quote =>
    refine expectOne hwhole ?_
    rintro template rfl
    exact S.bind (h.expandQuoted _ (hargs template List.mem_cons_self)) fun data => S.pure _
  | syntaxQuote =>
    refine S.bind h.current fun ns => ?_
    refine expectOne hwhole ?_
    rintro template rfl
    refine S.bind (S.record (.qualified ns)) fun _ => ?_
    exact S.bind (h.expandQuoted _ (hargs template List.mem_cons_self)) fun data => S.pure _
  | unquote => exact h.expandUnquote head.name hwhole hargs
  | unquoteSplicing => exact h.expandUnquote head.name hwhole hargs

/-- A node is expanded as the property demands if this is so for its parts and if, in the case of a
    call, the call is. -/
theorem expandNode (h : S.Expands p id ok) {node : Node} (hnode : S.MayBlame node)
    (hparts : ∀ items, node = .list items → ∀ item ∈ items, ok item)
    (hcall : ∀ head args, node = .list (.symbol head :: args) →
      SpecialForm.ofName? head.name = none →
      S.holds fun i => Eval.expandCall (p i) (id i) head args) :
    S.holds fun i => Eval.expandNode (p i) (id i) node := by
  unfold Eval.expandNode
  split
  · next head args =>
    obtain ⟨_, hargs⟩ := List.forall_mem_cons.1 (hparts _ rfl)
    cases hform : SpecialForm.ofName? head.name with
    | some form => exact h.expandSpecial form hnode hargs
    | none => exact hcall head args rfl hform
  · exact S.throw (hnode _ .undispatchable)
  · exact S.pure _

end Expands

end Sequential

end Lisplet
