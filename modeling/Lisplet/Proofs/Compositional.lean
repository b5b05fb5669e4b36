import Lisplet.Proofs.Sequential

set_option autoImplicit false

/-! # Computations and their parts

Expansion takes a node apart and expands what it finds, and most builtins do the same with their
arguments. A property of computations is `Compositional` if the whole has it as soon as its parts
have it. Then all these functions have it if the passes have it on the parts of the node, and there
is one lemma to say so for each of them, those on expansion being the ones of `Sequential`. What they
do beyond that is left to the property itself: calls and, in expansion, runs of macros.

The property is one of families of computations, so that it may be about several runs of the same
code, say with different budgets. -/

namespace Lisplet

/-! ## Computations that only look -/

namespace Eval

variable {α β : Type}

/-- The computation leaves the tree as it is, and does not run out of budget. -/
def Inert (x : Eval α) : Prop :=
  ∀ t, (∃ value, x t = .ok value t) ∨ ∃ fault, fault ≠ .stackExhausted ∧ x t = .error fault t

theorem Inert.after_eq {x : Eval α} (h : x.Inert) (t : ScopeTree) :
    x.after t = t := by
  rcases h t with ⟨value, hx⟩ | ⟨fault, _, hx⟩
  · exact after_of_ok hx
  · exact after_of_error hx

theorem inert_pure (value : α) : Inert (pure value : Eval α) := fun _ => .inl ⟨value, rfl⟩

theorem inert_throw {fault : Fault} (h : fault ≠ .stackExhausted) :
    Inert (throw fault : Eval α) := fun _ => .inr ⟨fault, h, rfl⟩

theorem inert_current (id : ScopeId) : Inert (current id) := fun _ => .inl ⟨_, rfl⟩

theorem inert_find? (id : ScopeId) (q : QName) : Inert (find? id q) := fun _ => .inl ⟨_, rfl⟩

theorem Inert.bind {x : Eval α} {f : α → Eval β} (hx : x.Inert) (hf : ∀ value, (f value).Inert) :
    (x >>= f).Inert := by
  intro t
  rcases hx t with ⟨value, h⟩ | ⟨fault, hfault, h⟩
  · have hrun : (x >>= f) t = f value t := by simp only [Bind.bind, EStateM.bind, h]
    rw [hrun]
    exact hf value t
  · exact .inr ⟨fault, hfault, by simp only [Bind.bind, EStateM.bind, h]⟩

theorem inert_resolve (id : ScopeId) (q : QName) : Inert (resolve id q) := by
  refine (inert_find? id q).bind ?_
  intro found
  cases found with
  | none => exact inert_throw nofun
  | some value => exact inert_pure value

end Eval

/-! ## Compositional properties -/

/-- A property of families of computations that the whole has if its parts have it. -/
structure Compositional (ι : Type) where
  holds : {α : Type} → (ι → Eval α) → Prop
  inert : ∀ {α : Type} {x : Eval α}, x.Inert → holds fun _ => x
  record : ∀ event : Event, holds fun _ => Eval.record event
  bind : ∀ {α β : Type} {x : ι → Eval α} {f : ι → α → Eval β}, holds x →
    (∀ value, holds fun i => f i value) → holds fun i => x i >>= f i

namespace Compositional

variable {ι : Type} {C : Compositional ι} {p : ι → Passes} {id : ScopeId} {ok : Node → Prop}
  {α β : Type}

theorem pure (value : α) : C.holds fun _ => (Pure.pure value : Eval α) :=
  C.inert (Eval.inert_pure value)

theorem throw {fault : Fault} (h : fault ≠ .stackExhausted) :
    C.holds fun _ => (MonadExcept.throw fault : Eval α) :=
  C.inert (Eval.inert_throw h)

theorem throw_bind {fault : Fault} (h : fault ≠ .stackExhausted) (f : ι → α → Eval β) :
    C.holds fun i => (MonadExcept.throw fault : Eval α) >>= f i :=
  C.throw h

theorem map {x : ι → Eval α} (h : C.holds x) (f : α → β) : C.holds fun i => f <$> x i := by
  simp only [map_eq_pure_bind]
  exact C.bind h fun value => C.pure (f value)

/-- The property, as far as expansion is concerned. -/
def sequential (C : Compositional ι) : Sequential ι where
  holds := C.holds
  fault fault := fault ≠ .stackExhausted
  pure := C.pure
  throw := C.throw
  record := C.record
  bind := C.bind

theorem mayBlame (C : Compositional ι) (node : Node) : C.sequential.MayBlame node := by
  rintro _ (_ | _ | _) <;> nofun

theorem mapM {f : ι → α → Eval β} {items : List α}
    (h : ∀ item ∈ items, C.holds fun i => f i item) : C.holds fun i => items.mapM (f i) :=
  C.sequential.mapM h

/-! ## Demands on arguments -/

theorem expectOne {whole : Node} {args : List Node} {f : ι → Node → Eval β}
    (h : ∀ arg, args = [arg] → C.holds fun i => f i arg) :
    C.holds fun i => Eval.expectOne whole args >>= f i :=
  C.sequential.expectOne (C.mayBlame whole) h

theorem expectTwo {whole : Node} {args : List Node} {f : ι → Node × Node → Eval β}
    (h : ∀ a b, args = [a, b] → C.holds fun i => f i (a, b)) :
    C.holds fun i => Eval.expectTwo whole args >>= f i :=
  C.sequential.expectTwo (C.mayBlame whole) h

theorem expectThree {whole : Node} {args : List Node} {f : ι → Node × Node × Node → Eval β}
    (h : ∀ a b c, args = [a, b, c] → C.holds fun i => f i (a, b, c)) :
    C.holds fun i => Eval.expectThree whole args >>= f i := by
  unfold Eval.expectThree
  split
  · simpa using h _ _ _ rfl
  · exact C.throw_bind (by nofun) f

theorem expectSymbol (node : Node) : C.holds fun _ => Eval.expectSymbol node :=
  C.sequential.expectSymbol (C.mayBlame node)

theorem expectString (node : Node) : C.holds fun _ => Eval.expectString node := by
  unfold Eval.expectString
  split
  · exact C.pure _
  · exact C.throw nofun

theorem expectNumber (node : Node) : C.holds fun _ => Eval.expectNumber node := by
  unfold Eval.expectNumber
  split
  · exact C.pure _
  · exact C.throw nofun

theorem expectList (node : Node) : C.holds fun _ => Eval.expectList node := by
  unfold Eval.expectList
  split
  · exact C.pure _
  · exact C.throw nofun

/-! ## Expansion -/

/-- The nodes of a kind are expanded as the property demands, and their parts are of this kind. -/
structure Expands (C : Compositional ι) (p : ι → Passes) (id : ScopeId) (ok : Node → Prop) :
    Prop where
  list : ∀ {items : List Node}, ok (.list items) → ∀ item ∈ items, ok item
  vec : ∀ {items : List Node}, ok (.vec items) → ∀ item ∈ items, ok item
  expand : ∀ {node : Node}, ok node → C.holds fun i => (p i).expand id node

/-- A node is expanded as the property demands if this is so for its parts and if, in the case of a
    call, the call is. -/
theorem Expands.expandNode (h : C.Expands p id ok) {node : Node}
    (hparts : ∀ items, node = .list items → ∀ item ∈ items, ok item)
    (hcall : ∀ head args, node = .list (.symbol head :: args) →
      SpecialForm.ofName? head.name = none →
      C.holds fun i => Eval.expandCall (p i) id head args) :
    C.holds fun i => Eval.expandNode (p i) id node := by
  have hexpands : C.sequential.Expands p (fun _ => id) ok :=
    { list := h.list
      vec := h.vec
      expand := h.expand
      mayBlame := fun {node} _ => C.mayBlame node
      current := C.inert (Eval.inert_current id) }
  exact hexpands.expandNode (C.mayBlame node) hparts hcall

/-! ## Templates and builtins -/

/-- The nodes of a kind are evaluated as the property demands, and their parts are of this kind. -/
structure Evaluates (C : Compositional ι) (p : ι → Passes) (id : ScopeId) (ok : Node → Prop) :
    Prop where
  list : ∀ {items : List Node}, ok (.list items) → ∀ item ∈ items, ok item
  vec : ∀ {items : List Node}, ok (.vec items) → ∀ item ∈ items, ok item
  call : ∀ {head : QName} {args : List Node}, ok (.call head args) → ∀ arg ∈ args, ok arg
  evaluate : ∀ {node : Node}, ok node → C.holds fun i => (p i).evaluate id node

theorem Evaluates.unquoted (h : C.Evaluates p id ok) (whole : Node) {args : List Node}
    (hargs : ∀ arg ∈ args, ok arg) : C.holds fun i => Eval.unquoted (p i) id whole args := by
  refine C.expectOne ?_
  rintro arg rfl
  exact h.evaluate (hargs arg List.mem_cons_self)

theorem Evaluates.spliced (h : C.Evaluates p id ok) (whole : Node) {args : List Node}
    (hargs : ∀ arg ∈ args, ok arg) : C.holds fun i => Eval.spliced (p i) id whole args :=
  C.bind (h.unquoted whole hargs) fun value => C.expectList value

mutual

theorem Evaluates.fill (h : C.Evaluates p id ok) :
    ∀ {template : Node}, ok template → C.holds fun i => Eval.fill (p i) id template
  | .call head args, hcall => by
    simp only [Eval.fill]
    split
    · exact h.unquoted _ (h.call hcall)
    · split
      · exact C.map (h.spliced _ (h.call hcall)) _
      · exact C.pure _
  | .list items, hitems => by
    simp only [Eval.fill]
    exact C.map (h.fillAll (h.list hitems)) _
  | .vec items, hitems => by
    simp only [Eval.fill]
    exact C.map (h.fillAll (h.vec hitems)) _
  | .number _, _ | .bool _, _ | .string _, _ | .symbol _, _ | .keyword _, _ | .letIn _ _, _
  | .fn _ _, _ | .macroFn _ _, _ | .define _ _, _ | .aliasTo _ _, _ => by
    simp only [Eval.fill]
    exact C.pure _

theorem Evaluates.fillAll (h : C.Evaluates p id ok) :
    ∀ {items : List Node}, (∀ item ∈ items, ok item) →
      C.holds fun i => Eval.fillAll (p i) id items
  | [], _ => by
    simp only [Eval.fillAll]
    exact C.pure []
  | item :: items, hitems => by
    obtain ⟨hitem, hitems⟩ := List.forall_mem_cons.1 hitems
    have hrest (values : List Node) :
        C.holds fun i => do return values ++ (← Eval.fillAll (p i) id items) :=
      C.bind (h.fillAll hitems) fun others => C.pure (values ++ others)
    simp only [Eval.fillAll]
    cases hargs : Eval.spliceArgs? item with
    | none => exact C.bind (C.map (h.fill hitem) _) hrest
    | some args =>
      refine C.bind (h.spliced item ?_) hrest
      -- A splice is a call.
      unfold Eval.spliceArgs? at hargs
      split at hargs
      · split at hargs
        · cases hargs
          exact h.call hitem
        · cases hargs
      · cases hargs

end

theorem Evaluates.numberOf (h : C.Evaluates p id ok) {arg : Node} (harg : ok arg) :
    C.holds fun i => Eval.numberOf (p i) id arg :=
  C.bind (h.evaluate harg) fun value => C.expectNumber value

theorem Evaluates.accumulate (h : C.Evaluates p id ok) (combine : Double → Double → Double)
    (result : Double) {args : List Node} (hargs : ∀ arg ∈ args, ok arg) :
    C.holds fun i => Eval.accumulate (p i) id combine result args := by
  induction args generalizing result with
  | nil => exact C.pure _
  | cons arg args ih =>
    obtain ⟨harg, hargs⟩ := List.forall_mem_cons.1 hargs
    exact C.bind (h.numberOf harg) fun value => ih (combine result value) hargs

theorem Evaluates.reduce (h : C.Evaluates p id ok) (whole : Node) (alone : Double → Double)
    (combine : Double → Double → Double) {args : List Node} (hargs : ∀ arg ∈ args, ok arg) :
    C.holds fun i => Eval.reduce (p i) id whole alone combine args := by
  unfold Eval.reduce
  split
  · exact C.throw nofun
  · exact C.bind (h.numberOf (hargs _ List.mem_cons_self)) fun value => C.pure _
  · obtain ⟨harg, hargs⟩ := List.forall_mem_cons.1 hargs
    exact C.bind (h.numberOf harg) fun first => h.accumulate combine first hargs

theorem Evaluates.compareFrom (h : C.Evaluates p id ok) (inOrder : Double → Double → Bool)
    (previous : Double) {args : List Node} (hargs : ∀ arg ∈ args, ok arg) :
    C.holds fun i => Eval.compareFrom (p i) id inOrder previous args := by
  induction args generalizing previous with
  | nil => exact C.pure _
  | cons arg args ih =>
    obtain ⟨harg, hargs⟩ := List.forall_mem_cons.1 hargs
    refine C.bind (h.numberOf harg) fun value => ?_
    split
    · exact ih value hargs
    · exact C.pure _

theorem Evaluates.compareAll (h : C.Evaluates p id ok) (whole : Node)
    (inOrder : Double → Double → Bool) {args : List Node} (hargs : ∀ arg ∈ args, ok arg) :
    C.holds fun i => Eval.compareAll (p i) id whole inOrder args := by
  cases args with
  | nil => exact C.throw nofun
  | cons arg args =>
    obtain ⟨harg, hargs⟩ := List.forall_mem_cons.1 hargs
    exact C.bind (h.numberOf harg) fun first => h.compareFrom inOrder first hargs

/-- The builtins that do nothing but evaluate arguments and compute with the values. -/
theorem Evaluates.runBuiltin (h : C.Evaluates p id ok) {builtin : Builtin}
    {head : QName} {args : List Node} (hargs : ∀ arg ∈ args, ok arg)
    (hother : builtin ∈ [.eval, .apply, .gensym, .inNs, .load, .refer] →
      C.holds fun i => Eval.runBuiltin (p i) id builtin head args) :
    C.holds fun i => Eval.runBuiltin (p i) id builtin head args := by
  cases builtin with
  | add => exact h.accumulate Double.add .zero hargs
  | mul => exact h.accumulate Double.mul .one hargs
  | sub => exact h.reduce _ Double.neg Double.sub hargs
  | div => exact h.reduce _ (Double.div .one) Double.div hargs
  | lt => exact h.compareAll _ Double.lt hargs
  | gt => exact h.compareAll _ Double.gt hargs
  | eq => exact h.compareAll _ Double.eqv hargs
  | cond =>
    refine C.expectThree ?_
    rintro test positive negative rfl
    refine C.bind (h.evaluate (hargs test (by simp))) fun value => ?_
    split
    · exact h.evaluate (hargs positive (by simp))
    · exact h.evaluate (hargs negative (by simp))
  | template =>
    refine C.expectOne ?_
    rintro template rfl
    exact h.fill (hargs template List.mem_cons_self)
  | unquote => exact h.unquoted _ hargs
  | unquoteSplicing => exact C.map (h.spliced _ hargs) _
  | _ => exact hother (by simp)

end Compositional

end Lisplet
