import Lisplet.Proofs.Law.Basic

set_option autoImplicit false

/-! # Both passes obey every law

One lemma for each function of expansion and evaluation: if the passes that it calls obey a law, so
does the function. `Law.agree_within` closes the circle by induction on the budget. -/

namespace Lisplet

/-- What holds of all items holds of both parts of each pair. -/
theorem Node.forall_mem_pairs {good : Node → Prop} {items : List Node}
    (h : ∀ item ∈ items, good item) :
    ∀ binding ∈ Node.pairs items, good binding.1 ∧ good binding.2 := by
  fun_induction Node.pairs items with
  | case1 a b rest ih =>
    simp only [List.forall_mem_cons] at h ⊢
    exact ⟨⟨h.1, h.2.1⟩, ih h.2.2⟩
  | case2 => simp

namespace SpecialForm

theorem eq_unquote {name : String} (h : ofName? name = some .unquote) : name = "unquote" := by
  unfold ofName? at h
  split at h <;> simp_all

theorem eq_unquoteSplicing {name : String} (h : ofName? name = some .unquoteSplicing) :
    name = "unquote-splicing" := by
  unfold ofName? at h
  split at h <;> simp_all

end SpecialForm

theorem Builtin.eq_load {name : String} (h : ofName? name = some .load) : name = "load" := by
  unfold ofName? at h
  split at h <;> simp_all

namespace Law

variable {L : Law} {p q : Passes} {id id' : ScopeId}

/-- Two pairs of passes that obey the law against each other on good nodes. -/
structure Agree (L : Law) (p q : Passes) : Prop where
  expand : ∀ {id id' : ScopeId} {node : Node}, L.node node →
    L.Obeys id id' L.node (p.expand id node) (q.expand id' node)
  evaluate : ∀ {id id' : ScopeId} {node : Node}, L.node node →
    L.Obeys id id' L.node (p.evaluate id node) (q.evaluate id' node)

theorem good_nil : L.node .nil := (L.hereditary.list []).2 (by simp)

/-! ## Running forms -/

theorem Agree.run (h : L.Agree p q) {form : Node} (hform : L.node form) :
    L.Obeys id id' L.node (p.run id form) (q.run id' form) :=
  (h.expand hform).bind fun _ hcode => h.evaluate hcode

theorem Agree.runAll (h : L.Agree p q) {result : Node} (hresult : L.node result)
    {body : List Node} (hbody : ∀ form ∈ body, L.node form) :
    L.Obeys id id' L.node (p.runAll id result body) (q.runAll id' result body) := by
  induction body generalizing result with
  | nil => exact obeys_pure hresult
  | cons form body ih =>
    refine (h.run (hbody form List.mem_cons_self)).bind ?_
    intro value hvalue
    exact ih hvalue fun other hother => hbody other (List.mem_cons_of_mem form hother)

theorem Agree.runReadings (h : L.Agree p q) {fault : ReadError → Fault}
    (hfault : ∀ e target, fault e ≠ .nameless target) {result : Node} (hresult : L.node result)
    {readings : List Reading} (hreadings : ∀ form, .ok form ∈ readings → L.node form) :
    L.Obeys id id' L.node (p.runReadings id fault result readings)
      (q.runReadings id' fault result readings) := by
  induction readings generalizing result with
  | nil => exact obeys_pure hresult
  | cons reading readings ih =>
    cases reading with
    | error e => exact obeys_fault (hfault e)
    | ok form =>
      refine (h.run (hreadings form List.mem_cons_self)).bind ?_
      intro value hvalue
      exact ih hvalue fun other hother => hreadings other (List.mem_cons_of_mem _ hother)

theorem Agree.mapM_expand (h : L.Agree p q) {forms : List Node}
    (hforms : ∀ form ∈ forms, L.node form) :
    L.Obeys id id' (fun nodes => nodes.length = forms.length ∧ ∀ node ∈ nodes, L.node node)
      (forms.mapM (p.expand id)) (forms.mapM (q.expand id')) :=
  obeys_mapM fun form hform => h.expand (hforms form hform)

/-! ## Expansion -/

theorem Agree.expandUnquote (h : L.Agree p q) {name : String}
    (hname : L.node (.symbol (QName.plain name))) (whole : Node) {args : List Node}
    (hargs : ∀ arg ∈ args, L.node arg) :
    L.Obeys id id' L.node (Eval.expandUnquote p id name whole args)
      (Eval.expandUnquote q id' name whole args) := by
  unfold Eval.expandUnquote
  refine (obeys_expectOne whole hargs).bind ?_
  intro arg harg
  refine (h.expand harg).bind fun expanded hexpanded => obeys_pure ?_
  refine (L.hereditary.call _ _).2 ⟨hname, ?_⟩
  intro other hother
  exact List.mem_singleton.1 hother ▸ hexpanded

/-- Both names of unquote forms are names that quoting knows. -/
theorem good_unquoteHead {name : String}
    (h : SpecialForm.ofName? name = some .unquote ∨
      SpecialForm.ofName? name = some .unquoteSplicing) :
    L.node (.symbol (QName.plain name)) := by
  rcases h with h | h
  · rw [SpecialForm.eq_unquote h]
    exact L.hereditary.quoting .unquote
  · rw [SpecialForm.eq_unquoteSplicing h]
    exact L.hereditary.quoting .unquoteSplicing

theorem good_unquoteName {name : String} {items : List Node}
    (h : Eval.unquoteName? items = some name) : L.node (.symbol (QName.plain name)) := by
  unfold Eval.unquoteName? at h
  split at h
  · split at h
    · next hform => exact Option.some.inj h ▸ good_unquoteHead (.inl hform)
    · next hform => exact Option.some.inj h ▸ good_unquoteHead (.inr hform)
    · simp at h
  · simp at h

mutual

/-- Quoted data is rebuilt from its parts; only unquote forms go back to the passes. -/
theorem Agree.expandQuoted (h : L.Agree p q) {rename : QName → QName}
    (hrename : ∀ q, L.node (.symbol q) → L.node (.symbol (rename q))) :
    ∀ {template : Node}, L.node template →
      L.Obeys id id' L.node (Eval.expandQuoted p id rename template)
        (Eval.expandQuoted q id' rename template)
  | .symbol q, hq => by
    rw [Eval.expandQuoted, Eval.expandQuoted]
    exact obeys_pure (hrename q hq)
  | .vec items, hitems => by
    rw [Eval.expandQuoted, Eval.expandQuoted]
    refine (h.expandQuotedAll hrename ((L.hereditary.vec items).1 hitems)).bind ?_
    intro values hvalues
    exact obeys_pure ((L.hereditary.vec values).2 hvalues)
  | .list items, hitems => by
    have hall := (L.hereditary.list items).1 hitems
    rw [Eval.expandQuoted, Eval.expandQuoted]
    cases hname : Eval.unquoteName? items with
    | some name =>
      exact h.expandUnquote (good_unquoteName hname) _ fun arg harg =>
        hall arg (List.mem_of_mem_tail harg)
    | none =>
      refine (h.expandQuotedAll hrename hall).bind ?_
      intro values hvalues
      exact obeys_pure ((L.hereditary.list values).2 hvalues)
  | .number _, hnode | .bool _, hnode | .string _, hnode | .keyword _, hnode
  | .letIn _ _, hnode | .fn _ _, hnode | .macroFn _ _, hnode | .define _ _, hnode
  | .call _ _, hnode | .aliasTo _ _, hnode => by
    simp only [Eval.expandQuoted]
    exact obeys_pure hnode

theorem Agree.expandQuotedAll (h : L.Agree p q) {rename : QName → QName}
    (hrename : ∀ q, L.node (.symbol q) → L.node (.symbol (rename q))) :
    ∀ {items : List Node}, (∀ item ∈ items, L.node item) →
      L.Obeys id id' (fun values => ∀ value ∈ values, L.node value)
        (Eval.expandQuotedAll p id rename items) (Eval.expandQuotedAll q id' rename items)
  | [], _ => by
    rw [Eval.expandQuotedAll, Eval.expandQuotedAll]
    exact obeys_pure (by simp)
  | item :: items, hitems => by
    rw [Eval.expandQuotedAll, Eval.expandQuotedAll]
    refine (h.expandQuoted hrename (hitems item List.mem_cons_self)).bind ?_
    intro value hvalue
    refine (h.expandQuotedAll hrename fun other hother =>
      hitems other (List.mem_cons_of_mem item hother)).bind ?_
    intro values hvalues
    exact obeys_pure (List.forall_mem_cons.2 ⟨hvalue, hvalues⟩)

end

theorem Agree.expandAbstraction (h : L.Agree p q) (whole : Node) {args : List Node}
    (hargs : ∀ arg ∈ args, L.node arg) :
    L.Obeys id id' (fun made => L.node (.fn made.1 made.2)) (Eval.expandAbstraction p id whole args)
      (Eval.expandAbstraction q id' whole args) := by
  unfold Eval.expandAbstraction
  split
  · next params form rest =>
    obtain ⟨hparams, hbody⟩ := List.forall_mem_cons.1 hargs
    refine (obeys_expectVec hparams).bind ?_
    intro items hitems
    refine (obeys_mapM fun item hitem => obeys_expectSymbol (hitems item hitem)).bind ?_
    intro names hnames
    refine (h.mapM_expand hbody).bind fun body hbody => obeys_pure ?_
    exact L.hereditary.fn_of names body hnames.2 hbody.2
  · exact obeys_fault nofun

theorem Agree.expandBinding (h : L.Agree p q) {binding : Node × Node}
    (hbinding : L.node binding.1 ∧ L.node binding.2) :
    L.Obeys id id'
      (fun made => ∃ q expr, made = [.symbol q, expr] ∧ L.node (.symbol q) ∧ L.node expr)
      (Eval.expandBinding p id binding) (Eval.expandBinding q id' binding) := by
  unfold Eval.expandBinding
  refine (obeys_expectSymbol hbinding.1).bind ?_
  intro name hname
  refine (h.expand hbinding.2).bind ?_
  intro expr hexpr
  exact obeys_pure ⟨name, expr, rfl, hname, hexpr⟩

theorem Agree.expandLet (h : L.Agree p q) (whole : Node) {args : List Node}
    (hargs : ∀ arg ∈ args, L.node arg) :
    L.Obeys id id' L.node (Eval.expandLet p id whole args) (Eval.expandLet q id' whole args) := by
  cases args with
  | nil => exact obeys_fault nofun
  | cons bindings forms =>
    obtain ⟨hbindings, hforms⟩ := List.forall_mem_cons.1 hargs
    unfold Eval.expandLet
    refine (obeys_expectVec hbindings).bind ?_
    intro items hitems
    split
    · refine (obeys_mapM fun binding hbinding =>
        h.expandBinding (Node.forall_mem_pairs hitems binding hbinding)).bind ?_
      intro made hmade
      refine (h.mapM_expand hforms).bind fun body hbody => obeys_pure ?_
      exact L.hereditary.letIn_of made body hmade.2 hbody.2
    · exact obeys_fault nofun

theorem Agree.expandSpecial (h : L.Agree p q) (form : SpecialForm) {head : QName}
    (hform : SpecialForm.ofName? head.name = some form) {args : List Node}
    (hargs : ∀ arg ∈ args, L.node arg) :
    L.Obeys id id' L.node (Eval.expandSpecial p id form head args)
      (Eval.expandSpecial q id' form head args) := by
  cases form with
  | define =>
    refine (obeys_expectTwo _ hargs).bind ?_
    intro pair hpair
    refine (obeys_expectSymbol hpair.1).bind ?_
    intro target _
    refine (h.expand hpair.2).bind ?_
    intro expr hexpr
    exact obeys_pure ((L.hereditary.define _ _).2 hexpr)
  | fn => exact (h.expandAbstraction _ hargs).bind fun made hmade => obeys_pure hmade
  | macroFn =>
    refine (h.expandAbstraction _ hargs).bind ?_
    intro made hmade
    exact obeys_pure ((L.hereditary.macroFn _ _).2 hmade)
  | letIn => exact h.expandLet _ hargs
  | quote =>
    refine (obeys_expectOne _ hargs).bind ?_
    intro template htemplate
    refine (h.expandQuoted (fun _ hq => hq) htemplate).bind fun data hdata => obeys_pure ?_
    exact (L.hereditary.call _ _).2 ⟨L.hereditary.quoting .quote, by simpa using hdata⟩
  | syntaxQuote =>
    refine obeys_current.bind ?_
    intro ns _
    refine (obeys_expectOne _ hargs).bind ?_
    intro template htemplate
    refine (obeys_record (.qualified ns) nofun).bind ?_
    intro _ _
    refine (h.expandQuoted (L.hereditary.qualify ns) htemplate).bind fun data hdata =>
      obeys_pure ?_
    exact (L.hereditary.call _ _).2 ⟨L.hereditary.quoting .syntaxQuote, by simpa using hdata⟩
  | unquote => exact h.expandUnquote (good_unquoteHead (.inl hform)) _ hargs
  | unquoteSplicing => exact h.expandUnquote (good_unquoteHead (.inr hform)) _ hargs

theorem Agree.expandCall (h : L.Agree p q) {head : QName} (hhead : L.node (.symbol head))
    {args : List Node} (hargs : ∀ arg ∈ args, L.node arg) :
    L.Obeys id id' L.node (Eval.expandCall p id head args) (Eval.expandCall q id' head args) := by
  unfold Eval.expandCall
  refine (h.mapM_expand hargs).bind ?_
  intro args hargs
  have hcall : L.node (.call head args) := (L.hereditary.call head args).2 ⟨hhead, hargs.2⟩
  refine (obeys_find? head).bind ?_
  intro found _
  split
  -- A macro runs at once; anything else, or nothing, leaves the call as it is.
  · refine (obeys_record (.expanding (.call head args)) nofun).bind ?_
    intro _ _
    exact h.run hcall
  · exact obeys_pure hcall

theorem Agree.expandNode (h : L.Agree p q) {node : Node} (hnode : L.node node) :
    L.Obeys id id' L.node (Eval.expandNode p id node) (Eval.expandNode q id' node) := by
  unfold Eval.expandNode
  split
  · next head args =>
    obtain ⟨hhead, hargs⟩ := List.forall_mem_cons.1 ((L.hereditary.list _).1 hnode)
    cases hform : SpecialForm.ofName? head.name with
    | some form => exact h.expandSpecial form hform hargs
    | none => exact h.expandCall hhead hargs
  · exact obeys_fault nofun
  · exact obeys_pure hnode

/-! ## Templates -/

theorem Agree.unquoted (h : L.Agree p q) (whole : Node) {args : List Node}
    (hargs : ∀ arg ∈ args, L.node arg) :
    L.Obeys id id' L.node (Eval.unquoted p id whole args) (Eval.unquoted q id' whole args) :=
  (obeys_expectOne whole hargs).bind fun _ harg => h.evaluate harg

theorem Agree.spliced (h : L.Agree p q) (whole : Node) {args : List Node}
    (hargs : ∀ arg ∈ args, L.node arg) :
    L.Obeys id id' (fun values => ∀ value ∈ values, L.node value) (Eval.spliced p id whole args)
      (Eval.spliced q id' whole args) :=
  (h.unquoted whole hargs).bind fun _ hvalue => obeys_expectList hvalue

theorem good_spliceArgs {item : Node} {args : List Node} (hitem : L.node item)
    (h : Eval.spliceArgs? item = some args) : ∀ arg ∈ args, L.node arg := by
  unfold Eval.spliceArgs? at h
  split at h
  · next head args' =>
    split at h
    · exact Option.some.inj h ▸ ((L.hereditary.call head args').1 hitem).2
    · simp at h
  · simp at h

mutual

theorem Agree.fill (h : L.Agree p q) :
    ∀ {template : Node}, L.node template →
      L.Obeys id id' L.node (Eval.fill p id template) (Eval.fill q id' template)
  | .call head args, hcall => by
    have hargs := ((L.hereditary.call head args).1 hcall).2
    rw [Eval.fill, Eval.fill]
    split
    · exact h.unquoted _ hargs
    · split
      · exact (h.spliced _ hargs).map fun values hvalues => (L.hereditary.list values).2 hvalues
      · exact obeys_pure hcall
  | .list items, hitems => by
    rw [Eval.fill, Eval.fill]
    exact (h.fillAll ((L.hereditary.list items).1 hitems)).map fun values hvalues =>
      (L.hereditary.list values).2 hvalues
  | .vec items, hitems => by
    rw [Eval.fill, Eval.fill]
    exact (h.fillAll ((L.hereditary.vec items).1 hitems)).map fun values hvalues =>
      (L.hereditary.vec values).2 hvalues
  | .number _, hnode | .bool _, hnode | .string _, hnode | .symbol _, hnode | .keyword _, hnode
  | .letIn _ _, hnode | .fn _ _, hnode | .macroFn _ _, hnode | .define _ _, hnode
  | .aliasTo _ _, hnode => by
    simp only [Eval.fill]
    exact obeys_pure hnode

theorem Agree.fillAll (h : L.Agree p q) :
    ∀ {items : List Node}, (∀ item ∈ items, L.node item) →
      L.Obeys id id' (fun values => ∀ value ∈ values, L.node value) (Eval.fillAll p id items)
        (Eval.fillAll q id' items)
  | [], _ => by
    rw [Eval.fillAll, Eval.fillAll]
    exact obeys_pure (by simp)
  | item :: items, hitems => by
    obtain ⟨hitem, hitems⟩ := List.forall_mem_cons.1 hitems
    -- The same for a splice, which puts in many values, and for an item, which puts in one.
    have hrest {values : List Node} (hvalues : ∀ value ∈ values, L.node value) :
        L.Obeys id id' (fun values => ∀ value ∈ values, L.node value)
          (do return values ++ (← Eval.fillAll p id items))
          (do return values ++ (← Eval.fillAll q id' items)) := by
      refine (h.fillAll hitems).bind fun others hothers => obeys_pure ?_
      exact List.forall_mem_append.2 ⟨hvalues, hothers⟩
    rw [Eval.fillAll, Eval.fillAll]
    cases hargs : Eval.spliceArgs? item with
    | some args => exact (h.spliced item (good_spliceArgs hitem hargs)).bind fun _ => hrest
    | none =>
      have hvalue : L.Obeys id id' (fun values => ∀ value ∈ values, L.node value)
          ((fun value => [value]) <$> Eval.fill p id item)
          ((fun value => [value]) <$> Eval.fill q id' item) :=
        (h.fill hitem).map fun value hvalue => by simpa using hvalue
      exact hvalue.bind fun _ => hrest

end

/-! ## Builtins -/

theorem Agree.numberOf (h : L.Agree p q) {arg : Node} (harg : L.node arg) :
    L.Obeys id id' (fun _ => True) (Eval.numberOf p id arg) (Eval.numberOf q id' arg) :=
  (h.evaluate harg).bind fun value _ => obeys_expectNumber value

theorem Agree.accumulate (h : L.Agree p q) (combine : Double → Double → Double) (result : Double)
    {args : List Node} (hargs : ∀ arg ∈ args, L.node arg) :
    L.Obeys id id' L.node (Eval.accumulate p id combine result args)
      (Eval.accumulate q id' combine result args) := by
  induction args generalizing result with
  | nil => exact obeys_pure (L.hereditary.number result)
  | cons arg args ih =>
    obtain ⟨harg, hargs⟩ := List.forall_mem_cons.1 hargs
    exact (h.numberOf harg).bind fun value _ => ih (combine result value) hargs

theorem Agree.reduce (h : L.Agree p q) (whole : Node) (alone : Double → Double)
    (combine : Double → Double → Double) {args : List Node} (hargs : ∀ arg ∈ args, L.node arg) :
    L.Obeys id id' L.node (Eval.reduce p id whole alone combine args)
      (Eval.reduce q id' whole alone combine args) := by
  unfold Eval.reduce
  split
  · exact obeys_fault nofun
  · refine (h.numberOf (hargs _ List.mem_cons_self)).bind ?_
    intro value _
    exact obeys_pure (L.hereditary.number _)
  · obtain ⟨harg, hargs⟩ := List.forall_mem_cons.1 hargs
    exact (h.numberOf harg).bind fun first _ => h.accumulate combine first hargs

theorem Agree.compareFrom (h : L.Agree p q) (inOrder : Double → Double → Bool) (previous : Double)
    {args : List Node} (hargs : ∀ arg ∈ args, L.node arg) :
    L.Obeys id id' L.node (Eval.compareFrom p id inOrder previous args)
      (Eval.compareFrom q id' inOrder previous args) := by
  induction args generalizing previous with
  | nil => exact obeys_pure (L.hereditary.bool true)
  | cons arg args ih =>
    obtain ⟨harg, hargs⟩ := List.forall_mem_cons.1 hargs
    refine (h.numberOf harg).bind ?_
    intro value _
    split
    · exact ih value hargs
    · exact obeys_pure (L.hereditary.bool false)

theorem Agree.compareAll (h : L.Agree p q) (whole : Node) (inOrder : Double → Double → Bool)
    {args : List Node} (hargs : ∀ arg ∈ args, L.node arg) :
    L.Obeys id id' L.node (Eval.compareAll p id whole inOrder args)
      (Eval.compareAll q id' whole inOrder args) := by
  cases args with
  | nil => exact obeys_fault nofun
  | cons arg args =>
    obtain ⟨harg, hargs⟩ := List.forall_mem_cons.1 hargs
    exact (h.numberOf harg).bind fun first _ => h.compareFrom inOrder first hargs

theorem obeys_readFile (path : String) :
    L.Obeys id id' (fun _ => True) (Eval.readFile id path) (Eval.readFile id' path) := by
  unfold Eval.readFile
  refine (obeys_record (.asked path) nofun).bind ?_
  intro _ _
  refine (obeys_reply path).bind ?_
  intro reply _
  split
  · exact obeys_fault nofun
  · exact obeys_fault nofun
  · exact obeys_pure trivial

theorem Agree.loadFile (h : L.Agree p q) (path : String)
    (hreading : ∀ text form, .ok form ∈ Form.readAll text → L.node form) :
    L.Obeys id id' L.node (Eval.loadFile p id path) (Eval.loadFile q id' path) := by
  unfold Eval.loadFile
  refine (obeys_readFile path).bind ?_
  intro text _
  refine obeys_current.bind ?_
  intro ns _
  refine (obeys_record (.loading path ns) nofun).bind ?_
  intro _ _
  exact h.runReadings (by simp) good_nil (hreading text)

theorem Agree.runBuiltin (h : L.Agree p q) {builtin : Builtin} {head : QName}
    (hbuiltin : Builtin.ofName? head.name = some builtin) (hhead : L.node (.symbol head))
    {args : List Node} (hargs : ∀ arg ∈ args, L.node arg) :
    L.Obeys id id' L.node (Eval.runBuiltin p id builtin head args)
      (Eval.runBuiltin q id' builtin head args) := by
  cases builtin with
  | add => exact h.accumulate Double.add .zero hargs
  | mul => exact h.accumulate Double.mul .one hargs
  | sub => exact h.reduce _ Double.neg Double.sub hargs
  | div => exact h.reduce _ (Double.div .one) Double.div hargs
  | lt => exact h.compareAll _ Double.lt hargs
  | gt => exact h.compareAll _ Double.gt hargs
  | eq => exact h.compareAll _ Double.eqv hargs
  | cond =>
    refine (obeys_expectThree _ hargs).bind ?_
    rintro ⟨test, positive, negative⟩ hparts
    obtain ⟨htest, hpositive, hnegative⟩ := hparts
    refine (h.evaluate htest).bind ?_
    intro value _
    split
    · exact h.evaluate hpositive
    · exact h.evaluate hnegative
  | template => exact (obeys_expectOne _ hargs).bind fun template htemplate => h.fill htemplate
  | unquote => exact h.unquoted _ hargs
  | unquoteSplicing =>
    exact (h.spliced _ hargs).map fun values hvalues => (L.hereditary.list values).2 hvalues
  | eval =>
    refine (obeys_expectOne _ hargs).bind ?_
    intro arg harg
    exact (h.evaluate harg).bind fun form hform => h.run hform
  | apply =>
    refine (obeys_expectTwo _ hargs).bind ?_
    rintro ⟨target, vector⟩ hparts
    refine (obeys_expectSymbol hparts.1).bind ?_
    intro name hname
    refine (h.evaluate hparts.2).bind ?_
    intro value hvalue
    refine (obeys_expectVec hvalue).bind ?_
    intro items hitems
    exact h.evaluate ((L.hereditary.call name items).2 ⟨hname, hitems⟩)
  | gensym =>
    refine (obeys_expectOne _ hargs).bind ?_
    intro arg harg
    refine (h.evaluate harg).bind ?_
    intro value _
    exact (obeys_expectString value).bind fun stem _ => obeys_issue stem
  | inNs =>
    refine (obeys_expectOne _ hargs).bind ?_
    intro arg harg
    refine (h.evaluate harg).bind ?_
    intro value hvalue
    refine (obeys_expectSymbol hvalue).bind ?_
    intro target htarget
    exact (obeys_switchTo htarget).bind fun previous hprevious => obeys_pure hprevious
  | load =>
    refine (obeys_expectOne _ hargs).bind ?_
    intro arg harg
    refine (h.evaluate harg).bind ?_
    intro value _
    refine (obeys_expectString value).bind ?_
    intro path _
    exact h.loadFile path fun text form => L.reading hhead (Builtin.eq_load hbuiltin)
  | refer =>
    refine (obeys_expectTwo _ hargs).bind ?_
    rintro ⟨source, target⟩ hparts
    refine (obeys_expectSymbol hparts.1).bind ?_
    intro name _
    refine (obeys_expectSymbol hparts.2).bind ?_
    intro target htarget
    refine obeys_current.bind ?_
    intro ns _
    have hqualified := L.hereditary.qualify ns target htarget
    refine (obeys_bindName name.name (L.hereditary.aliasTo _ _ hqualified)).bind ?_
    intro _ _
    refine (obeys_record (.referred ns name.name (QName.qualify ns target)) nofun).bind ?_
    intro _ _
    exact obeys_pure hqualified

/-! ## Evaluation -/

/-- Parameters are bound to good values; one without a name is a fault that the law has to allow. -/
theorem obeys_bindAll {params values : List Node}
    (hparams : ∀ param ∈ params, param.bindingName? = none → L.fault (.nameless param))
    (hvalues : ∀ value ∈ values, L.node value) :
    L.Obeys id id' (fun _ => True) (Eval.bindAll id params values)
      (Eval.bindAll id' params values) := by
  induction params generalizing values with
  | nil => exact obeys_pure trivial
  | cons param params ih =>
    cases values with
    | nil => exact obeys_pure trivial
    | cons value values =>
      obtain ⟨hparam, hparams⟩ := List.forall_mem_cons.1 hparams
      obtain ⟨hvalue, hvalues⟩ := List.forall_mem_cons.1 hvalues
      exact (obeys_bindNode hvalue hparam).bind fun _ _ => ih hparams hvalues

theorem Agree.bindLet (h : L.Agree p q) {bindings : List (Node × Node)}
    (htargets : ∀ binding ∈ bindings, binding.1.bindingName? = none →
      L.fault (.nameless binding.1))
    (hexprs : ∀ binding ∈ bindings, L.node binding.2) :
    L.Obeys id id' (fun _ => True) (Eval.bindLet p id bindings) (Eval.bindLet q id' bindings) := by
  induction bindings with
  | nil => exact obeys_pure trivial
  | cons binding bindings ih =>
    obtain ⟨target, expr⟩ := binding
    obtain ⟨htarget, htargets⟩ := List.forall_mem_cons.1 htargets
    obtain ⟨hexpr, hexprs⟩ := List.forall_mem_cons.1 hexprs
    unfold Eval.bindLet
    cases hname : target.bindingName? with
    | none => exact obeys_throw (htarget hname)
    | some name =>
      refine (h.run hexpr).bind ?_
      intro value hvalue
      exact (obeys_bindName name hvalue).bind fun _ _ => ih htargets hexprs

/-- What a `let` does in its own scope. -/
theorem Agree.letInside (h : L.Agree p q) {bindings body : List Node}
    (hlet : L.node (.letIn bindings body)) :
    L.Obeys id id' L.node (do Eval.bindLet p id (Node.pairs bindings); p.runAll id .nil body)
      (do Eval.bindLet q id' (Node.pairs bindings); q.runAll id' .nil body) := by
  refine (h.bindLet (L.fault_binding bindings body hlet)
    (L.hereditary.letIn_bindings bindings body hlet)).bind ?_
  intro _ _
  exact h.runAll good_nil (L.hereditary.letIn_body bindings body hlet)

/-- What a function does in its own scope. -/
theorem Agree.fnInside (h : L.Agree p q) {params body values : List Node}
    (hfn : L.node (.fn params body)) (hvalues : ∀ value ∈ values, L.node value) :
    L.Obeys id id' L.node (do Eval.bindAll id params values; p.runAll id .nil body)
      (do Eval.bindAll id' params values; q.runAll id' .nil body) := by
  refine (obeys_bindAll (L.fault_param params body hfn) hvalues).bind ?_
  intro _ _
  exact h.runAll good_nil (L.hereditary.fn_body params body hfn)

theorem Agree.callFn (h : L.Agree p q) {params body : List Node} (hfn : L.node (.fn params body))
    (head : QName) {args : List Node} (hargs : ∀ arg ∈ args, L.node arg) :
    L.Obeys id id' L.node (Eval.callFn p id params body head args)
      (Eval.callFn q id' params body head args) := by
  unfold Eval.callFn
  refine (obeys_mapM fun arg harg => h.evaluate (hargs arg harg)).bind ?_
  intro values hvalues
  exact obeys_nest (.call head args) fun _ _ => h.fnInside hfn hvalues.2

/-- What a macro does in its own scope: its body gives code, which is expanded there. -/
theorem Agree.macroInside (h : L.Agree p q) {params body args : List Node}
    (hfn : L.node (.fn params body)) (name : String) (hargs : ∀ arg ∈ args, L.node arg) :
    L.Obeys id id' L.node
      (do Eval.bindAll id params args
          let code ← p.runAll id .nil body
          Eval.record (.produced name code)
          p.expand id code)
      (do Eval.bindAll id' params args
          let code ← q.runAll id' .nil body
          Eval.record (.produced name code)
          q.expand id' code) := by
  refine (obeys_bindAll (L.fault_param params body hfn) hargs).bind ?_
  intro _ _
  refine (h.runAll good_nil (L.hereditary.fn_body params body hfn)).bind ?_
  intro code hcode
  refine (obeys_record (.produced name code) nofun).bind ?_
  intro _ _
  exact h.expand hcode

theorem Agree.callMacro (h : L.Agree p q) {params body : List Node}
    (hfn : L.node (.fn params body)) (head : QName) {args : List Node}
    (hargs : ∀ arg ∈ args, L.node arg) :
    L.Obeys id id' L.node (Eval.callMacro p id params body head args)
      (Eval.callMacro q id' params body head args) :=
  obeys_nest (.call head args) fun _ _ => h.macroInside hfn head.name hargs

theorem Agree.callNamed (h : L.Agree p q) (head : QName) {args : List Node}
    (hargs : ∀ arg ∈ args, L.node arg) :
    L.Obeys id id' L.node (Eval.callNamed p id head args)
      (Eval.callNamed q id' head args) := by
  unfold Eval.callNamed
  refine (obeys_resolve head).bind ?_
  intro value hvalue
  split
  · split
    · exact h.callFn hvalue head hargs
    · exact obeys_fault nofun
  · split
    · exact h.callMacro ((L.hereditary.macroFn _ _).1 hvalue) head hargs
    · exact obeys_fault nofun
  · exact obeys_fault nofun

theorem Agree.evaluateNode (h : L.Agree p q) {node : Node} (hnode : L.node node) :
    L.Obeys id id' L.node (Eval.evaluateNode p id node)
      (Eval.evaluateNode q id' node) := by
  unfold Eval.evaluateNode
  split
  · next name => exact obeys_resolve name
  · next head args =>
    obtain ⟨hhead, hargs⟩ := (L.hereditary.call head args).1 hnode
    cases hbuiltin : Builtin.ofName? head.name with
    | some builtin => exact h.runBuiltin hbuiltin hhead hargs
    | none => exact h.callNamed head hargs
  · next name expr =>
    refine (h.evaluate ((L.hereditary.define name expr).1 hnode)).bind ?_
    intro value hvalue
    refine (obeys_bindName name hvalue).bind ?_
    intro _ _
    refine obeys_current.bind ?_
    intro ns _
    exact (obeys_record (.defined ns name) nofun).bind fun _ _ => obeys_pure hvalue
  · next bindings body =>
    exact obeys_nest (.letIn bindings body) fun _ _ => h.letInside hnode
  · exact obeys_pure hnode

/-! ## Both passes -/

/-- The passes obey every law, within any budget. If the run on the left has less of it than the run
    on the right, it may end earlier for want of budget. -/
theorem agree_within (L : Law) {budget budget' : Nat} (hle : budget ≤ budget')
    (hge : budget' ≤ budget ∨ L.escape .stackExhausted) :
    L.Agree (Passes.within budget) (Passes.within budget') := by
  induction budget generalizing budget' with
  | zero =>
    -- Without budget the run on the left ends at once; the one on the right does so, too, or is
    -- given up.
    have hend {id id' : ScopeId} {f : Eval Node} (hf : budget' = 0 → f = throw .stackExhausted) :
        L.Obeys id id' L.node (throw .stackExhausted) f := by
      intro t t' ht
      refine ⟨.refl id t, L.fault_of_ne _ nofun, ?_⟩
      rcases hge with hge | hescape
      · right
        rw [hf (by omega)]
        exact ⟨t', rfl, .refl id' t', ht⟩
      · exact .inl hescape
    constructor
    · intro id id' node _
      refine hend ?_
      rintro rfl
      rfl
    · intro id id' node _
      refine hend ?_
      rintro rfl
      rfl
  | succ budget ih =>
    obtain ⟨rest, rfl⟩ : ∃ rest, budget' = rest + 1 := ⟨budget' - 1, by omega⟩
    have h := ih (Nat.le_of_succ_le_succ hle) (hge.imp_left Nat.le_of_succ_le_succ)
    exact ⟨h.expandNode, h.evaluateNode⟩

end Law

end Lisplet
