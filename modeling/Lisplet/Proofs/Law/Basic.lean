import Lisplet.Proofs.Law.Frame

set_option autoImplicit false

/-! # Laws of computations

Expansion and evaluation call each other at every depth, but they touch the tree of scopes through a
handful of operations only. A `Law` says what these operations keep, and `Law.Obeys` is what then
holds of a computation; `Law.agree_within` (in `Law.Passes`) shows it once for both passes. A
statement about all runs is proved by writing down the law for it.

A law is about two runs at once, in two scopes of two trees, and its invariant relates the trees.
The run on the left decides: unless it ends in a fault from which the law lets it `escape`, the run
on the right gives the same value or ends in the same fault. An `Invariant` is the special case of a
single run, and what both runs do beyond that is known in advance: each keeps to the frame of its
scope. -/

namespace Lisplet

/-! ## What holds of nodes and faults -/

/-- A property of nodes that expansion and evaluation cannot lose: it passes from a node to its
    parts and back. -/
structure Hereditary (good : Node → Prop) : Prop where
  number : ∀ d, good (.number d)
  bool : ∀ b, good (.bool b)
  list : ∀ items, good (.list items) ↔ ∀ item ∈ items, good item
  vec : ∀ items, good (.vec items) ↔ ∀ item ∈ items, good item
  call : ∀ head args, good (.call head args) ↔ good (.symbol head) ∧ ∀ arg ∈ args, good arg
  define : ∀ name expr, good (.define name expr) ↔ good expr
  /-- Functions are made with symbols as parameters, and only their bodies are run. -/
  fn_of : ∀ (params : List QName) (body : List Node), (∀ q ∈ params, good (.symbol q)) →
    (∀ form ∈ body, good form) → good (.fn (params.map .symbol) body)
  fn_body : ∀ params body, good (.fn params body) → ∀ form ∈ body, good form
  macroFn : ∀ params body, good (.macroFn params body) ↔ good (.fn params body)
  /-- Bindings are made as pairs of a symbol and an expression. -/
  letIn_of : ∀ (bindings : List (List Node)) (body : List Node),
    (∀ binding ∈ bindings, ∃ q expr, binding = [.symbol q, expr] ∧ good (.symbol q) ∧ good expr) →
    (∀ form ∈ body, good form) → good (.letIn bindings.flatten body)
  letIn_bindings : ∀ bindings body, good (.letIn bindings body) →
    ∀ binding ∈ Node.pairs bindings, good binding.2
  letIn_body : ∀ bindings body, good (.letIn bindings body) → ∀ form ∈ body, good form
  /-- Quoting makes symbols of its own. -/
  quoting : ∀ mark : Mark, good (.symbol (QName.plain mark.name))
  qualify : ∀ ns q, good (.symbol q) → good (.symbol (q.qualify ns))
  aliasTo : ∀ ns q, good (.symbol q) → good (.aliasTo ns q.name)

/-- Every node has the property that is true of all. -/
theorem Hereditary.trivial : Hereditary fun _ => True := by
  constructor <;> simp

/-- Two such properties together. -/
theorem Hereditary.and {good good' : Node → Prop} (h : Hereditary good) (h' : Hereditary good') :
    Hereditary fun node => good node ∧ good' node where
  number d := ⟨h.number d, h'.number d⟩
  bool b := ⟨h.bool b, h'.bool b⟩
  list items := by simp only [h.list, h'.list, forall_and]
  vec items := by simp only [h.vec, h'.vec, forall_and]
  call head args := by
    simp only [h.call, h'.call, forall_and]
    exact and_and_and_comm
  define name expr := by rw [h.define, h'.define]
  fn_of params body hparams hbody :=
    ⟨h.fn_of params body (fun q hq => (hparams q hq).1) fun form hform => (hbody form hform).1,
      h'.fn_of params body (fun q hq => (hparams q hq).2) fun form hform => (hbody form hform).2⟩
  fn_body params body hfn form hform :=
    ⟨h.fn_body params body hfn.1 form hform, h'.fn_body params body hfn.2 form hform⟩
  macroFn params body := by rw [h.macroFn, h'.macroFn]
  letIn_of bindings body hbindings hbody := by
    constructor
    · refine h.letIn_of bindings body ?_ fun form hform => (hbody form hform).1
      intro binding hbinding
      obtain ⟨q, expr, heq, hq, hexpr⟩ := hbindings binding hbinding
      exact ⟨q, expr, heq, hq.1, hexpr.1⟩
    · refine h'.letIn_of bindings body ?_ fun form hform => (hbody form hform).2
      intro binding hbinding
      obtain ⟨q, expr, heq, hq, hexpr⟩ := hbindings binding hbinding
      exact ⟨q, expr, heq, hq.2, hexpr.2⟩
  letIn_bindings bindings body hlet binding hbinding :=
    ⟨h.letIn_bindings bindings body hlet.1 binding hbinding,
      h'.letIn_bindings bindings body hlet.2 binding hbinding⟩
  letIn_body bindings body hlet form hform :=
    ⟨h.letIn_body bindings body hlet.1 form hform, h'.letIn_body bindings body hlet.2 form hform⟩
  quoting mark := ⟨h.quoting mark, h'.quoting mark⟩
  qualify ns q hq := ⟨h.qualify ns q hq.1, h'.qualify ns q hq.2⟩
  aliasTo ns q hq := ⟨h.aliasTo ns q hq.1, h'.aliasTo ns q hq.2⟩

/-- What holds of the nodes in a computation, and the faults that it may end in. -/
structure Discipline where
  node : Node → Prop
  fault : Fault → Prop
  hereditary : Hereditary node
  /-- The forms of a file, for disciplines under which files are loaded at all. -/
  reading : ∀ {head : QName} {text form}, node (.symbol head) → head.name = "load" →
    .ok form ∈ Form.readAll text → node form
  -- Every fault may happen, but a nameless target only if the nodes allow for it.
  fault_of_ne : ∀ f, (∀ target, f ≠ .nameless target) → fault f
  fault_param : ∀ params body, node (.fn params body) → ∀ param ∈ params,
    param.bindingName? = none → fault (.nameless param)
  fault_binding : ∀ bindings body, node (.letIn bindings body) → ∀ binding ∈ Node.pairs bindings,
    binding.1.bindingName? = none → fault (.nameless binding.1)

/-- The discipline that allows everything. -/
def Discipline.free : Discipline where
  node _ := True
  fault _ := True
  hereditary := .trivial
  reading _ _ _ := trivial
  fault_of_ne _ _ := trivial
  fault_param _ _ _ _ _ _ := trivial
  fault_binding _ _ _ _ _ _ := trivial

/-! ## Laws -/

/-- What two runs keep to, the one on the left in the scope `id` of the tree `t`, the one on the
    right in `id'` of `t'`. -/
structure Law extends Discipline where
  /-- What holds before and after each computation. -/
  inv : ScopeId → ScopeId → ScopeTree → ScopeTree → Prop
  /-- The faults of the run on the left after which the run on the right may do anything. -/
  escape : Fault → Prop
  -- The setups agree, except that the run on the left may be stopped earlier.
  files_eq : ∀ {id id' t t'}, inv id id' t t' →
    (t'.scope id').setup.files = (t.scope id).setup.files
  limit_le : ∀ {id id' t t'}, inv id id' t t' →
    (t.scope id).setup.depthLimit ≤ (t'.scope id').setup.depthLimit
  limit_ge : ∀ {id id' t t'}, inv id id' t t' →
    (t'.scope id').setup.depthLimit ≤ (t.scope id).setup.depthLimit ∨
      ∀ cause, escape (.tooDeep cause)
  -- The operations that change a tree.
  record : ∀ {id id' t t'} (event : Event), (∀ q, event ≠ .issued q) → inv id id' t t' →
    inv id id' (t.record event) (t'.record event)
  enter : ∀ {id id' t t'} (name : String) {value : Node}, node value → inv id id' t t' →
    inv id id' (t.update id (·.enter (QName.plain name) value))
      (t'.update id' (·.enter (QName.plain name) value))
  switchTo : ∀ {id id' t t'} {q : QName}, node (.symbol q) → inv id id' t t' →
    inv id id' (t.update id (·.switchTo q.name)) (t'.update id' (·.switchTo q.name))
  issue : ∀ {id id' t t'} (stem : String), inv id id' t t' →
    inv id id' (t.issue stem) (t'.issue stem) ∧ node (.symbol (t.freshSymbol stem))
  /-- A scope is nested in one that is not at its limit … -/
  inside : ∀ {id id' t t'}, ¬ (t.scope id).AtLimit → inv id id' t t' →
    inv t.scopes.size t'.scopes.size (t.addInside id) (t'.addInside id')
  /-- … and left again after a computation in it. -/
  outside : ∀ {id id' t t' t₁ t₁'}, inv id id' t t' → inv t.scopes.size t'.scopes.size t₁ t₁' →
    Frame t.scopes.size (t.addInside id) t₁ → Frame t'.scopes.size (t'.addInside id') t₁' →
    inv id id' t₁ t₁'
  -- What computations see of a tree.
  find : ∀ {id id' t t'} (q : QName), inv id id' t t' →
    t'.find? id' q = t.find? id q ∧ ∀ value, t.find? id q = some value → node value
  current : ∀ {id id' t t'}, inv id id' t t' →
    (t'.scope id').current = (t.scope id).current ∧
      node (.symbol (QName.plain (t.scope id).current))
  depth : ∀ {id id' t t'}, inv id id' t t' → (t'.scope id').depth = (t.scope id).depth
  counter : ∀ {id id' t t'}, inv id id' t t' → t'.counter = t.counter

namespace Law

variable {L : Law} {id id' : ScopeId} {α β : Type}

/-- Started where the invariant holds, the run on the left gives a `good` value or an allowed fault,
    the run on the right ends in the same way, unless the law gives it up, and then the invariant
    holds again. -/
def Obeys (L : Law) (id id' : ScopeId) (good : α → Prop) (x y : Eval α) : Prop :=
  ∀ t t', L.inv id id' t t' →
    match x t with
    | .ok value t₁ => Frame id t t₁ ∧ good value ∧
      ∃ t₁', y t' = .ok value t₁' ∧ Frame id' t' t₁' ∧ L.inv id id' t₁ t₁'
    | .error fault t₁ => Frame id t t₁ ∧ L.fault fault ∧
      (L.escape fault ∨ ∃ t₁', y t' = .error fault t₁' ∧ Frame id' t' t₁' ∧ L.inv id id' t₁ t₁')

/-! ## Putting computations together -/

/-- The frame of the run on the left. -/
theorem Obeys.frame_after {good : α → Prop} {x y : Eval α} (h : L.Obeys id id' good x y)
    {t t' : ScopeTree} (ht : L.inv id id' t t') : Frame id t (x.after t) := by
  have hx := h t t' ht
  unfold Eval.after
  cases hr : x t with
  | ok value t₁ =>
    rw [hr] at hx
    exact hx.1
  | error fault t₁ =>
    rw [hr] at hx
    exact hx.1

/-- Computations that only look at the trees, and see the same. -/
theorem obeys_of_eq_ok {good : α → Prop} {x y : Eval α} {value value' : ScopeTree → α}
    (hx : ∀ t, x t = .ok (value t) t) (hy : ∀ t, y t = .ok (value' t) t)
    (h : ∀ t t', L.inv id id' t t' → value' t' = value t ∧ good (value t)) :
    L.Obeys id id' good x y := by
  intro t t' ht
  obtain ⟨heq, hgood⟩ := h t t' ht
  rw [hx t]
  exact ⟨.refl id t, hgood, t', by rw [hy t', heq], .refl id' t', ht⟩

theorem obeys_pure {good : α → Prop} {value : α} (h : good value) :
    L.Obeys id id' good (pure value) (pure value) :=
  obeys_of_eq_ok (fun _ => rfl) (fun _ => rfl) fun _ _ _ => ⟨rfl, h⟩

theorem obeys_throw {good : α → Prop} {fault : Fault} (h : L.fault fault) :
    L.Obeys id id' good (throw fault) (throw fault) := by
  intro t t' ht
  exact ⟨.refl id t, h, .inr ⟨t', rfl, .refl id' t', ht⟩⟩

/-- Changes of the trees that the law allows. -/
theorem obeys_modify {change change' : ScopeTree → ScopeTree}
    (hframe : ∀ t, Frame id t (change t)) (hframe' : ∀ t, Frame id' t (change' t))
    (h : ∀ t t', L.inv id id' t t' → L.inv id id' (change t) (change' t')) :
    L.Obeys id id' (fun _ => True) (modify change : Eval Unit) (modify change') := by
  intro t t' ht
  exact ⟨hframe t, trivial, change' t', rfl, hframe' t', h t t' ht⟩

theorem Obeys.bind {good : α → Prop} {good' : β → Prop} {x y : Eval α} {f g : α → Eval β}
    (hx : L.Obeys id id' good x y)
    (hf : ∀ value, good value → L.Obeys id id' good' (f value) (g value)) :
    L.Obeys id id' good' (x >>= f) (y >>= g) := by
  intro t t' ht
  have h := hx t t' ht
  cases hr : x t with
  | error fault t₁ =>
    rw [hr] at h
    obtain ⟨hframe, hfault, hright⟩ := h
    have hleft : (x >>= f) t = .error fault t₁ := by
      simp only [Bind.bind, EStateM.bind, hr]
    rw [hleft]
    refine ⟨hframe, hfault, hright.imp_right ?_⟩
    rintro ⟨t₁', hy, hrest⟩
    exact ⟨t₁', by simp only [Bind.bind, EStateM.bind, hy], hrest⟩
  | ok value t₁ =>
    rw [hr] at h
    obtain ⟨hframe, hvalue, t₁', hy, hframe', ht₁⟩ := h
    have hleft : (x >>= f) t = f value t₁ := by
      simp only [Bind.bind, EStateM.bind, hr]
    have hright : (y >>= g) t' = g value t₁' := by
      simp only [Bind.bind, EStateM.bind, hy]
    rw [hleft, hright]
    have h' := hf value hvalue t₁ t₁' ht₁
    cases hr' : f value t₁ with
    | ok value' t₂ =>
      rw [hr'] at h'
      obtain ⟨hframe₂, hvalue', t₂', hg, hframe₂', ht₂⟩ := h'
      exact ⟨hframe.trans hframe₂, hvalue', t₂', hg, hframe'.trans hframe₂', ht₂⟩
    | error fault t₂ =>
      rw [hr'] at h'
      obtain ⟨hframe₂, hfault, hright⟩ := h'
      refine ⟨hframe.trans hframe₂, hfault, hright.imp_right ?_⟩
      rintro ⟨t₂', hg, hframe₂', ht₂⟩
      exact ⟨t₂', hg, hframe'.trans hframe₂', ht₂⟩

theorem Obeys.map {good : α → Prop} {good' : β → Prop} {x y : Eval α} {f : α → β}
    (hx : L.Obeys id id' good x y) (hf : ∀ value, good value → good' (f value)) :
    L.Obeys id id' good' (f <$> x) (f <$> y) := by
  rw [map_eq_pure_bind, map_eq_pure_bind]
  exact hx.bind fun value hvalue => obeys_pure (hf value hvalue)

/-- Computations for the items of a list, one after the other. -/
theorem obeys_mapM {good : β → Prop} {f g : α → Eval β} {items : List α}
    (h : ∀ item ∈ items, L.Obeys id id' good (f item) (g item)) :
    L.Obeys id id' (fun values => values.length = items.length ∧ ∀ value ∈ values, good value)
      (items.mapM f) (items.mapM g) := by
  induction items with
  | nil =>
    rw [List.mapM_nil, List.mapM_nil]
    exact obeys_pure ⟨rfl, by simp⟩
  | cons item items ih =>
    rw [List.mapM_cons, List.mapM_cons]
    refine (h item List.mem_cons_self).bind ?_
    intro value hvalue
    refine (ih fun other hother => h other (List.mem_cons_of_mem item hother)).bind
      fun values hvalues => obeys_pure ?_
    refine ⟨congrArg (· + 1) hvalues.1, fun other hother => ?_⟩
    rcases List.mem_cons.1 hother with rfl | hother
    · exact hvalue
    · exact hvalues.2 other hother

/-! ## The operations -/

theorem obeys_fault {good : α → Prop} {fault : Fault} (h : ∀ target, fault ≠ .nameless target) :
    L.Obeys id id' good (throw fault) (throw fault) :=
  obeys_throw (L.fault_of_ne fault h)

theorem obeys_record (event : Event) (h : ∀ q, event ≠ .issued q) :
    L.Obeys id id' (fun _ => True) (Eval.record event) (Eval.record event) :=
  obeys_modify (fun t => (intact_record t event).frame id)
    (fun t => (intact_record t event).frame id') fun _ _ ht => L.record event h ht

theorem obeys_current :
    L.Obeys id id' (fun ns => L.node (.symbol (QName.plain ns))) (Eval.current id)
      (Eval.current id') :=
  obeys_of_eq_ok (fun _ => rfl) (fun _ => rfl) fun _ _ ht => L.current ht

theorem obeys_find? (q : QName) :
    L.Obeys id id' (fun found => ∀ value, found = some value → L.node value) (Eval.find? id q)
      (Eval.find? id' q) :=
  obeys_of_eq_ok (fun _ => rfl) (fun _ => rfl) fun _ _ ht => L.find q ht

/-- Files are the same on both sides. -/
theorem obeys_reply (path : String) :
    L.Obeys id id' (fun _ => True) (Eval.reply id path) (Eval.reply id' path) :=
  obeys_of_eq_ok (fun _ => rfl) (fun _ => rfl) fun _ _ ht =>
    ⟨congrFun (L.files_eq ht) path, trivial⟩

theorem obeys_resolve (q : QName) :
    L.Obeys id id' L.node (Eval.resolve id q) (Eval.resolve id' q) := by
  unfold Eval.resolve
  refine (obeys_find? q).bind ?_
  intro found hfound
  cases found with
  | none => exact obeys_fault nofun
  | some value => exact obeys_pure (hfound value rfl)

theorem obeys_bindName (name : String) {value : Node} (h : L.node value) :
    L.Obeys id id' (fun _ => True) (Eval.bindName id name value)
      (Eval.bindName id' name value) := by
  intro t t' ht
  have hframe (own : ScopeId) (t : ScopeTree) :
      Frame own t (t.update own (·.enter (QName.plain name) value)) :=
    frame_update t own (fun _ => rfl) fun _ => rfl
  exact ⟨hframe id t, trivial, _, rfl, hframe id' t', L.enter name h ht⟩

theorem obeys_bindNode {target value : Node} (hvalue : L.node value)
    (htarget : target.bindingName? = none → L.fault (.nameless target)) :
    L.Obeys id id' (fun _ => True) (Eval.bindNode id target value)
      (Eval.bindNode id' target value) := by
  unfold Eval.bindNode
  cases hname : target.bindingName? with
  | some name => exact obeys_bindName name hvalue
  | none => exact obeys_throw (htarget hname)

theorem obeys_switchTo {q : QName} (h : L.node (.symbol q)) :
    L.Obeys id id' (fun ns => L.node (.symbol (QName.plain ns))) (Eval.switchTo id q.name)
      (Eval.switchTo id' q.name) := by
  have hframe (own : ScopeId) (t : ScopeTree) : Frame own t (t.update own (·.switchTo q.name)) :=
    frame_update t own (fun _ => rfl) fun _ => rfl
  unfold Eval.switchTo
  refine obeys_current.bind ?_
  intro previous hprevious
  refine (obeys_modify (hframe id) (hframe id') fun _ _ ht => L.switchTo h ht).bind ?_
  intro _ _
  refine (obeys_record (.switched previous q.name) nofun).bind ?_
  intro _ _
  exact obeys_pure hprevious

/-- Making a fresh symbol takes a number and notes the symbol in one go. -/
theorem obeys_issue (stem : String) :
    let fresh : Eval Node := do
      let symbol := QName.plain (stem ++ toString (← Eval.nextId))
      Eval.record (.issued symbol)
      return .symbol symbol
    L.Obeys id id' L.node fresh fresh := by
  intro fresh t t' ht
  obtain ⟨hinv, hnode⟩ := L.issue stem ht
  have hfresh : fresh t' = .ok (.symbol (t.freshSymbol stem)) (t'.issue stem) := by
    rw [ScopeTree.freshSymbol, ← L.counter ht]
    rfl
  exact ⟨(intact_issue t stem).frame id, hnode, t'.issue stem, hfresh,
    (intact_issue t' stem).frame id', hinv⟩

/-- Computations in scopes of their own: they obey the law there, and so the whole obeys it here. -/
theorem obeys_nest {good : α → Prop} (cause : Node) {f g : ScopeId → Eval α}
    (h : ∀ inner inner', L.Obeys inner inner' good (f inner) (g inner')) :
    L.Obeys id id' good (Eval.nest id cause >>= f) (Eval.nest id' cause >>= g) := by
  intro t t' ht
  have hdepth := L.depth ht
  have hle := L.limit_le ht
  rw [Eval.nest_bind, Eval.nest_bind]
  by_cases hleft : (t.scope id).AtLimit
  · rw [if_pos hleft]
    refine ⟨.refl id t, L.fault_of_ne _ nofun, ?_⟩
    rcases L.limit_ge ht with hge | hescape
    · right
      have hright : (t'.scope id').AtLimit := by
        unfold Scope.AtLimit at hleft ⊢
        omega
      exact ⟨t', by rw [if_pos hright], .refl id' t', ht⟩
    · exact .inl (hescape cause)
  · have hright : ¬ (t'.scope id').AtLimit := by
      unfold Scope.AtLimit at hleft ⊢
      omega
    rw [if_neg hleft, if_neg hright]
    have hinner := h t.scopes.size t'.scopes.size (t.addInside id) (t'.addInside id')
      (L.inside hleft ht)
    cases hr : f t.scopes.size (t.addInside id) with
    | ok value t₁ =>
      rw [hr] at hinner
      obtain ⟨hframe, hgood, t₁', hright, hframe', hinv⟩ := hinner
      exact ⟨hframe.intact_of_addInside.frame id, hgood, t₁', hright,
        hframe'.intact_of_addInside.frame id', L.outside ht hinv hframe hframe'⟩
    | error fault t₁ =>
      rw [hr] at hinner
      obtain ⟨hframe, hfault, hright⟩ := hinner
      refine ⟨hframe.intact_of_addInside.frame id, hfault, hright.imp_right ?_⟩
      rintro ⟨t₁', hright, hframe', hinv⟩
      exact ⟨t₁', hright, hframe'.intact_of_addInside.frame id', L.outside ht hinv hframe hframe'⟩

/-! ## Demands on arguments -/

theorem obeys_expectOne (whole : Node) {args : List Node} (h : ∀ arg ∈ args, L.node arg) :
    L.Obeys id id' L.node (Eval.expectOne whole args) (Eval.expectOne whole args) := by
  unfold Eval.expectOne
  split
  · exact obeys_pure (h _ List.mem_cons_self)
  · exact obeys_fault nofun

theorem obeys_expectTwo (whole : Node) {args : List Node} (h : ∀ arg ∈ args, L.node arg) :
    L.Obeys id id' (fun pair => L.node pair.1 ∧ L.node pair.2) (Eval.expectTwo whole args)
      (Eval.expectTwo whole args) := by
  unfold Eval.expectTwo
  split
  · exact obeys_pure ⟨h _ (by simp), h _ (by simp)⟩
  · exact obeys_fault nofun

theorem obeys_expectThree (whole : Node) {args : List Node} (h : ∀ arg ∈ args, L.node arg) :
    L.Obeys id id' (fun triple => L.node triple.1 ∧ L.node triple.2.1 ∧ L.node triple.2.2)
      (Eval.expectThree whole args) (Eval.expectThree whole args) := by
  unfold Eval.expectThree
  split
  · exact obeys_pure ⟨h _ (by simp), h _ (by simp), h _ (by simp)⟩
  · exact obeys_fault nofun

theorem obeys_expectSymbol {node : Node} (h : L.node node) :
    L.Obeys id id' (fun q => L.node (.symbol q)) (Eval.expectSymbol node)
      (Eval.expectSymbol node) := by
  unfold Eval.expectSymbol
  split
  · exact obeys_pure h
  · exact obeys_fault nofun

theorem obeys_expectString (node : Node) :
    L.Obeys id id' (fun _ => True) (Eval.expectString node) (Eval.expectString node) := by
  unfold Eval.expectString
  split
  · exact obeys_pure trivial
  · exact obeys_fault nofun

theorem obeys_expectNumber (node : Node) :
    L.Obeys id id' (fun _ => True) (Eval.expectNumber node) (Eval.expectNumber node) := by
  unfold Eval.expectNumber
  split
  · exact obeys_pure trivial
  · exact obeys_fault nofun

theorem obeys_expectList {node : Node} (h : L.node node) :
    L.Obeys id id' (fun items => ∀ item ∈ items, L.node item) (Eval.expectList node)
      (Eval.expectList node) := by
  unfold Eval.expectList
  split
  · exact obeys_pure ((L.hereditary.list _).1 h)
  · exact obeys_fault nofun

theorem obeys_expectVec {node : Node} (h : L.node node) :
    L.Obeys id id' (fun items => ∀ item ∈ items, L.node item) (Eval.expectVec node)
      (Eval.expectVec node) := by
  unfold Eval.expectVec
  split
  · exact obeys_pure ((L.hereditary.vec _).1 h)
  · exact obeys_fault nofun

end Law

end Lisplet
