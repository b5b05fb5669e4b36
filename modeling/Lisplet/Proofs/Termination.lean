import Lisplet.Proofs.Compositional
import Lisplet.Proofs.Guarded

set_option autoImplicit false

/-! # Termination

Guarded code runs to its end. The measure has three parts. The first is the room that the depth
limit leaves for scopes inside the one where the code runs: functions, macros and `let` forms have
bodies of any size, and the code that macros give is expanded once more, but all this happens in a
scope with less room. Within one scope, evaluation only goes on to parts of the node, since it never
expands there. Expansion also goes on to parts of the node; it evaluates calls of macros, which are
no parts, but evaluation in the same scope is known to end by then. -/

namespace Lisplet

/-! ## Computations that settle -/

namespace Eval

variable {α β : Type} {t : ScopeTree}

/-- From some budget on, the outcome is always the same, and not that the budget is exhausted. -/
def Settles (x : Nat → Eval α) (t : ScopeTree) : Prop :=
  ∃ enough outcome, (∀ t', outcome ≠ .error .stackExhausted t') ∧
    ∀ budget, enough ≤ budget → x budget t = outcome

theorem settles_of_ne {x : Eval α} (h : ∀ t', x t ≠ .error .stackExhausted t') :
    Settles (fun _ => x) t :=
  ⟨0, x t, h, fun _ _ => rfl⟩

theorem Inert.settles {x : Eval α} (h : x.Inert) (t : ScopeTree) : Settles (fun _ => x) t := by
  refine settles_of_ne ?_
  intro t' hx
  rcases h t with ⟨value, hvalue⟩ | ⟨fault, hne, hfault⟩
  · rw [hvalue] at hx
    cases hx
  · rw [hfault] at hx
    cases hx
    exact hne rfl

/-- Both parts of a sequence have enough budget if each of them has. -/
theorem Settles.bind {x : Nat → Eval α} {f : Nat → α → Eval β} (hx : Settles x t)
    (hf : ∀ budget value t₁, x budget t = .ok value t₁ → Settles (fun b => f b value) t₁) :
    Settles (fun b => x b >>= f b) t := by
  obtain ⟨enough, outcome, hne, hx⟩ := hx
  cases outcome with
  | error fault t₁ =>
    refine ⟨enough, .error fault t₁, ?_, ?_⟩
    · rintro t' h
      cases h
      exact hne t₁ rfl
    · intro budget hle
      simp only [Bind.bind, EStateM.bind, hx budget hle]
  | ok value t₁ =>
    obtain ⟨more, outcome, hne', hf⟩ := hf enough value t₁ (hx enough (Nat.le_refl _))
    refine ⟨max enough more, outcome, hne', ?_⟩
    intro budget hle
    have hrun : (x budget >>= f budget) t = f budget value t₁ := by
      simp only [Bind.bind, EStateM.bind, hx budget (by omega)]
    exact hrun.trans (hf budget (by omega))

theorem Settles.of_succ {x : Nat → Eval α} (h : Settles (fun b => x (b + 1)) t) : Settles x t := by
  obtain ⟨enough, outcome, hne, hx⟩ := h
  refine ⟨enough + 1, outcome, hne, ?_⟩
  intro budget hle
  obtain ⟨budget, rfl⟩ : ∃ b, budget = b + 1 := ⟨budget - 1, by omega⟩
  exact hx budget (by omega)

end Eval

/-! ## Room for more scopes -/

/-- All that can be seen from the scope `id` is guarded, and inside this scope at most `room` more
    can be nested. -/
structure ScopeTree.Confined (base room : Nat) (id : ScopeId) (t : ScopeTree) : Prop where
  guarded : t.Guarded base id
  limit_le : (t.scope id).setup.depthLimit ≤ (t.scope id).depth + room

section

variable {base room : Nat} {id : ScopeId} {t : ScopeTree} {α β : Type}

/-- Computations that keep things guarded stay at their depth. -/
theorem ScopeTree.Confined.after (ht : t.Confined base room id) {good : α → Prop}
    {x y : Eval α} (h : (guardedInvariant base).law.Obeys id id good x y) :
    (x.after t).Confined base room id := by
  refine ⟨Invariant.holds_after_of_obeys h ht.guarded, ?_⟩
  have hframe := h.frame_after ⟨rfl, rfl, ht.guarded⟩
  have hid := ht.guarded.inOrder.id_lt
  rw [hframe.setup_eq hid, hframe.depth_eq hid]
  exact ht.limit_le

/-- An opened scope has less room. -/
theorem ScopeTree.Confined.addInside (ht : t.Confined base room id)
    (hlimit : ¬ (t.scope id).AtLimit) :
    ∃ rest, room = rest + 1 ∧ (t.addInside id).Confined base rest t.scopes.size := by
  have hroom := ht.limit_le
  unfold Scope.AtLimit at hlimit
  refine ⟨room - 1, by omega, ht.guarded.addInside, ?_⟩
  rw [ScopeTree.scope_addInside_self]
  have hdepth : ((t.scope id).inside id).depth = (t.scope id).depth + 1 := rfl
  have hsetup : ((t.scope id).inside id).setup = (t.scope id).setup := rfl
  rw [hdepth, hsetup]
  omega

/-- Wherever it is confined, the computation stays so and settles. -/
def SettlesConfined (base room : Nat) (id : ScopeId) (x : Nat → Eval α) : Prop :=
  ∀ t, t.Confined base room id →
    (∀ budget, ((x budget).after t).Confined base room id) ∧ Eval.Settles x t

namespace SettlesConfined

/-- In a sequence, what comes second may rely on what is known of the value. -/
theorem bind_of {x : Nat → Eval α} {f : Nat → α → Eval β} {good : α → Prop}
    (hx : SettlesConfined base room id x)
    (hgood : ∀ t, t.Confined base room id → ∀ budget value t₁,
      x budget t = .ok value t₁ → good value)
    (hf : ∀ value, good value → SettlesConfined base room id fun b => f b value) :
    SettlesConfined base room id fun b => x b >>= f b := by
  intro t ht
  obtain ⟨hconfined, hsettles⟩ := hx t ht
  have hsecond : ∀ budget value t₁, x budget t = .ok value t₁ →
      (∀ b, ((f b value).after t₁).Confined base room id) ∧
        Eval.Settles (fun b => f b value) t₁ := by
    intro budget value t₁ hrun
    have ht₁ := hconfined budget
    rw [Eval.after_of_ok hrun] at ht₁
    exact hf value (hgood t ht budget value t₁ hrun) t₁ ht₁
  refine ⟨?_, hsettles.bind fun budget value t₁ hrun => (hsecond budget value t₁ hrun).2⟩
  intro budget
  rw [Eval.after_bind]
  cases hrun : x budget t with
  | ok value t₁ => exact (hsecond budget value t₁ hrun).1 budget
  | error fault t₁ =>
    have ht₁ := hconfined budget
    rw [Eval.after_of_error hrun] at ht₁
    exact ht₁

end SettlesConfined

/-- Settling is compositional. -/
def settling (base room : Nat) (id : ScopeId) : Compositional Nat where
  holds x := SettlesConfined base room id x
  inert hx t ht := by
    refine ⟨fun _ => ?_, hx.settles t⟩
    rw [hx.after_eq]
    exact ht
  record event t ht :=
    ⟨fun _ => ⟨ht.guarded.of_scopes_eq rfl, ht.limit_le⟩, Eval.settles_of_ne nofun⟩
  bind hx hf := hx.bind_of (fun _ _ _ _ _ _ => trivial) fun value (_ : True) => hf value

end

namespace Settling

variable {base room : Nat} {id : ScopeId} {α β : Type}

/-- A sequence in which the second computation relies on a good value. -/
theorem bind {x : Nat → Eval α} {f : Nat → α → Eval β} {good : α → Prop}
    (hx : (settling base room id).holds x)
    (hobeys : ∀ b, (guardedInvariant base).law.Obeys id id good (x b) (x b))
    (hf : ∀ value, good value → (settling base room id).holds fun b => f b value) :
    (settling base room id).holds fun b => x b >>= f b := by
  refine SettlesConfined.bind_of hx ?_ hf
  intro t ht budget value t₁ hrun
  have hkeeps := (Invariant.keeps_of_obeys (hobeys budget) t ht.guarded).2
  rw [hrun] at hkeeps
  exact hkeeps.1

/-- Computations without a budget. -/
theorem of_ne {x : Eval α} {good : α → Prop}
    (hobeys : (guardedInvariant base).law.Obeys id id good x x)
    (hne : ∀ t t', x t ≠ .error .stackExhausted t') :
    (settling base room id).holds fun _ => x :=
  fun t ht => ⟨fun _ => ht.after hobeys, Eval.settles_of_ne (hne t)⟩

theorem of_succ {x : Nat → Eval α} {good : α → Prop}
    (hobeys : ∀ b, (guardedInvariant base).law.Obeys id id good (x b) (x b))
    (h : (settling base room id).holds fun b => x (b + 1)) :
    (settling base room id).holds x :=
  fun t ht => ⟨fun b => ht.after (hobeys b), (h t ht).2.of_succ⟩

/-- What runs in a scope of its own settles if it settles where there is less room. -/
theorem nest (cause : Node) {f : Nat → ScopeId → Eval α} {good : α → Prop}
    (hobeys : ∀ b inner inner',
      (guardedInvariant base).law.Obeys inner inner' good (f b inner) (f b inner'))
    (h : ∀ rest inner, room = rest + 1 →
      (settling base rest inner).holds fun b => f b inner) :
    (settling base room id).holds fun b => Eval.nest id cause >>= f b := by
  intro t ht
  refine ⟨fun b => ht.after (Law.obeys_nest cause (hobeys b)), ?_⟩
  by_cases hlimit : (t.scope id).AtLimit
  · refine ⟨0, .error (.tooDeep cause) t, nofun, ?_⟩
    intro budget _
    exact (Eval.nest_bind id cause _ t).trans (if_pos hlimit)
  · obtain ⟨rest, hroom, hinner⟩ := ht.addInside hlimit
    obtain ⟨enough, outcome, hne, hf⟩ := (h rest t.scopes.size hroom _ hinner).2
    refine ⟨enough, outcome, hne, ?_⟩
    intro budget hle
    exact ((Eval.nest_bind id cause _ t).trans (if_neg hlimit)).trans (hf budget hle)

/-! ## Bindings -/

theorem bindName (name : String) {value : Node} (hvalue : value.IsTame) :
    (settling base room id).holds fun _ => Eval.bindName id name value :=
  of_ne (Law.obeys_bindName name hvalue) nofun

theorem bindAll {params values : List Node} (hvalues : ∀ value ∈ values, value.IsTame) :
    (settling base room id).holds fun _ => Eval.bindAll id params values := by
  induction params generalizing values with
  | nil => exact Compositional.pure ()
  | cons param params ih =>
    cases values with
    | nil => exact Compositional.pure ()
    | cons value values =>
      obtain ⟨hvalue, hvalues⟩ := List.forall_mem_cons.1 hvalues
      refine (settling base room id).bind ?_ fun _ => ih hvalues
      unfold Eval.bindNode
      cases param.bindingName? with
      | some name => exact bindName name hvalue
      | none => exact Compositional.throw nofun

end Settling

/-! ## Where both passes settle -/

/-- With `room` for more scopes, both passes settle on tame nodes. -/
structure Finishes (base room : Nat) : Prop where
  expand : ∀ {id : ScopeId} {node : Node}, node.IsTame →
    (settling base room id).holds fun b => (Passes.within b).expand id node
  evaluate : ∀ {id : ScopeId} {node : Node}, node.IsTame →
    (settling base room id).holds fun b => (Passes.within b).evaluate id node

section

variable {base room : Nat} {id : ScopeId}

/-- The passes keep to the invariant. -/
theorem agree_guarded (base budget : Nat) :
    (guardedInvariant base).law.Agree (Passes.within budget)
      (Passes.within budget) :=
  (guardedInvariant base).agree_within budget

namespace Finishes

theorem run (h : Finishes base room) {form : Node} (hform : form.IsTame) :
    (settling base room id).holds fun b => (Passes.within b).run id form :=
  Settling.bind (h.expand hform) (fun b => (agree_guarded base b).expand hform)
    fun _ hcode => h.evaluate hcode

theorem runAll (h : Finishes base room) (result : Node) {body : List Node}
    (hbody : ∀ form ∈ body, form.IsTame) :
    (settling base room id).holds fun b => (Passes.within b).runAll id result body := by
  induction body generalizing result with
  | nil => exact Compositional.pure result
  | cons form body ih =>
    obtain ⟨hform, hbody⟩ := List.forall_mem_cons.1 hbody
    exact (settling base room id).bind (h.run hform) fun value => ih value hbody

theorem bindLet (h : Finishes base room) {bindings : List (Node × Node)}
    (hexprs : ∀ binding ∈ bindings, binding.2.IsTame) :
    (settling base room id).holds fun b =>
      Eval.bindLet (Passes.within b) id bindings := by
  induction bindings with
  | nil => exact Compositional.pure ()
  | cons binding bindings ih =>
    obtain ⟨target, expr⟩ := binding
    obtain ⟨hexpr, hexprs⟩ := List.forall_mem_cons.1 hexprs
    unfold Eval.bindLet
    cases target.bindingName? with
    | none => exact Compositional.throw (by simp)
    | some name =>
      refine Settling.bind (h.run hexpr) (fun b => (agree_guarded base b).run hexpr) ?_
      intro value hvalue
      exact (settling base room id).bind (Settling.bindName name hvalue) fun _ => ih hexprs

end Finishes

/-! ## Parts of nodes -/

namespace Node

theorem nesting_lt_of_mem {items : List Node} {item : Node} (h : item ∈ items) :
    item.nesting < nestingAll items + 1 := by
  induction items with
  | nil => simp at h
  | cons first items ih =>
    rw [nestingAll]
    rcases List.mem_cons.1 h with rfl | h
    · omega
    · have hlt := ih h
      omega

/-- A tame node that is nested less than `bound`. -/
def IsTameBelow (bound : Nat) (node : Node) : Prop := node.IsTame ∧ node.nesting < bound

theorem IsTameBelow.mono {bound bound' : Nat} {node : Node} (h : node.IsTameBelow bound)
    (hle : bound ≤ bound') : node.IsTameBelow bound' :=
  ⟨h.1, Nat.lt_of_lt_of_le h.2 hle⟩

variable {items : List Node}

theorem IsTame.of_list (h : (Node.list items).IsTame) :
    ∀ item ∈ items, item.IsTameBelow (Node.list items).nesting := by
  intro item hitem
  rw [nesting]
  exact ⟨(hereditary_isTame.list items).1 h item hitem, nesting_lt_of_mem hitem⟩

theorem IsTame.of_vec (h : (Node.vec items).IsTame) :
    ∀ item ∈ items, item.IsTameBelow (Node.vec items).nesting := by
  intro item hitem
  rw [nesting]
  exact ⟨(hereditary_isTame.vec items).1 h item hitem, nesting_lt_of_mem hitem⟩

theorem IsTame.of_call {head : QName} (h : (Node.call head items).IsTame) :
    ∀ item ∈ items, item.IsTameBelow (Node.call head items).nesting := by
  intro item hitem
  rw [nesting]
  exact ⟨((hereditary_isTame.call head items).1 h).2 item hitem, nesting_lt_of_mem hitem⟩

end Node

/-! ## Evaluation -/

namespace Settling

/-- The builtins that change the tree do so without running code. -/
theorem runBuiltin {builtin : Builtin} {head : QName} {args : List Node}
    (hbuiltin : Builtin.ofName? head.name = some builtin) (hhead : isGuardedName head.name)
    {bound : Nat} (hargs : ∀ arg ∈ args, arg.IsTameBelow bound)
    (hevaluates : (settling base room id).Evaluates Passes.within id
      (Node.IsTameBelow bound)) :
    (settling base room id).holds fun b =>
      Eval.runBuiltin (Passes.within b) id builtin head args := by
  refine hevaluates.runBuiltin hargs ?_
  intro hother
  have hguarded := Builtin.not_mem_of_isGuardedName hbuiltin hhead
  cases builtin with
  | gensym =>
    refine Compositional.expectOne ?_
    rintro arg rfl
    have harg := hargs arg List.mem_cons_self
    refine (settling base room id).bind (hevaluates.evaluate harg) fun value => ?_
    refine (settling base room id).bind (Compositional.expectString value) fun stem => ?_
    exact of_ne (Law.obeys_issue stem) nofun
  | inNs =>
    refine Compositional.expectOne ?_
    rintro arg rfl
    have harg := hargs arg List.mem_cons_self
    refine bind (hevaluates.evaluate harg)
      (fun b => (agree_guarded base b).evaluate harg.1) ?_
    intro value hvalue
    refine bind (Compositional.expectSymbol value) (fun _ => Law.obeys_expectSymbol hvalue) ?_
    intro target htarget
    refine (settling base room id).bind (of_ne (Law.obeys_switchTo htarget) nofun) ?_
    exact fun previous => Compositional.pure _
  | refer =>
    refine Compositional.expectTwo ?_
    rintro source target rfl
    refine (settling base room id).bind (Compositional.expectSymbol source) fun name => ?_
    refine (settling base room id).bind (Compositional.expectSymbol target) fun target => ?_
    refine (settling base room id).bind (Compositional.inert _ (Eval.inert_current id)) ?_
    intro ns
    refine (settling base room id).bind (bindName name.name ⟨rfl, rfl⟩) fun _ => ?_
    refine (settling base room id).bind (Compositional.record _ _) fun _ => ?_
    exact Compositional.pure _
  | eval => simp at hguarded
  | apply => simp at hguarded
  | load => simp at hguarded
  | _ => simp at hother

variable (hinner : ∀ rest, room = rest + 1 → Finishes base rest)

include hinner

theorem letIn {bindings body : List Node} (hlet : (Node.letIn bindings body).IsTame) :
    (settling base room id).holds fun b =>
      Eval.evaluateNode (Passes.within b) id (.letIn bindings body) := by
  refine nest (.letIn bindings body)
    (fun b _ _ => (agree_guarded base b).letInside hlet) ?_
  intro rest inner hroom
  have hbindings := Node.hereditary_isTame.letIn_bindings bindings body hlet
  refine (settling base rest inner).bind ((hinner rest hroom).bindLet hbindings) fun _ => ?_
  exact (hinner rest hroom).runAll .nil (Node.hereditary_isTame.letIn_body bindings body hlet)

theorem callFn {params body : List Node} (hfn : (Node.fn params body).IsTame) (head : QName)
    {args : List Node} (hargs : ∀ arg ∈ args, arg.IsTame)
    (hevaluate : ∀ arg ∈ args,
      (settling base room id).holds fun b => (Passes.within b).evaluate id arg) :
    (settling base room id).holds fun b =>
      Eval.callFn (Passes.within b) id params body head args := by
  refine bind (Compositional.mapM hevaluate) (fun b => Law.obeys_mapM fun arg harg =>
    (agree_guarded base b).evaluate (hargs arg harg)) ?_
  intro values hvalues
  refine nest (.call head args)
    (fun b _ _ => (agree_guarded base b).fnInside hfn hvalues.2) ?_
  intro rest inner hroom
  refine (settling base rest inner).bind (bindAll hvalues.2) fun _ => ?_
  exact (hinner rest hroom).runAll .nil (Node.hereditary_isTame.fn_body params body hfn)

/-- The code that a macro gives is expanded where the macro ran. -/
theorem callMacro {params body : List Node} (hfn : (Node.fn params body).IsTame) (head : QName)
    {args : List Node} (hargs : ∀ arg ∈ args, arg.IsTame) :
    (settling base room id).holds fun b =>
      Eval.callMacro (Passes.within b) id params body head args := by
  refine nest (.call head args)
    (fun b _ _ => (agree_guarded base b).macroInside hfn head.name hargs) ?_
  intro rest inner hroom
  have hbody := Node.hereditary_isTame.fn_body params body hfn
  refine (settling base rest inner).bind (bindAll hargs) fun _ => ?_
  refine bind ((hinner rest hroom).runAll .nil hbody)
    (fun b => (agree_guarded base b).runAll Law.good_nil hbody) ?_
  intro code hcode
  refine (settling base rest inner).bind (Compositional.record _ _) fun _ => ?_
  exact (hinner rest hroom).expand hcode

theorem callNamed (head : QName) {args : List Node} (hargs : ∀ arg ∈ args, arg.IsTame)
    (hevaluate : ∀ arg ∈ args,
      (settling base room id).holds fun b => (Passes.within b).evaluate id arg) :
    (settling base room id).holds fun b =>
      Eval.callNamed (Passes.within b) id head args := by
  refine bind (Compositional.inert _ (Eval.inert_resolve id head))
    (fun _ => Law.obeys_resolve head) ?_
  intro value hvalue
  cases value with
  | fn params body =>
    by_cases hlength : args.length = params.length
    · simp only [if_pos hlength]
      exact callFn hinner hvalue head hargs hevaluate
    · simp only [if_neg hlength]
      exact Compositional.throw nofun
  | macroFn params body =>
    have hfn := (Node.hereditary_isTame.macroFn params body).1 hvalue
    by_cases hlength : args.length = params.length
    · simp only [if_pos hlength]
      exact callMacro hinner hfn head hargs
    · simp only [if_neg hlength]
      exact Compositional.throw nofun
  | _ => exact Compositional.throw nofun

/-- Evaluation settles if it settles on parts of the node and if both passes settle in opened
    scopes. -/
theorem evaluateNode {node : Node} (hnode : node.IsTame)
    (hevaluates : (settling base room id).Evaluates Passes.within id
      (Node.IsTameBelow node.nesting)) :
    (settling base room id).holds fun b =>
      Eval.evaluateNode (Passes.within b) id node := by
  cases node with
  | symbol q => exact Compositional.inert _ (Eval.inert_resolve id q)
  | call head args =>
    have hhead := (Node.isTame_symbol head).1 ((Node.hereditary_isTame.call head args).1 hnode).1
    have hargs := hnode.of_call
    cases hbuiltin : Builtin.ofName? head.name with
    | some builtin =>
      simp only [Eval.evaluateNode, hbuiltin]
      exact runBuiltin hbuiltin hhead hargs hevaluates
    | none =>
      simp only [Eval.evaluateNode, hbuiltin]
      exact callNamed hinner head (fun arg harg => (hargs arg harg).1) fun arg harg =>
        hevaluates.evaluate (hargs arg harg)
  | define name expr =>
    have hexpr := (Node.hereditary_isTame.define name expr).1 hnode
    have hlt : expr.nesting < (Node.define name expr).nesting := by
      rw [Node.nesting]
      exact Nat.lt_succ_self _
    refine bind (hevaluates.evaluate ⟨hexpr, hlt⟩)
      (fun b => (agree_guarded base b).evaluate hexpr) ?_
    intro value hvalue
    refine (settling base room id).bind (bindName name hvalue) fun _ => ?_
    refine (settling base room id).bind (Compositional.inert _ (Eval.inert_current id)) ?_
    intro ns
    refine (settling base room id).bind (Compositional.record _ _) fun _ => ?_
    exact Compositional.pure value
  | letIn bindings body => exact letIn hinner hnode
  | _ => exact Compositional.pure _

theorem evaluate {node : Node} (hnode : node.IsTame) :
    (settling base room id).holds fun b => (Passes.within b).evaluate id node := by
  induction hnesting : node.nesting using Nat.strongRecOn generalizing node with
  | ind bound ih =>
    subst hnesting
    -- One unit of the budget goes to the node itself, the rest to its parts.
    refine of_succ (fun b => (agree_guarded base b).evaluate hnode) ?_
    refine evaluateNode hinner hnode ⟨?_, ?_, ?_, ?_⟩
    · exact fun h item hitem => (h.1.of_list item hitem).mono (Nat.le_of_lt h.2)
    · exact fun h item hitem => (h.1.of_vec item hitem).mono (Nat.le_of_lt h.2)
    · exact fun h arg harg => (h.1.of_call arg harg).mono (Nat.le_of_lt h.2)
    · exact fun {part} h => ih part.nesting h.2 h.1 rfl

end Settling

/-! ## Expansion -/

namespace Settling

/-- A call is its own expansion. -/
theorem expand_call {head : QName} {args : List Node} (hcall : (Node.call head args).IsTame) :
    (settling base room id).holds fun b =>
      (Passes.within b).expand id (.call head args) :=
  of_succ (fun b => (agree_guarded base b).expand hcall) (Compositional.pure _)

variable (hevaluate : ∀ {node : Node}, node.IsTame →
  (settling base room id).holds fun b => (Passes.within b).evaluate id node)

include hevaluate

/-- Expansion of a call settles if it settles on the arguments: a macro is run by evaluation. -/
theorem expandCall {head : QName} (hhead : (Node.symbol head).IsTame) {args : List Node}
    (hargs : ∀ arg ∈ args, arg.IsTame)
    (hexpand : ∀ arg ∈ args,
      (settling base room id).holds fun b => (Passes.within b).expand id arg) :
    (settling base room id).holds fun b =>
      Eval.expandCall (Passes.within b) id head args := by
  refine bind (Compositional.mapM hexpand)
    (fun b => (agree_guarded base b).mapM_expand hargs) ?_
  intro values hvalues
  have hcall := (Node.hereditary_isTame.call head values).2 ⟨hhead, hvalues.2⟩
  refine (settling base room id).bind (Compositional.inert _ (Eval.inert_find? id head)) ?_
  intro found
  split
  · refine (settling base room id).bind (Compositional.record _ _) fun _ => ?_
    exact bind (expand_call hcall) (fun b => (agree_guarded base b).expand hcall)
      fun _ hcode => hevaluate hcode
  · exact Compositional.pure _

theorem expand {node : Node} (hnode : node.IsTame) :
    (settling base room id).holds fun b => (Passes.within b).expand id node := by
  induction hnesting : node.nesting using Nat.strongRecOn generalizing node with
  | ind bound ih =>
    subst hnesting
    have hexpand {part : Node} (h : part.IsTameBelow node.nesting) :
        (settling base room id).holds fun b => (Passes.within b).expand id part :=
      ih part.nesting h.2 h.1 rfl
    have hexpands : (settling base room id).Expands Passes.within id
        (Node.IsTameBelow node.nesting) := by
      refine ⟨?_, ?_, hexpand⟩
      · exact fun h item hitem => (h.1.of_list item hitem).mono (Nat.le_of_lt h.2)
      · exact fun h item hitem => (h.1.of_vec item hitem).mono (Nat.le_of_lt h.2)
    refine of_succ (fun b => (agree_guarded base b).expand hnode) ?_
    refine hexpands.expandNode ?_ ?_
    · rintro items rfl
      exact hnode.of_list
    · rintro head args rfl _
      obtain ⟨hhead, hargs⟩ := List.forall_mem_cons.1 hnode.of_list
      exact expandCall hevaluate hhead.1 (fun arg harg => (hargs arg harg).1)
        fun arg harg => hexpand (hargs arg harg)

end Settling

end

/-- Both passes settle in a scope if they settle in the scopes that can be opened there. -/
theorem finishes_of_inside {base room : Nat}
    (hinner : ∀ rest, room = rest + 1 → Finishes base rest) : Finishes base room :=
  ⟨Settling.expand (Settling.evaluate hinner), Settling.evaluate hinner⟩

theorem finishes (base room : Nat) : Finishes base room := by
  -- Without room no scope can be opened, so there is nothing to know about opened ones.
  induction room with
  | zero => exact finishes_of_inside nofun
  | succ room ih =>
    refine finishes_of_inside ?_
    rintro rest hroom
    cases hroom
    exact ih

/-- The depth limit guards against endless runs, whatever it is. From a scope with a guarded current
    namespace and tame nodes only in the tables of its chain, each run of a tame node comes to an
    end: given enough budget, there is an outcome that more budget does not change, and it is a
    value or a declared fault, never that the budget is exhausted. -/
theorem Passes.run_settles {t : ScopeTree} {id : ScopeId} (hlinked : t.Linked)
    (hid : id < t.scopes.size) (hchain : t.ChainHolds Node.IsTame id)
    (hcurrent : isGuardedName (t.scope id).current) {node : Node} (hnode : node.IsTame) :
    ∃ enough outcome,
      (∀ fault t', outcome = .error fault t' → fault.isDeclared ∧ fault ≠ .stackExhausted) ∧
      ∀ budget, enough ≤ budget → (within budget).run id node t = outcome := by
  have hguarded : t.Guarded t.scopes.size id := by
    refine ⟨⟨hlinked, hid, hchain, ?_⟩, hcurrent⟩
    intro other hle hlt
    exact absurd hlt (Nat.not_lt.2 hle)
  let room := ((t.scope id).setup.depthLimit - (t.scope id).depth).toNat
  have hconfined : t.Confined t.scopes.size room id := ⟨hguarded, by omega⟩
  obtain ⟨enough, outcome, hne, hrun⟩ := ((finishes _ room).run hnode t hconfined).2
  refine ⟨enough, outcome, ?_, hrun⟩
  rintro fault t' rfl
  have hobeys : (guardedInvariant t.scopes.size).law.Obeys id id Node.IsTame
      ((within enough).run id node) _ := (agree_guarded _ enough).run hnode
  have hkeeps := (Invariant.keeps_of_obeys hobeys t hguarded).2
  have hfault : (within enough).run id node t = .error fault t' := hrun enough (Nat.le_refl _)
  rw [hfault] at hkeeps
  refine ⟨hkeeps.1, ?_⟩
  rintro rfl
  exact hne t' rfl

/-- A function that calls a macro that gives a call of the function. -/
theorem Passes.run_settles_recursive :
    let setup : Setup := ⟨1, fun _ => .missing⟩
    let f := QName.plain "f"
    let m := QName.plain "m"
    let function : Node := .fn [] [.list [.symbol m]]
    let giving : Node := .macroFn [] [.call (QName.plain "quote") [.list [.symbol f]]]
    let t := ((ScopeTree.root setup "user").update ScopeTree.rootId (·.enter f function)).update
      ScopeTree.rootId (·.enter m giving)
    let run budget := (within budget).run ScopeTree.rootId (.list [.symbol f])
    (∃ enough outcome,
      (∀ fault t', outcome = .error fault t' → fault.isDeclared ∧ fault ≠ .stackExhausted) ∧
      ∀ budget, enough ≤ budget → run budget t = outcome) ∧
    ∃ t', run 9 t = .error (.tooDeep (.call m [])) t' := by
  intro setup f m function giving t run
  have hroot : (ScopeTree.root setup "user").Guarded 0 ScopeTree.rootId :=
    ⟨ScopeTree.inOrder_root setup "user" ⟨rfl, rfl⟩ fun _ => ⟨rfl, rfl⟩, rfl⟩
  have hfunction : function.IsTame := ⟨rfl, rfl⟩
  have hgiving : giving.IsTame := ⟨rfl, rfl⟩
  have ht : t.Guarded 0 ScopeTree.rootId := (hroot.enter f hfunction).enter m hgiving
  refine ⟨?_, _, rfl⟩
  exact run_settles ht.inOrder.linked ht.inOrder.id_lt ht.inOrder.chain ht.current ⟨rfl, rfl⟩

end Lisplet
