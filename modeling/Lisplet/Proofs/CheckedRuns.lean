import Lisplet.Proofs.Chain
import Lisplet.Proofs.Session
import Lisplet.Proofs.WellFormed

set_option autoImplicit false

/-! # Runs on well-formed nodes

Binding pairs up parameters with values and names with expressions, and it takes what it is given:
what has no partner is dropped, and a node that is no symbol is bound by whatever name it has. The
checked passes of this file raise an alarm in such a case. On well-formed nodes they do exactly what
the passes do, whatever the alarm is, so no run ever comes to that. -/

namespace Lisplet

/-! ## Checked passes -/

namespace Eval

/-- Bind parameters to values, which must be symbols and as many as there are values. -/
def bindAllChecked (alarm : Fault) (id : ScopeId) : List Node → List Node → Eval Unit
  | [], [] => return ()
  | .symbol q :: params, value :: values => do
    bindName id q.name value
    bindAllChecked alarm id params values
  | _, _ => throw alarm

/-- Evaluate the bindings of a `let`, which must be symbols and expressions in turn. -/
def bindLetChecked (alarm : Fault) (p : Passes) (id : ScopeId) : List Node → Eval Unit
  | [] => return ()
  | .symbol q :: expr :: rest => do
    bindName id q.name (← p.run id expr)
    bindLetChecked alarm p id rest
  | _ => throw alarm

/-- Call a function with checked parameters. -/
def callFnChecked (alarm : Fault) (p : Passes) (id : ScopeId) (params body : List Node)
    (head : QName) (args : List Node) : Eval Node := do
  let values ← args.mapM (p.evaluate id)
  let inner ← nest id (.call head args)
  bindAllChecked alarm inner params values
  p.runAll inner .nil body

/-- Call a macro with checked parameters. -/
def callMacroChecked (alarm : Fault) (p : Passes) (id : ScopeId) (params body : List Node)
    (head : QName) (args : List Node) : Eval Node := do
  let inner ← nest id (.call head args)
  bindAllChecked alarm inner params args
  let code ← p.runAll inner .nil body
  record (.produced head.name code)
  p.expand inner code

/-- Call what a name is bound to with checked parameters. -/
def callNamedChecked (alarm : Fault) (p : Passes) (id : ScopeId) (head : QName)
    (args : List Node) : Eval Node := do
  let whole := .call head args
  match ← resolve id head with
  | .fn params body =>
    if args.length = params.length then callFnChecked alarm p id params body head args
    else throw (.wrongCount whole)
  | .macroFn params body =>
    if args.length = params.length then callMacroChecked alarm p id params body head args
    else throw (.wrongCount whole)
  | _ => throw (.undispatchable whole)

/-- Evaluate an expanded node with checked bindings. -/
def evaluateNodeChecked (alarm : Fault) (p : Passes) (id : ScopeId) : Node → Eval Node
  | .call head args =>
    match Builtin.ofName? head.name with
    | some builtin => runBuiltin p id builtin head args
    | none => callNamedChecked alarm p id head args
  | .letIn bindings body => do
    let inner ← nest id (.letIn bindings body)
    bindLetChecked alarm p inner bindings
    p.runAll inner .nil body
  | other => evaluateNode p id other

end Eval

/-- The two passes with checked bindings everywhere. -/
def Passes.checkedWithin (alarm : Fault) : Nat → Passes
  | 0 =>
    { expand := fun _ _ => throw .stackExhausted
      evaluate := fun _ _ => throw .stackExhausted }
  | budget + 1 =>
    { expand := fun id node => Eval.expandNode (Passes.checkedWithin alarm budget) id node
      evaluate := fun id node =>
        Eval.evaluateNodeChecked alarm (Passes.checkedWithin alarm budget) id node }

/-! ## Checks that never fail -/

namespace Eval

theorem bindAllChecked_eq (alarm : Fault) (id : ScopeId) {params values : List Node}
    (hparams : ∀ param ∈ params, param.isSymbol) (hlength : values.length = params.length) :
    bindAllChecked alarm id params values = bindAll id params values := by
  induction params generalizing values with
  | nil =>
    rw [List.length_eq_zero_iff.1 hlength]
    rfl
  | cons param params ih =>
    cases values with
    | nil => simp at hlength
    | cons value values =>
      obtain ⟨hparam, hrest⟩ := List.forall_mem_cons.1 hparams
      obtain ⟨q, rfl⟩ := Node.exists_of_isSymbol hparam
      rw [bindAllChecked, bindAll, ih hrest (Nat.succ.inj hlength)]
      rfl

theorem bindLetChecked_eq (alarm : Fault) (p : Passes) (id : ScopeId) {bindings : List Node}
    (h : Node.isAlternating bindings) :
    bindLetChecked alarm p id bindings = bindLet p id (Node.pairs bindings) := by
  fun_induction Node.pairs bindings with
  | case1 target expr rest ih =>
    obtain ⟨q, rfl⟩ := Node.exists_of_isSymbol
      (Node.isSymbol_of_mem_pairs h (target, expr) List.mem_cons_self)
    rw [Node.isAlternating_cons] at h
    rw [bindLetChecked, bindLet, ih h]
    rfl
  | case2 bindings hshort =>
    -- What is left without a pair has less than two nodes, and their number is even.
    cases bindings with
    | nil => rfl
    | cons target rest =>
      cases rest with
      | nil => simp [Node.isAlternating] at h
      | cons expr rest => exact absurd rfl (hshort target expr rest)

end Eval

/-! ## Checked passes on well-formed nodes -/

/-- All runs on well-formed nodes keep the tables of the chain well-formed, and those of the scopes
    they open. -/
def wellFormedInvariant (base : Nat) : Invariant :=
  chainInvariant wellFormedDiscipline (fun _ => rfl) base

namespace Law

variable {base : Nat} {p q : Passes} {id id' : ScopeId}

theorem Agree.callFnChecked (alarm : Fault) (h : (wellFormedInvariant base).law.Agree p q)
    {params body : List Node} (hfn : (Node.fn params body).isWellFormed) (head : QName)
    {args : List Node} (hlength : args.length = params.length)
    (hargs : ∀ arg ∈ args, arg.isWellFormed) :
    (wellFormedInvariant base).law.Obeys id id' (fun node => node.isWellFormed)
      (Eval.callFn p id params body head args)
      (Eval.callFnChecked alarm q id' params body head args) := by
  have hparams := ((Node.isWellFormed_fn params body).1 hfn).1
  unfold Eval.callFn Eval.callFnChecked
  refine (obeys_mapM fun arg harg => h.evaluate (hargs arg harg)).bind ?_
  intro values hvalues
  refine obeys_nest (.call head args) ?_
  intro inner inner'
  rw [Eval.bindAllChecked_eq alarm inner' hparams (hvalues.1.trans hlength)]
  exact h.fnInside hfn hvalues.2

theorem Agree.callMacroChecked (alarm : Fault)
    (h : (wellFormedInvariant base).law.Agree p q) {params body : List Node}
    (hfn : (Node.fn params body).isWellFormed) (head : QName) {args : List Node}
    (hlength : args.length = params.length) (hargs : ∀ arg ∈ args, arg.isWellFormed) :
    (wellFormedInvariant base).law.Obeys id id' (fun node => node.isWellFormed)
      (Eval.callMacro p id params body head args)
      (Eval.callMacroChecked alarm q id' params body head args) := by
  have hparams := ((Node.isWellFormed_fn params body).1 hfn).1
  refine obeys_nest (.call head args) ?_
  intro inner inner'
  rw [Eval.bindAllChecked_eq alarm inner' hparams hlength]
  exact h.macroInside hfn head.name hargs

theorem Agree.callNamedChecked (alarm : Fault)
    (h : (wellFormedInvariant base).law.Agree p q) (head : QName) {args : List Node}
    (hargs : ∀ arg ∈ args, arg.isWellFormed) :
    (wellFormedInvariant base).law.Obeys id id' (fun node => node.isWellFormed)
      (Eval.callNamed p id head args)
      (Eval.callNamedChecked alarm q id' head args) := by
  unfold Eval.callNamed Eval.callNamedChecked
  refine (obeys_resolve head).bind ?_
  intro value hvalue
  cases value with
  | fn params body =>
    by_cases hlength : args.length = params.length
    · simp only [if_pos hlength]
      exact h.callFnChecked alarm hvalue head hlength hargs
    · simp only [if_neg hlength]
      exact obeys_fault nofun
  | macroFn params body =>
    have hfn := (Node.hereditary_isWellFormed.macroFn params body).1 hvalue
    by_cases hlength : args.length = params.length
    · simp only [if_pos hlength]
      exact h.callMacroChecked alarm hfn head hlength hargs
    · simp only [if_neg hlength]
      exact obeys_fault nofun
  | _ => exact obeys_fault nofun

theorem Agree.evaluateNodeChecked (alarm : Fault)
    (h : (wellFormedInvariant base).law.Agree p q) {node : Node}
    (hnode : node.isWellFormed) :
    (wellFormedInvariant base).law.Obeys id id' (fun node => node.isWellFormed)
      (Eval.evaluateNode p id node)
      (Eval.evaluateNodeChecked alarm q id' node) := by
  cases node with
  | call head args =>
    obtain ⟨hhead, hargs⟩ := (Node.hereditary_isWellFormed.call head args).1 hnode
    rw [Eval.evaluateNode, Eval.evaluateNodeChecked]
    cases hbuiltin : Builtin.ofName? head.name with
    | some builtin => exact h.runBuiltin hbuiltin hhead hargs
    | none => exact h.callNamedChecked alarm head hargs
  | letIn bindings body =>
    have halternating := ((Node.isWellFormed_letIn bindings body).1 hnode).1
    rw [Eval.evaluateNode, Eval.evaluateNodeChecked]
    refine obeys_nest (.letIn bindings body) ?_
    intro inner inner'
    rw [Eval.bindLetChecked_eq alarm q inner' halternating]
    exact h.letInside hnode
  | _ => exact h.evaluateNode hnode

/-- On well-formed nodes the checked passes do what the passes do. -/
theorem agree_checkedWithin (alarm : Fault) (base budget : Nat) :
    (wellFormedInvariant base).law.Agree (Passes.within budget)
      (Passes.checkedWithin alarm budget) := by
  induction budget with
  | zero => exact ⟨fun _ => obeys_fault nofun, fun _ => obeys_fault nofun⟩
  | succ budget ih => exact ⟨ih.expandNode, ih.evaluateNodeChecked alarm⟩

end Law

/-! ## Safe runs -/

/-- A run in the scope `id` of the tree `t` that raises no alarm: it does what the checked run does,
    ends in a well-formed value or a declared fault, and leaves well-formed nodes only in the tables
    of the chain and of the scopes that it opened. -/
def RunsSafely (id : ScopeId) (t : ScopeTree) (x checked : Eval Node) : Prop :=
  checked t = x t ∧
    match x t with
    | .ok value t' =>
      value.isWellFormed ∧ t'.InOrder (fun node => node.isWellFormed) t.scopes.size id
    | .error fault t' =>
      fault.isDeclared ∧ t'.InOrder (fun node => node.isWellFormed) t.scopes.size id

theorem runsSafely_of_obeys {id : ScopeId} {t : ScopeTree} {x checked : Eval Node}
    (hlinked : t.Linked) (hid : id < t.scopes.size)
    (hchain : t.ChainHolds (fun node => node.isWellFormed) id)
    (h : (wellFormedInvariant t.scopes.size).law.Obeys id id (fun node => node.isWellFormed)
      x checked) : RunsSafely id t x checked := by
  -- No scope has been opened yet.
  have hopened : ∀ other, t.scopes.size ≤ other → other < t.scopes.size →
      (t.scope other).Holds fun node => node.isWellFormed :=
    fun other hle hlt => absurd hlt (Nat.not_lt.2 hle)
  obtain ⟨hchecked, hrun⟩ := Invariant.keeps_of_obeys h t ⟨hlinked, hid, hchain, hopened⟩
  refine ⟨hchecked, ?_⟩
  cases hx : x t with
  | ok value t' =>
    rw [hx] at hrun
    exact hrun
  | error fault t' =>
    rw [hx] at hrun
    exact hrun

theorem open_wellFormedDiscipline : wellFormedDiscipline.Open where
  text _ _ h := Form.isWellFormed_of_mem_readAll h
  file _ := rfl

/-- After every step of a session with a fresh interpreter, all scopes are in order. -/
theorem inOrder_of_mem_session (setup : Setup) (ns : String) (requests : List Request) :
    ∀ answer ∈ (Interpreter.fresh setup ns).session requests,
      wellFormedDiscipline.Allows answer.1 ∧
        ∀ id < answer.2.tree.scopes.size,
          answer.2.tree.InOrder (fun node => node.isWellFormed) 0 id := by
  intro answer hanswer
  have hroot : (ScopeTree.root setup ns).InOrder (fun node => node.isWellFormed) 0
      ScopeTree.rootId :=
    ScopeTree.inOrder_root setup ns rfl fun _ => rfl
  obtain ⟨hallows, hinOrder⟩ := (wellFormedInvariant 0).session open_wellFormedDiscipline
    (Interpreter.fresh setup ns) hroot requests answer hanswer
  exact ⟨hallows, fun id hid => hinOrder.every hid⟩

/-- Well-formedness is kept by everything, and internal failures are out of reach. What is read is
    well-formed; expansion, evaluation and runs of well-formed nodes in a well-formed chain are
    safe, whatever the alarm; and after every step of a session from a fresh start, each scope is
    one in which that holds. -/
theorem Passes.run_safely :
    (∀ source form, .ok form ∈ Form.readAll source → form.isWellFormed) ∧
    (∀ (budget : Nat) (alarm : Fault) (t : ScopeTree) (id : ScopeId) (node : Node),
      t.Linked → id < t.scopes.size → t.ChainHolds (fun node => node.isWellFormed) id →
      node.isWellFormed →
      let p := Passes.within budget
      let checked := Passes.checkedWithin alarm budget
      RunsSafely id t (p.expand id node) (checked.expand id node) ∧
        RunsSafely id t (p.evaluate id node) (checked.evaluate id node) ∧
        RunsSafely id t (p.run id node) (checked.run id node)) ∧
    ∀ (setup : Setup) (ns : String) (requests : List Request),
      ∀ answer ∈ (Interpreter.fresh setup ns).session requests,
        wellFormedDiscipline.Allows answer.1 ∧
          ∀ id < answer.2.tree.scopes.size,
            answer.2.tree.InOrder (fun node => node.isWellFormed) 0 id := by
  refine ⟨fun _ _ h => Form.isWellFormed_of_mem_readAll h, ?_, inOrder_of_mem_session⟩
  intro budget alarm t id node hlinked hid hchain hnode p checked
  have hagree := Law.agree_checkedWithin alarm t.scopes.size budget
  refine ⟨?_, ?_, ?_⟩
  · exact runsSafely_of_obeys hlinked hid hchain (hagree.expand hnode)
  · exact runsSafely_of_obeys hlinked hid hchain (hagree.evaluate hnode)
  · exact runsSafely_of_obeys hlinked hid hchain (hagree.run hnode)

/-- A `let` with a function call in it, in the root of a fresh tree. -/
theorem Passes.run_safely_sample :
    let setup : Setup := ⟨2, fun _ => .missing⟩
    let identity : Node := .fn [.symbol (QName.plain "x")] [.symbol (QName.plain "x")]
    let form : Node :=
      .letIn [.symbol (QName.plain "f"), identity] [.call (QName.plain "f") [.bool true]]
    let t := ScopeTree.root setup "user"
    RunsSafely ScopeTree.rootId t ((Passes.within 9).run ScopeTree.rootId form)
      ((Passes.checkedWithin .stackExhausted 9).run ScopeTree.rootId form) ∧
      ((Passes.within 9).run ScopeTree.rootId form).run' t = some (.bool true) := by
  intro setup identity form t
  have hroot : t.InOrder (fun node => node.isWellFormed) 0 ScopeTree.rootId :=
    ScopeTree.inOrder_root setup "user" rfl fun _ => rfl
  have hform : form.isWellFormed := by
    simp [form, identity, Node.isWellFormed, Node.areWellFormed, Node.isAlternating, Node.pairs,
      Node.isSymbol]
  have hsafe := Passes.run_safely.2.1 9 .stackExhausted t ScopeTree.rootId form
    hroot.linked hroot.id_lt hroot.chain hform
  exact ⟨hsafe.2.2, rfl⟩

end Lisplet
