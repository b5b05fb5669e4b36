import Lisplet.Proofs.Chain
import Lisplet.Proofs.Compositional
import Lisplet.Proofs.Isolation

set_option autoImplicit false

/-! # What expansion changes

Expansion runs macros, and a macro may do anything, but it does so in a scope of its own. Hence
expansion leaves every scope as it is (`Passes.expand_intact`). The exception are builtins: if the
name of one is bound to a macro, expansion takes the call for a macro call, and evaluation then
carries out the builtin, in the scope itself. So this is also the only case in which a call of a
builtin does not stay as it is (`Passes.expand_builtin_iff`). -/

namespace Lisplet

theorem Eval.resolve_of_find? {id : ScopeId} {q : QName} {value : Node} {t : ScopeTree}
    (h : t.find? id q = some value) : Eval.resolve id q t = .ok value t := by
  have hfind : Eval.find? id q t = .ok (some value) t := congrArg (EStateM.Result.ok · t) h
  simp only [Eval.resolve, Bind.bind, EStateM.bind, hfind]
  rfl

/-- Behind its arguments, a call is kept if its head is bound to no macro. -/
theorem Eval.keepCall {id : ScopeId} {head : QName} {t : ScopeTree}
    (hplain : ∀ params body, t.find? id head ≠ some (.macroFn params body)) (p : Passes)
    (values : List Node) :
    (do
      match ← Eval.find? id head with
      | some (.macroFn ..) =>
        Eval.record (.expanding (.call head values))
        p.run id (.call head values)
      | _ => return .call head values : Eval Node) t = .ok (.call head values) t := by
  have hfind : Eval.find? id head t = .ok (t.find? id head) t := rfl
  simp only [Bind.bind, EStateM.bind, hfind]
  cases hfound : t.find? id head with
  | none => rfl
  | some value =>
    cases value with
    | macroFn params body => exact absurd hfound (hplain params body)
    | _ => rfl

/-! ## Trees without builtin macros -/

namespace ScopeTree

/-- Seen from the scope `id`, no name of a builtin is bound to a macro; and all scopes that can be
    seen from there exist. -/
structure BuiltinsPlain (id : ScopeId) (t : ScopeTree) : Prop where
  id_lt : id < t.scopes.size
  root_lt : rootId < t.scopes.size
  outer_lt : ∀ other ∈ (t.scope id).outer, other < t.scopes.size
  not_macro : ∀ q : QName, (Builtin.ofName? q.name).isSome →
    ∀ params body, t.find? id q ≠ some (.macroFn params body)

variable {id : ScopeId} {t t' : ScopeTree}

theorem chain_eq_of_intact (h : Intact t t') (hid : id < t.scopes.size)
    (houter : ∀ other ∈ (t.scope id).outer, other < t.scopes.size) : t'.chain id = t.chain id := by
  unfold chain
  rw [h.scope_eq id hid, List.cons_inj_right]
  exact List.map_congr_left fun other hother => h.scope_eq other (houter other hother)

theorem BuiltinsPlain.find?_eq (h : t.BuiltinsPlain id) (hintact : Intact t t') (q : QName) :
    t'.find? id q = t.find? id q := by
  unfold ScopeTree.find? innermost?
  rw [chain_eq_of_intact hintact h.id_lt h.outer_lt, hintact.scope_eq rootId h.root_lt]

theorem BuiltinsPlain.of_intact (h : t.BuiltinsPlain id) (hintact : Intact t t') :
    t'.BuiltinsPlain id := by
  have hsize := hintact.size_le
  refine ⟨Nat.lt_of_lt_of_le h.id_lt hsize, Nat.lt_of_lt_of_le h.root_lt hsize, ?_, ?_⟩
  · intro other hother
    rw [hintact.scope_eq id h.id_lt] at hother
    exact Nat.lt_of_lt_of_le (h.outer_lt other hother) hsize
  · intro q hq params body
    rw [h.find?_eq hintact]
    exact h.not_macro q hq params body

end ScopeTree

/-! ## Expansion is quiet -/

/-- Computations that leave every scope as it is, as long as no builtin is bound to a macro. -/
def quiet (id : ScopeId) : Compositional Unit where
  holds x := ∀ t : ScopeTree, t.BuiltinsPlain id → Intact t ((x ()).after t)
  inert {_ x} hx t _ := by
    show Intact t (x.after t)
    rw [hx.after_eq]
    exact Intact.refl t
  record event t _ := intact_record t event
  bind {_ _ x f} hx hf t ht := by
    have hfirst := hx t ht
    rw [Eval.after_bind]
    cases hrun : x () t with
    | ok value t₁ =>
      rw [Eval.after_of_ok hrun] at hfirst
      exact hfirst.trans (hf value t₁ (ht.of_intact hfirst))
    | error fault t₁ =>
      rw [Eval.after_of_error hrun] at hfirst
      exact hfirst

namespace Passes

variable {id : ScopeId} {t : ScopeTree}

/-- A call of a name that is bound to a macro is carried out in a scope of its own: the name is none
    of a builtin. -/
theorem intact_run_macro (budget : Nat) (ht : t.BuiltinsPlain id) {head : QName}
    {params body : List Node} (hfound : t.find? id head = some (.macroFn params body))
    (args : List Node) : Intact t (((within budget).run id (.call head args)).after t) := by
  cases budget with
  | zero => exact Intact.refl t
  | succ budget =>
    have hname : Builtin.ofName? head.name = none := by
      rw [← Option.not_isSome_iff_eq_none]
      intro hbuiltin
      exact ht.not_macro head hbuiltin params body hfound
    have hrun : ((within (budget + 1)).run id (.call head args)).after t
        = (if args.length = params.length then
            Eval.callMacro (within budget) id params body head args
          else throw (.wrongCount (.call head args)) : Eval Node).after t := by
      show (Eval.evaluateNode (within budget) id (.call head args)).after t = _
      rw [Eval.evaluateNode, hname, Eval.callNamed, Eval.after_bind, Eval.resolve_of_find? hfound]
    rw [hrun]
    split
    · have hagree := Invariant.free.agree_within budget
      refine intact_nest (.call head args) ?_ t
      intro inner t'
      exact Invariant.frame_of_obeys (hagree.macroInside trivial head.name fun _ _ => trivial) t'
    · exact Intact.refl t

theorem quiet_expand (budget : Nat) (node : Node) :
    (quiet id).holds fun _ => (within budget).expand id node := by
  induction budget generalizing node with
  | zero => exact fun t _ => Intact.refl t
  | succ budget ih =>
    have hexpands : (quiet id).Expands (fun _ => within budget) id (fun _ => True) :=
      ⟨fun _ _ _ => trivial, fun _ _ _ => trivial, fun {node} _ => ih node⟩
    refine hexpands.expandNode (fun _ _ _ _ => trivial) ?_
    intro head args _ _
    refine (quiet id).bind (Compositional.mapM fun arg _ => ih arg) fun values => ?_
    intro t ht
    have hfind : Eval.find? id head t = .ok (t.find? id head) t := rfl
    simp only [Eval.after_bind, hfind]
    split
    · next params body hfound =>
      have hrecord := intact_record t (.expanding (.call head values))
      rw [Eval.after_bind]
      refine hrecord.trans ?_
      exact intact_run_macro budget (ht.of_intact hrecord) hfound values
    · exact Intact.refl t

/-- Expansion has no effect. If no name of a builtin is bound to a macro, seen from the scope in
    which a node is expanded, then all scopes are the same afterwards, however it ends and whatever
    the macros do that it runs; only the counter for fresh symbols may have gone up. -/
theorem expand_intact (budget : Nat) (hlinked : t.Linked)
    (hid : id < t.scopes.size)
    (hbuiltins : ∀ q : QName, (Builtin.ofName? q.name).isSome →
      ∀ params body, t.find? id q ≠ some (.macroFn params body)) (node : Node) :
    Intact t (((within budget).expand id node).after t) := by
  have houter : ∀ other ∈ (t.scope id).outer, other < t.scopes.size :=
    fun other hother => Nat.lt_trans (hlinked.outer_lt hid other hother) hid
  exact quiet_expand budget node t ⟨hid, hlinked.root_lt, houter, hbuiltins⟩

/-- The expansion of a call of a macro that makes a definition and a fresh symbol: the counter has
    gone up, the definition is gone with the scope of the macro. -/
theorem expand_intact_defining :
    let setup : Setup := ⟨1, fun _ => .missing⟩
    let defining : Node := .macroFn []
      [.define "x" (.bool true), .call (QName.plain "gensym") [.string "a"]]
    let t := (ScopeTree.root setup "user").update ScopeTree.rootId
      (·.enter (QName.plain "m") defining)
    let t' := ((within 9).expand ScopeTree.rootId (.list [.symbol (QName.plain "m")])).after t
    Intact t t' ∧ t'.counter = 1 ∧ t'.scopes.size = 2 := by
  intro setup defining t t'
  have hlinked : t.Linked := (ScopeTree.linked_root setup "user").update _ fun _ => rfl
  refine ⟨expand_intact _ hlinked hlinked.root_lt ?_ _, rfl, rfl⟩
  intro q hq params body hfound
  by_cases hname : q.name = "m"
  · rw [hname] at hq
    cases hq
  · have hholds : (Scope.root setup "user").Holds fun node => node = .nil ∨ ∃ b, node = .bool b :=
      Scope.holds_root setup "user" (.inl rfl) fun b => .inr ⟨b, rfl⟩
    have hinnermost : t.innermost? ScopeTree.rootId q = (Scope.root setup "user").lookup q := by
      show List.findSome? (·.lookup q)
        [(Scope.root setup "user").enter (QName.plain "m") defining] = _
      rw [List.findSome?_singleton, Scope.lookup_enter_of_ne _ _ hname]
    unfold ScopeTree.find? at hfound
    rw [hinnermost] at hfound
    cases hlookup : (Scope.root setup "user").lookup q with
    | none => simp [hlookup] at hfound
    | some value =>
      rw [hlookup] at hfound
      rcases hholds.lookup hlookup with rfl | ⟨b, rfl⟩
      · cases hfound
      · cases hfound

/-! ## Calls of builtins -/

/-- Runs only add to the journal. -/
def journalInvariant (length : Nat) : Invariant where
  toDiscipline := .free
  holds _ t := length ≤ t.journal.length
  record _ _ h := Nat.le_succ_of_le h
  enter _ _ _ h := h
  switchTo _ h := h
  issue _ h := ⟨Nat.le_succ_of_le h, trivial⟩
  inside _ h := h
  outside _ h _ := h
  find _ _ := trivial
  current _ := trivial

theorem length_journal_le_run (budget : Nat) (id : ScopeId) (node : Node)
    (t : ScopeTree) {value : Node} {t' : ScopeTree}
    (h : (within budget).run id node t = .ok value t') :
    t.journal.length ≤ t'.journal.length := by
  let I := journalInvariant t.journal.length
  have hobeys : I.law.Obeys id id I.node ((within budget).run id node) _ :=
    (I.agree_within budget).run trivial
  have hkeeps := Invariant.keeps_of_obeys hobeys t (Nat.le_refl _)
  rw [h] at hkeeps
  exact hkeeps.2.2

/-- Only lists are expanded, and of these not the empty one. -/
theorem expand_of_not_list {budget : Nat} {node : Node}
    (h : ∀ first rest, node ≠ .list (first :: rest)) :
    (within (budget + 1)).expand id node = pure node := by
  show Eval.expandNode (within budget) id node = pure node
  unfold Eval.expandNode
  split
  · exact absurd rfl (h _ _)
  · exact absurd rfl (h _ _)
  · rfl

/-- Expansion finds out what the head of a call is bound to after it has expanded the arguments. -/
theorem expand_call_eq (budget : Nat) {head : QName}
    (hspecial : SpecialForm.ofName? head.name = none) {args values : List Node} {t t₁ : ScopeTree}
    (hargs : args.mapM ((within budget).expand id) t = .ok values t₁) :
    (within (budget + 1)).expand id (.list (.symbol head :: args)) t
      = (match t₁.find? id head with
        | some (.macroFn ..) => do
          Eval.record (.expanding (.call head values))
          (within budget).run id (.call head values)
        | _ => pure (.call head values) : Eval Node) t₁ := by
  show Eval.expandNode (within budget) id (.list (.symbol head :: args)) t = _
  rw [Eval.expandNode, hspecial]
  show (args.mapM ((within budget).expand id) >>= fun values => _) t = _
  simp only [Bind.bind, EStateM.bind, hargs]
  rfl

/-- A head that is not bound to a macro makes a call. -/
theorem expand_call_of_plain (budget : Nat) {head : QName}
    (hspecial : SpecialForm.ofName? head.name = none) {args values : List Node} {t t₁ : ScopeTree}
    (hargs : args.mapM ((within budget).expand id) t = .ok values t₁)
    (hplain : ∀ params body, t₁.find? id head ≠ some (.macroFn params body)) :
    (within (budget + 1)).expand id (.list (.symbol head :: args)) t
      = .ok (.call head values) t₁ := by
  rw [expand_call_eq budget hspecial hargs]
  exact Eval.keepCall hplain (within budget) values

/-- A list headed by the name of a builtin becomes a call of the builtin, with its arguments
    expanded and without anything being evaluated, exactly if the name is not bound to a macro by
    then. The evaluation of such a call does not ask what the name is bound to. -/
theorem expand_builtin_iff (budget : Nat) {builtin : Builtin} {head : QName}
    (hbuiltin : Builtin.ofName? head.name = some builtin)
    (hspecial : SpecialForm.ofName? head.name = none) {args values : List Node} {t t₁ : ScopeTree}
    (hargs : args.mapM ((within budget).expand id) t = .ok values t₁) :
    let p := within (budget + 1)
    (p.expand id (.list (.symbol head :: args)) t = .ok (.call head values) t₁ ↔
      ∀ params body, t₁.find? id head ≠ some (.macroFn params body)) ∧
    p.evaluate id (.call head values)
      = Eval.runBuiltin (within budget) id builtin head values := by
  intro p
  constructor
  · constructor
    · intro hrun params body hfound
      rw [expand_call_eq budget hspecial hargs, hfound] at hrun
      -- The call is noted in the journal before it is carried out.
      have hlength := length_journal_le_run budget id (.call head values)
        (t₁.record (.expanding (.call head values))) hrun
      exact absurd hlength (Nat.not_succ_le_self _)
    · exact expand_call_of_plain budget hspecial hargs
  · show Eval.evaluateNode (within budget) id (.call head values) = _
    rw [Eval.evaluateNode, hbuiltin]

/-- A function that goes by the name of a builtin does not get in its way. -/
theorem expand_builtin_iff_function :
    let setup : Setup := ⟨1, fun _ => .missing⟩
    let t := (ScopeTree.root setup "user").update ScopeTree.rootId
      (·.enter (QName.plain "if") (.fn [] [.string "a"]))
    let args : List Node := [.symbol (QName.plain "x"), .string "a", .string "b"]
    (within 9).expand ScopeTree.rootId (.list (.symbol (QName.plain "if") :: args)) t
      = .ok (.call (QName.plain "if") args) t := by
  intro setup t args
  have hargs : args.mapM ((within 8).expand ScopeTree.rootId) t = .ok args t := rfl
  have hbuiltin : Builtin.ofName? (QName.plain "if").name = some .cond := rfl
  refine (expand_builtin_iff _ hbuiltin rfl hargs).1.2 ?_
  intro params body hfound
  cases hfound

/-- A macro does: expansion carries out the builtin, so a condition is evaluated before it is
    known. The arguments alone are expanded without a fault. -/
theorem expand_builtin_macro :
    let setup : Setup := ⟨1, fun _ => .missing⟩
    let t := (ScopeTree.root setup "user").update ScopeTree.rootId
      (·.enter (QName.plain "if") (.macroFn [] [.string "a"]))
    let args : List Node := [.symbol (QName.plain "x"), .string "a", .string "b"]
    args.mapM ((within 8).expand ScopeTree.rootId) t = .ok args t ∧
    ∃ t', (within 9).expand ScopeTree.rootId (.list (.symbol (QName.plain "if") :: args)) t
      = .error (.unresolved "x") t' :=
  ⟨rfl, _, rfl⟩

end Passes

end Lisplet
