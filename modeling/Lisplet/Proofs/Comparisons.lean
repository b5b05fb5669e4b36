import Mathlib.Data.List.Chain
import Lisplet.Proofs.Law.Frame

set_option autoImplicit false

/-! # Chains of comparisons

The builtins `<`, `>` and `=` compare each of their arguments with the one before it, and a call of
one of them is a conjunction that is evaluated no further than needed. `Chained` says this without
the loop: either all arguments are numbers in order, or there is a first argument that breaks the
chain, and then nothing is evaluated after it. A call ends in exactly this way
(`Passes.evaluate_comparison`). -/

namespace Lisplet

/-- The builtins that compare, with their order. -/
def comparisons : List (String × (Double → Double → Bool)) :=
  [("<", Double.lt), (">", Double.gt), ("=", Double.eqv)]

/-! ## How a chain ends -/

section

variable (p : Passes) (id : ScopeId) (inOrder : Double → Double → Bool)

/-- Evaluated from left to right, starting in `t`, the arguments give these numbers and lead to `t'`;
    and each of the numbers is in order with the one before it. -/
structure InOrder (args : List Node) (t : ScopeTree) (numbers : List Double) (t' : ScopeTree) :
    Prop where
  values : args.mapM (p.evaluate id) t = .ok (numbers.map .number) t'
  chain : numbers.IsChain fun a b => inOrder a b

/-- The arguments in front of `arg` are in order, and `t'` is the tree in which `arg` is next. -/
def ComesTo (args : List Node) (t : ScopeTree) (numbers : List Double) (arg : Node)
    (t' : ScopeTree) : Prop :=
  ∃ front rest, args = front ++ arg :: rest ∧ InOrder p id inOrder front t numbers t'

/-- How a chain of comparisons ends. -/
inductive Chained (args : List Node) (t : ScopeTree) :
    EStateM.Result Fault ScopeTree Node → Prop where
  | unbroken {numbers : List Double} {t' : ScopeTree} :
      InOrder p id inOrder args t numbers t' → Chained args t (.ok (.bool true) t')
  | outOfOrder {numbers : List Double} {arg : Node} {t₁ t' : ScopeTree} {previous value : Double} :
      ComesTo p id inOrder args t numbers arg t₁ → p.evaluate id arg t₁ = .ok (.number value) t' →
      numbers.getLast? = some previous → inOrder previous value = false →
      Chained args t (.ok (.bool false) t')
  | notNumber {numbers : List Double} {arg value : Node} {t₁ t' : ScopeTree} :
      ComesTo p id inOrder args t numbers arg t₁ → p.evaluate id arg t₁ = .ok value t' →
      (∀ d, value ≠ .number d) → Chained args t (.error (.wrongType value) t')
  | fails {numbers : List Double} {arg : Node} {fault : Fault} {t₁ t' : ScopeTree} :
      ComesTo p id inOrder args t numbers arg t₁ → p.evaluate id arg t₁ = .error fault t' →
      Chained args t (.error fault t')

end

section

variable {p : Passes} {id : ScopeId} {inOrder : Double → Double → Bool} {args front : List Node}
  {arg : Node} {t t' : ScopeTree} {numbers : List Double}

theorem inOrder_nil (t : ScopeTree) : InOrder p id inOrder [] t [] t := ⟨rfl, .nil⟩

/-- One more argument is in order if its value is so with the last one before. -/
theorem inOrder_concat_iff :
    InOrder p id inOrder (front ++ [arg]) t numbers t' ↔
      ∃ before value t₁, numbers = before ++ [value] ∧ InOrder p id inOrder front t before t₁ ∧
        p.evaluate id arg t₁ = .ok (.number value) t' ∧
        ∀ previous ∈ before.getLast?, inOrder previous value := by
  have hmapM : (front ++ [arg]).mapM (p.evaluate id) t = .ok (numbers.map .number) t' ↔
      ∃ before value t₁, numbers = before ++ [value] ∧
        front.mapM (p.evaluate id) t = .ok (before.map .number) t₁ ∧
        p.evaluate id arg t₁ = .ok (.number value) t' := by
    simp only [List.mapM_append, List.mapM_cons, List.mapM_nil, bind_assoc, pure_bind,
      Eval.bind_eq_ok_iff]
    constructor
    · rintro ⟨values, t₁, hvalues, value, t₂, hvalue, hend⟩
      obtain ⟨hnumbers, rfl⟩ := EStateM.Result.ok.inj hend
      obtain ⟨before, after, rfl, hbefore, hafter⟩ := List.map_eq_append_iff.1 hnumbers.symm
      obtain ⟨d, rfl, rfl⟩ := List.map_eq_singleton_iff.1 hafter
      exact ⟨before, d, t₁, rfl, by rw [hvalues, hbefore], hvalue⟩
    · rintro ⟨before, value, t₁, rfl, hbefore, hvalue⟩
      refine ⟨_, t₁, hbefore, _, t', hvalue, ?_⟩
      simp only [List.map_append, List.map_cons, List.map_nil]
      rfl
  constructor
  · rintro ⟨hvalues, hchain⟩
    obtain ⟨before, value, t₁, rfl, hbefore, hvalue⟩ := hmapM.1 hvalues
    obtain ⟨hfront, _, hlast⟩ := List.isChain_append.1 hchain
    exact ⟨before, value, t₁, rfl, ⟨hbefore, hfront⟩, hvalue, fun last h => hlast last h value rfl⟩
  · rintro ⟨before, value, t₁, rfl, hbefore, hvalue, hlast⟩
    refine ⟨hmapM.2 ⟨before, value, t₁, rfl, hbefore.values, hvalue⟩, ?_⟩
    refine hbefore.chain.append (.singleton value) fun last h other hother => ?_
    rw [← Option.some.inj hother]
    exact hlast last h

theorem ComesTo.append (h : ComesTo p id inOrder args t numbers arg t') (more : List Node) :
    ComesTo p id inOrder (args ++ more) t numbers arg t' := by
  obtain ⟨front, rest, rfl, hfront⟩ := h
  exact ⟨front, rest ++ more, by simp, hfront⟩

/-- Every chain ends in some way. -/
theorem exists_chained (args : List Node) (t : ScopeTree) :
    ∃ outcome, Chained p id inOrder args t outcome := by
  -- An argument is added at the end, where it only matters if those in front of it are in order.
  induction args using List.reverseRecOn with
  | nil => exact ⟨_, .unbroken (inOrder_nil t)⟩
  | append_singleton args arg ih =>
    obtain ⟨outcome, houtcome⟩ := ih
    cases houtcome with
    | @unbroken numbers t₁ h =>
      have hnext : ComesTo p id inOrder (args ++ [arg]) t numbers arg t₁ := ⟨args, [], rfl, h⟩
      cases hvalue : p.evaluate id arg t₁ with
      | error fault t' => exact ⟨_, .fails hnext hvalue⟩
      | ok value t' =>
        by_cases hnumber : ∃ d, value = .number d
        · obtain ⟨d, rfl⟩ := hnumber
          by_cases hlast : ∀ previous ∈ numbers.getLast?, inOrder previous d
          · exact ⟨_, .unbroken (inOrder_concat_iff.2 ⟨numbers, d, t₁, rfl, h, hvalue, hlast⟩)⟩
          · simp only [Option.mem_def, not_forall, Bool.not_eq_true] at hlast
            obtain ⟨previous, hprevious, hnot⟩ := hlast
            exact ⟨_, .outOfOrder hnext hvalue hprevious hnot⟩
        · exact ⟨_, .notNumber hnext hvalue (not_exists.1 hnumber)⟩
    | outOfOrder h hvalue hlast hnot => exact ⟨_, .outOfOrder (h.append _) hvalue hlast hnot⟩
    | notNumber h hvalue hnot => exact ⟨_, .notNumber (h.append _) hvalue hnot⟩
    | fails h hfault => exact ⟨_, .fails (h.append _) hfault⟩

end

/-! ## The loop -/

namespace Eval

variable {p : Passes} {id : ScopeId} {inOrder : Double → Double → Bool}

/-- The rest of a chain of comparisons behind the last value, if there is one already. -/
def compareRest (p : Passes) (id : ScopeId) (whole : Node) (inOrder : Double → Double → Bool) :
    Option Double → List Node → Eval Node
  | some previous => compareFrom p id inOrder previous
  | none => compareAll p id whole inOrder

/-- One turn of the loop: the next argument is evaluated and compared. -/
theorem compareRest_cons (whole : Node) (previous : Option Double) (arg : Node) (rest : List Node)
    (t : ScopeTree) :
    compareRest p id whole inOrder previous (arg :: rest) t
      = match p.evaluate id arg t with
        | .ok (.number value) t' =>
          if previous.all (inOrder · value) then compareRest p id whole inOrder (some value) rest t'
          else .ok (.bool false) t'
        | .ok value t' => .error (.wrongType value) t'
        | .error fault t' => .error fault t' := by
  cases previous with
  | none =>
    simp only [compareRest, compareAll, numberOf, Bind.bind, EStateM.bind]
    cases p.evaluate id arg t with
    | error fault t' => rfl
    | ok value t' => cases value <;> rfl
  | some previous =>
    simp only [compareRest, compareFrom, numberOf, Bind.bind, EStateM.bind, Option.all_some]
    cases p.evaluate id arg t with
    | error fault t' => rfl
    | ok value t' =>
      cases value with
      | number value =>
        show (if inOrder previous value then _ else pure (Node.bool false) : Eval Node) t'
          = if inOrder previous value then compareFrom p id inOrder value rest t'
            else .ok (.bool false) t'
        split <;> rfl
      | _ => rfl

/-- Behind arguments in order, the loop goes on with the last of their values. -/
theorem compareAll_of_inOrder {front : List Node} {t t' : ScopeTree} {numbers : List Double}
    (h : InOrder p id inOrder front t numbers t') (whole : Node) (rest : List Node) :
    compareAll p id whole inOrder (front ++ rest) t
      = compareRest p id whole inOrder numbers.getLast? rest t' := by
  induction front using List.reverseRecOn generalizing numbers t' rest with
  | nil =>
    obtain ⟨hvalues, _⟩ := h
    obtain ⟨hnumbers, rfl⟩ := EStateM.Result.ok.inj hvalues
    rw [List.map_eq_nil_iff.1 hnumbers.symm]
    rfl
  | append_singleton front arg ih =>
    obtain ⟨before, value, t₁, rfl, hfront, hvalue, hlast⟩ := inOrder_concat_iff.1 h
    have hall : before.getLast?.all (inOrder · value) := by
      cases hbefore : before.getLast? with
      | none => rfl
      | some previous => exact hlast previous hbefore
    rw [List.append_assoc, List.singleton_append, ih hfront, compareRest_cons, hvalue]
    simp [hall]

/-- A chain with at least one argument ends in exactly one way. -/
theorem compareAll_eq_iff {args : List Node} (hargs : args ≠ []) (whole : Node) {t : ScopeTree}
    {outcome : EStateM.Result Fault ScopeTree Node} :
    compareAll p id whole inOrder args t = outcome ↔ Chained p id inOrder args t outcome := by
  have heq {outcome : EStateM.Result Fault ScopeTree Node}
      (h : Chained p id inOrder args t outcome) :
      compareAll p id whole inOrder args t = outcome := by
    cases h with
    | @unbroken numbers t' h =>
      obtain ⟨front, arg, rfl⟩ := (List.eq_nil_or_concat' args).resolve_left hargs
      obtain ⟨before, value, _, rfl, _⟩ := inOrder_concat_iff.1 h
      rw [← List.append_nil (front ++ [arg]), compareAll_of_inOrder h, List.getLast?_concat]
      rfl
    | outOfOrder h hvalue hlast hnot =>
      obtain ⟨front, rest, rfl, hfront⟩ := h
      rw [compareAll_of_inOrder hfront, compareRest_cons, hvalue, hlast]
      simp [hnot]
    | @notNumber numbers arg value t₁ t' h hvalue hnot =>
      obtain ⟨front, rest, rfl, hfront⟩ := h
      rw [compareAll_of_inOrder hfront, compareRest_cons, hvalue]
      cases value with
      | number d => exact absurd rfl (hnot d)
      | _ => rfl
    | fails h hfault =>
      obtain ⟨front, rest, rfl, hfront⟩ := h
      rw [compareAll_of_inOrder hfront, compareRest_cons, hfault]
  constructor
  · rintro rfl
    obtain ⟨outcome, h⟩ := @exists_chained p id inOrder args t
    rwa [heq h]
  · exact heq

end Eval

namespace Passes

variable {id : ScopeId} {t : ScopeTree}

/-- A call of `<`, `>` or `=` with at least one argument is the conjunction over adjacent arguments.
    The arguments are evaluated from left to right in the scope of the call. The call is true exactly
    if all of them are numbers and each is in order with the one before it; and otherwise it ends with
    the first argument that fails, is no number or is out of order, in the tree that this argument
    leaves. -/
theorem evaluate_comparison (budget : Nat) {head : QName} {inOrder : Double → Double → Bool}
    (hhead : (head.name, inOrder) ∈ comparisons) {args : List Node} (hargs : args ≠ [])
    {outcome : EStateM.Result Fault ScopeTree Node} :
    (within (budget + 1)).evaluate id (.call head args) t = outcome ↔
      Chained (within budget) id inOrder args t outcome := by
  have hcall : (within (budget + 1)).evaluate id (.call head args)
      = Eval.compareAll (within budget) id (.call head args) inOrder args := by
    show Eval.evaluateNode (within budget) id (.call head args) = _
    simp only [comparisons, List.mem_cons, Prod.mk.injEq, List.not_mem_nil, or_false] at hhead
    rw [Eval.evaluateNode]
    rcases hhead with ⟨hname, rfl⟩ | ⟨hname, rfl⟩ | ⟨hname, rfl⟩ <;> rw [hname] <;> rfl
  rw [hcall]
  exact Eval.compareAll_eq_iff hargs _

/-- In `(< (def x 1) "a" (def y 1))` the second argument breaks the chain: the first definition has
    been made by then, and the other one is not made any more. -/
theorem evaluate_comparison_broken :
    let setup : Setup := ⟨1, fun _ => .missing⟩
    let p := within 9
    let define (name : String) : Node := .define name (.number .one)
    let args : List Node := [define "x", .string "a", define "y"]
    let t := ScopeTree.root setup "user"
    ∃ t', p.evaluate ScopeTree.rootId (.call (QName.plain "<") args) t
        = .error (.wrongType (.string "a")) t' ∧
      Chained (within 8) ScopeTree.rootId Double.lt args t
        (.error (.wrongType (.string "a")) t') ∧
      t'.find? ScopeTree.rootId (QName.plain "x") = some (.number .one) ∧
      t'.find? ScopeTree.rootId (QName.plain "y") = none := by
  intro setup p define args t
  obtain ⟨t', hrun⟩ : ∃ t', p.evaluate ScopeTree.rootId (.call (QName.plain "<") args) t
      = .error (.wrongType (.string "a")) t' := ⟨_, rfl⟩
  have hhead : ((QName.plain "<").name, Double.lt) ∈ comparisons := List.mem_cons_self
  refine ⟨t', hrun, (evaluate_comparison _ hhead (by simp [args])).1 hrun, ?_, ?_⟩
  · cases hrun
    rfl
  · cases hrun
    rfl

end Passes

end Lisplet
