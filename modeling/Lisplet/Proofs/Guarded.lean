import Lisplet.Proofs.Chain
import Lisplet.Proofs.WellFormed

set_option autoImplicit false

/-! # Guarded code

Functions, macros and `let` forms run in scopes of their own, and the depth limit guards their
nesting. The builtins `eval`, `apply` and `load` run code in the scope they are called in, where the
limit does not see it. Code that does not mention them is guarded. No run can make their names up:
fresh symbols end in a digit, and what `in-ns` gives is the name of a namespace, which was a symbol
before or comes from opening a scope. So guarded code stays guarded (`guardedInvariant`). -/

namespace Lisplet

/-! ## Guarded names and nodes -/

/-- Whether a name is none of a builtin that runs code in place. -/
def isGuardedName (name : String) : Bool := name ∉ ["eval", "apply", "load"]

theorem isGuardedName_iff (name : String) :
    isGuardedName name ↔ name ≠ "eval" ∧ name ≠ "apply" ∧ name ≠ "load" := by
  simp [isGuardedName]

theorem Builtin.not_mem_of_isGuardedName {name : String} {builtin : Builtin}
    (h : ofName? name = some builtin) (hname : isGuardedName name) :
    builtin ∉ [.eval, .apply, .load] := by
  rw [isGuardedName_iff] at hname
  unfold ofName? at h
  split at h <;> cases h <;> simp_all

/-- The namespaces of scopes that are opened have long names. -/
theorem isGuardedName_chained (ns : String) : isGuardedName (ns ++ "_chained") := by
  have hlength : 8 ≤ (ns ++ "_chained").length := by
    rw [String.length_append]
    exact Nat.le_add_left _ _
  rw [isGuardedName_iff]
  refine ⟨?_, ?_, ?_⟩ <;>
  · intro h
    rw [h] at hlength
    exact absurd hlength (by decide)

/-- Fresh symbols end in a digit. -/
theorem isGuardedName_fresh (stem : String) (number : Nat) :
    isGuardedName (stem ++ toString number) := by
  have hlast : ∀ c, (stem ++ toString number).toList.getLast? = some c → c.isDigit := by
    intro c hc
    rw [String.toList_append, Nat.toString_eq_ofList_toDigits, String.toList_ofList,
      List.getLast?_append, List.getLast?_eq_some_getLast Nat.toDigits_ne_nil, Option.some_or] at hc
    obtain rfl := Option.some.inj hc
    exact Nat.isDigit_of_mem_toDigits (by decide) (by decide) (List.getLast_mem _)
  rw [isGuardedName_iff]
  refine ⟨?_, ?_, ?_⟩ <;>
  · intro h
    rw [h] at hlast
    exact absurd (hlast _ rfl) (by decide)

namespace Node

mutual

/-- Whether all symbols and calls in a node have guarded names. -/
def isGuarded : Node → Bool
  | .symbol q => isGuardedName q.name
  | .list items => areGuarded items
  | .vec items => areGuarded items
  | .letIn bindings body => areGuarded bindings && areGuarded body
  | .fn params body => areGuarded params && areGuarded body
  | .macroFn params body => areGuarded params && areGuarded body
  | .define _ expr => isGuarded expr
  | .call head args => isGuardedName head.name && areGuarded args
  | _ => true

/-- Whether some nodes are guarded, all of them. -/
def areGuarded : List Node → Bool
  | [] => true
  | node :: rest => isGuarded node && areGuarded rest

end

theorem areGuarded_iff (items : List Node) :
    areGuarded items ↔ ∀ item ∈ items, item.isGuarded := by
  induction items with
  | nil => simp [areGuarded]
  | cons item items ih => simp [areGuarded, ih]

theorem isGuarded_letIn (bindings body : List Node) :
    (Node.letIn bindings body).isGuarded ↔
      (∀ binding ∈ bindings, binding.isGuarded) ∧ ∀ form ∈ body, form.isGuarded := by
  simp [isGuarded, areGuarded_iff]

theorem isGuarded_fn (params body : List Node) :
    (Node.fn params body).isGuarded ↔
      (∀ param ∈ params, param.isGuarded) ∧ ∀ form ∈ body, form.isGuarded := by
  simp [isGuarded, areGuarded_iff]

theorem hereditary_isGuarded : Hereditary fun node => node.isGuarded where
  number _ := rfl
  bool _ := rfl
  list items := by rw [isGuarded, areGuarded_iff]
  vec items := by rw [isGuarded, areGuarded_iff]
  call head args := by simp [isGuarded, areGuarded_iff]
  define name expr := by rw [isGuarded]
  fn_of params body hparams hbody := by
    refine (isGuarded_fn _ _).2 ⟨?_, hbody⟩
    intro param hparam
    obtain ⟨q, hq, rfl⟩ := List.mem_map.1 hparam
    exact hparams q hq
  fn_body params body h := ((isGuarded_fn params body).1 h).2
  macroFn params body := by rw [isGuarded, isGuarded]
  letIn_of bindings body hbindings hbody := by
    refine (isGuarded_letIn _ _).2 ⟨?_, hbody⟩
    intro node hnode
    obtain ⟨binding, hbinding, hmem⟩ := List.mem_flatten.1 hnode
    obtain ⟨q, expr, rfl, hq, hexpr⟩ := hbindings binding hbinding
    rcases List.mem_cons.1 hmem with rfl | hmem
    · exact hq
    · exact List.mem_singleton.1 hmem ▸ hexpr
  letIn_bindings bindings body h binding hbinding :=
    (forall_mem_pairs ((isGuarded_letIn bindings body).1 h).1 binding hbinding).2
  letIn_body bindings body h := ((isGuarded_letIn bindings body).1 h).2
  quoting mark := by cases mark <;> rfl
  qualify ns q h := by
    obtain ⟨_ | _, _⟩ := q <;> exact h
  aliasTo _ _ _ := rfl

/-- A node that is well-formed and guarded. -/
def IsTame (node : Node) : Prop := node.isWellFormed ∧ node.isGuarded

theorem hereditary_isTame : Hereditary IsTame := hereditary_isWellFormed.and hereditary_isGuarded

theorem isTame_symbol (q : QName) : (Node.symbol q).IsTame ↔ isGuardedName q.name :=
  ⟨fun h => h.2, fun h => ⟨rfl, h⟩⟩

end Node

/-! ## Runs of guarded code -/

/-- Computing with guarded nodes, no file is ever loaded. -/
def guardedDiscipline : Discipline where
  node := Node.IsTame
  fault fault := fault.isDeclared
  hereditary := Node.hereditary_isTame
  reading {head _ _} hhead hload _ := by
    rw [Node.isTame_symbol, hload] at hhead
    cases hhead
  fault_of_ne := wellFormedDiscipline.fault_of_ne
  fault_param params body h := wellFormedDiscipline.fault_param params body h.1
  fault_binding bindings body h := wellFormedDiscipline.fault_binding bindings body h.1

/-- The chain of the scope `id` is in order, and the current namespace has a guarded name. -/
structure ScopeTree.Guarded (base : Nat) (id : ScopeId) (t : ScopeTree) : Prop where
  inOrder : t.InOrder Node.IsTame base id
  current : isGuardedName (t.scope id).current

namespace ScopeTree.Guarded

variable {base : Nat} {id : ScopeId} {t t' : ScopeTree}

theorem of_scopes_eq (h : t.Guarded base id) (hscopes : t'.scopes = t.scopes) :
    t'.Guarded base id := by
  refine ⟨h.inOrder.of_scopes_eq hscopes, ?_⟩
  unfold scope
  rw [hscopes]
  exact h.current

theorem enter (h : t.Guarded base id) (q : QName) {value : Node} (hvalue : value.IsTame) :
    (t.update id (·.enter q value)).Guarded base id := by
  refine ⟨h.inOrder.update (fun _ => rfl) fun _ hs => hs.enter q hvalue, ?_⟩
  rw [t.scope_update_self _ h.inOrder.id_lt]
  exact h.current

theorem switchTo (h : t.Guarded base id) {ns : String} (hns : isGuardedName ns) :
    (t.update id (·.switchTo ns)).Guarded base id := by
  refine ⟨h.inOrder.update (fun _ => rfl) fun _ hs => hs.switchTo ns, ?_⟩
  rw [t.scope_update_self _ h.inOrder.id_lt]
  exact hns

theorem addInside (h : t.Guarded base id) : (t.addInside id).Guarded base t.scopes.size := by
  refine ⟨h.inOrder.addInside, ?_⟩
  rw [scope_addInside_self]
  exact isGuardedName_chained _

theorem outside (h : t.Guarded base id) (hinner : t'.Guarded base t.scopes.size)
    (hframe : Frame t.scopes.size (t.addInside id) t') : t'.Guarded base id := by
  have hid := h.inOrder.id_lt
  refine ⟨hinner.inOrder.outside hid hframe, ?_⟩
  rw [hframe.intact_of_addInside.scope_eq id hid]
  exact h.current

end ScopeTree.Guarded

/-- Runs of guarded code keep everything guarded that they can come across. -/
def guardedInvariant (base : Nat) : Invariant where
  toDiscipline := guardedDiscipline
  holds := ScopeTree.Guarded base
  record _ _ h := h.of_scopes_eq rfl
  enter name _ hvalue h := h.enter (QName.plain name) hvalue
  switchTo hq h := h.switchTo ((Node.isTame_symbol _).1 hq)
  issue stem h := ⟨h.of_scopes_eq rfl, (Node.isTame_symbol _).2 (isGuardedName_fresh stem _)⟩
  inside _ h := h.addInside
  outside h hinner hframe := h.outside hinner hframe
  find h hvalue := h.inOrder.chain.find? h.inOrder.linked h.inOrder.id_lt hvalue
  current h := (Node.isTame_symbol _).2 h.current

end Lisplet
