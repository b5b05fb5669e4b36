import Lisplet.Proofs.Law.Passes
import Lisplet.Proofs.Reading

set_option autoImplicit false

/-! # Well-formed nodes

Code is data here: functions, macros and `let` forms travel through tables, templates and macros
like any other node, and binding takes the names of their parameters on trust. What it relies on is
`Node.isWellFormed`. -/

namespace Lisplet

namespace Node

/-! ## Well-formed nodes -/

def isSymbol : Node → Bool
  | .symbol _ => true
  | _ => false

/-- Names and expressions in turn: an even number of nodes with a symbol in front of each pair. -/
def isAlternating (bindings : List Node) : Bool :=
  bindings.length % 2 == 0 && (pairs bindings).all (·.1.isSymbol)

mutual

/-- Whether, everywhere inside the node, parameters are symbols and bindings are names and
    expressions in turn. -/
def isWellFormed : Node → Bool
  | .list items => areWellFormed items
  | .vec items => areWellFormed items
  | .letIn bindings body => isAlternating bindings && areWellFormed bindings && areWellFormed body
  | .fn params body => params.all isSymbol && areWellFormed body
  | .macroFn params body => params.all isSymbol && areWellFormed body
  | .define _ expr => isWellFormed expr
  | .call _ args => areWellFormed args
  | _ => true

/-- Whether some nodes are well-formed, all of them. -/
def areWellFormed : List Node → Bool
  | [] => true
  | node :: rest => isWellFormed node && areWellFormed rest

end

theorem areWellFormed_iff (items : List Node) :
    areWellFormed items ↔ ∀ item ∈ items, item.isWellFormed := by
  induction items with
  | nil => simp [areWellFormed]
  | cons item items ih => simp [areWellFormed, ih]

theorem isWellFormed_letIn (bindings body : List Node) :
    (Node.letIn bindings body).isWellFormed ↔ isAlternating bindings ∧
      (∀ binding ∈ bindings, binding.isWellFormed) ∧ ∀ form ∈ body, form.isWellFormed := by
  simp [isWellFormed, areWellFormed_iff, and_assoc]

theorem isWellFormed_fn (params body : List Node) :
    (Node.fn params body).isWellFormed ↔ (∀ param ∈ params, param.isSymbol) ∧
      ∀ form ∈ body, form.isWellFormed := by
  simp [isWellFormed, areWellFormed_iff]

theorem exists_of_isSymbol {node : Node} (h : node.isSymbol) : ∃ q, node = .symbol q := by
  cases node <;> simp_all [isSymbol]

theorem isAlternating_cons (q : QName) (expr : Node) (rest : List Node) :
    isAlternating (.symbol q :: expr :: rest) = isAlternating rest := by
  simp only [isAlternating, pairs, isSymbol, List.length_cons, List.all_cons, Bool.true_and,
    Nat.add_assoc, Nat.add_mod_right]

theorem isSymbol_of_mem_pairs {bindings : List Node} (h : isAlternating bindings) :
    ∀ binding ∈ pairs bindings, binding.1.isSymbol := by
  simp only [isAlternating, Bool.and_eq_true, List.all_eq_true] at h
  exact h.2

/-- Bindings that were made pair by pair are names and expressions in turn. -/
theorem isAlternating_flatten {bindings : List (List Node)}
    (h : ∀ binding ∈ bindings, ∃ q expr, binding = [.symbol q, expr]) :
    isAlternating bindings.flatten := by
  induction bindings with
  | nil => rfl
  | cons binding bindings ih =>
    obtain ⟨⟨q, expr, rfl⟩, hrest⟩ := List.forall_mem_cons.1 h
    rw [List.flatten_cons, List.cons_append, List.cons_append, List.nil_append,
      isAlternating_cons]
    exact ih hrest

/-- Well-formedness passes from a node to its parts and back. -/
theorem hereditary_isWellFormed : Hereditary fun node => node.isWellFormed where
  number _ := rfl
  bool _ := rfl
  list items := by rw [isWellFormed, areWellFormed_iff]
  vec items := by rw [isWellFormed, areWellFormed_iff]
  call head args := by simp [isWellFormed, areWellFormed_iff]
  define name expr := by rw [isWellFormed]
  fn_of params body _ hbody := by
    refine (isWellFormed_fn _ _).2 ⟨?_, hbody⟩
    intro param hparam
    obtain ⟨q, _, rfl⟩ := List.mem_map.1 hparam
    rfl
  fn_body params body h := ((isWellFormed_fn params body).1 h).2
  macroFn params body := by rw [isWellFormed, isWellFormed]
  letIn_of bindings body hbindings hbody := by
    refine (isWellFormed_letIn _ _).2 ⟨?_, ?_, hbody⟩
    · refine isAlternating_flatten ?_
      intro binding hbinding
      obtain ⟨q, expr, heq, _⟩ := hbindings binding hbinding
      exact ⟨q, expr, heq⟩
    · intro node hnode
      obtain ⟨binding, hbinding, hmem⟩ := List.mem_flatten.1 hnode
      obtain ⟨q, expr, rfl, hq, hexpr⟩ := hbindings binding hbinding
      rcases List.mem_cons.1 hmem with rfl | hmem
      · exact hq
      · exact List.mem_singleton.1 hmem ▸ hexpr
  letIn_bindings bindings body h binding hbinding :=
    (forall_mem_pairs ((isWellFormed_letIn bindings body).1 h).2.1 binding hbinding).2
  letIn_body bindings body h := ((isWellFormed_letIn bindings body).1 h).2.2
  quoting _ := rfl
  qualify _ _ _ := rfl
  aliasTo _ _ _ := rfl

end Node

/-- Everything that is read is well-formed. -/
theorem Form.isWellFormed_of_mem_readAll {text : String} {form : Node}
    (h : .ok form ∈ readAll text) : form.isWellFormed := by
  have hbuilt : BuiltFrom (fun _ => True) fun node => node.isWellFormed :=
    { number := fun _ _ => rfl
      string := fun _ _ => rfl
      symbol := fun _ _ => rfl
      keyword := fun _ _ => rfl
      mark := fun _ => rfl
      list := fun items => (Node.hereditary_isWellFormed.list items).2
      vec := fun items => (Node.hereditary_isWellFormed.vec items).2 }
  exact (fits_of_mem_readFrom hbuilt (fun _ _ => trivial) sound_nil h).1

/-- A fault that is no internal failure. -/
def Fault.isDeclared : Fault → Bool
  | .nameless _ => false
  | _ => true

theorem Fault.isDeclared_of_ne {fault : Fault} (h : ∀ target, fault ≠ .nameless target) :
    fault.isDeclared := by
  cases fault with
  | nameless target => exact absurd rfl (h target)
  | _ => rfl

/-- Computing with well-formed nodes, nothing without a name is ever bound. -/
def wellFormedDiscipline : Discipline where
  node node := node.isWellFormed
  fault fault := fault.isDeclared
  hereditary := Node.hereditary_isWellFormed
  reading _ _ h := Form.isWellFormed_of_mem_readAll h
  fault_of_ne _ h := Fault.isDeclared_of_ne h
  fault_param params body h param hparam hname := by
    have hsymbols := ((Node.isWellFormed_fn params body).1 h).1
    obtain ⟨q, rfl⟩ := Node.exists_of_isSymbol (hsymbols param hparam)
    simp [Node.bindingName?] at hname
  fault_binding bindings body h binding hbinding hname := by
    have hsymbols := Node.isSymbol_of_mem_pairs ((Node.isWellFormed_letIn bindings body).1 h).1
    obtain ⟨q, hq⟩ := Node.exists_of_isSymbol (hsymbols binding hbinding)
    rw [hq] at hname
    simp [Node.bindingName?] at hname

end Lisplet
