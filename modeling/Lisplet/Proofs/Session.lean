import Lisplet.Interpreter
import Lisplet.Proofs.Law.Invariant

set_option autoImplicit false

/-! # Sessions

A session asks one interpreter for texts and files, one after the other, and goes on after a fault.
A law of the passes says what one answer is like (`Law.Agree.answer`), and an invariant of the
passes is one of whole sessions (`Invariant.session`). -/

namespace Lisplet

/-! ## Requests and answers -/

/-- What an interpreter can be asked for. -/
inductive Request where
  | text (source : String)
  | file (path : String)
deriving DecidableEq, Inhabited

/-- An outcome, and the interpreter after it. -/
abbrev Answer := Except Fault Node × Interpreter

namespace Interpreter

def answer (i : Interpreter) : Request → Answer
  | .text source => i.eval source
  | .file path => i.evalFile path

/-- The answers to requests that are made one after the other. -/
def session (i : Interpreter) : List Request → List Answer
  | [] => []
  | request :: rest => i.answer request :: (i.answer request).2.session rest

end Interpreter

/-- What a request makes the passes do in the root scope. -/
def Passes.serve (p : Passes) : Request → Eval Node
  | .text source => p.runReadings ScopeTree.rootId .misread .nil (Form.readAll source)
  | .file path => p.run ScopeTree.rootId (.call (QName.plain "load") [.string path])

theorem Interpreter.answer_eq (i : Interpreter) (request : Request) :
    i.answer request = i.perform (i.passes.serve request) := by
  cases request <;> rfl

theorem Interpreter.tree_answer (i : Interpreter) (request : Request) :
    (i.answer request).2.tree = (i.passes.serve request).after i.tree := by
  rw [i.answer_eq]
  unfold perform Eval.after EStateM.run
  cases i.passes.serve request i.tree <;> rfl

/-! ## Answers under a law -/

/-- A discipline under which every text and every file may be asked for. -/
structure Discipline.Open (D : Discipline) : Prop where
  text : ∀ source form, .ok form ∈ Form.readAll source → D.node form
  file : ∀ path, D.node (.call (QName.plain "load") [.string path])

theorem Discipline.open_free : Discipline.free.Open := ⟨fun _ _ _ => trivial, fun _ => trivial⟩

/-- An outcome that the discipline allows. -/
def Discipline.Allows (D : Discipline) : Except Fault Node → Prop
  | .ok value => D.node value
  | .error fault => D.fault fault

/-- Requests obey every law, if they are allowed at all. -/
theorem Law.Agree.serve {L : Law} {p q : Passes} (h : L.Agree p q) (hopen : L.toDiscipline.Open)
    (request : Request) :
    L.Obeys ScopeTree.rootId ScopeTree.rootId L.node (p.serve request) (q.serve request) := by
  cases request with
  | text source => exact h.runReadings (by simp) good_nil (hopen.text source)
  | file path => exact h.run (hopen.file path)

/-- The answer on the left is as the law says, and unless it escapes, the one on the right has the
    same outcome and leaves the trees as the law says. -/
theorem Law.Agree.answer {L : Law} {i j : Interpreter} (h : L.Agree i.passes j.passes)
    (hopen : L.toDiscipline.Open)
    (hinv : L.inv ScopeTree.rootId ScopeTree.rootId i.tree j.tree) (request : Request) :
    L.toDiscipline.Allows (i.answer request).1 ∧
      ((∃ fault, (i.answer request).1 = .error fault ∧ L.escape fault) ∨
        (j.answer request).1 = (i.answer request).1 ∧
          L.inv ScopeTree.rootId ScopeTree.rootId (i.answer request).2.tree
            (j.answer request).2.tree) := by
  have hserve := h.serve hopen request i.tree j.tree hinv
  rw [i.answer_eq, j.answer_eq]
  unfold Interpreter.perform EStateM.run
  cases hleft : i.passes.serve request i.tree with
  | ok value t =>
    rw [hleft] at hserve
    obtain ⟨_, hvalue, t', hright, _, ht⟩ := hserve
    rw [hright]
    exact ⟨hvalue, .inr ⟨rfl, ht⟩⟩
  | error fault t =>
    rw [hleft] at hserve
    obtain ⟨_, hfault, hescape | ⟨t', hright, _, ht⟩⟩ := hserve
    · exact ⟨hfault, .inl ⟨fault, rfl, hescape⟩⟩
    · rw [hright]
      exact ⟨hfault, .inr ⟨rfl, ht⟩⟩

/-! ## Sessions under an invariant -/

theorem Invariant.answer {I : Invariant} (hopen : I.toDiscipline.Open) {i : Interpreter}
    (h : I.holds ScopeTree.rootId i.tree) (request : Request) :
    I.toDiscipline.Allows (i.answer request).1 ∧
      I.holds ScopeTree.rootId (i.answer request).2.tree := by
  have hagree : I.law.Agree i.passes i.passes := I.agree_within Interpreter.budget
  obtain ⟨hallows, ⟨_, _, hescape⟩ | ⟨_, _, _, ht⟩⟩ := hagree.answer hopen ⟨rfl, rfl, h⟩ request
  · exact hescape.elim
  · exact ⟨hallows, ht⟩

/-- An invariant holds after every step of a session. -/
theorem Invariant.session {I : Invariant} (hopen : I.toDiscipline.Open) (i : Interpreter)
    (h : I.holds ScopeTree.rootId i.tree) (requests : List Request) :
    ∀ answer ∈ i.session requests,
      I.toDiscipline.Allows answer.1 ∧ I.holds ScopeTree.rootId answer.2.tree := by
  induction requests generalizing i with
  | nil => simp [Interpreter.session]
  | cons request requests ih =>
    have hfirst := I.answer hopen h request
    intro answer hanswer
    rcases List.mem_cons.1 hanswer with rfl | hanswer
    · exact hfirst
    · exact ih _ hfirst.2 answer hanswer

/-- An answer leaves the setup of the root as it is. -/
theorem Interpreter.setup_answer {i : Interpreter} (hroot : ScopeTree.rootId < i.tree.scopes.size)
    (request : Request) : (i.answer request).2.setup = i.setup := by
  have hagree := Invariant.free.agree_within Interpreter.budget
  have hframe := Invariant.frame_of_obeys (hagree.serve Discipline.open_free request) i.tree
  unfold setup
  rw [i.tree_answer]
  exact hframe.setup_eq hroot

end Lisplet
