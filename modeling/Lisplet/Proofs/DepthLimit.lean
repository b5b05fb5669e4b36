import Lisplet.Proofs.Alike
import Lisplet.Proofs.Session

set_option autoImplicit false

/-! # The depth limit

A higher limit changes nothing but that a run which would have been stopped goes on. Of two sessions
with the same requests, the one with the lower limit gives the same answers until one of its steps
is stopped; and it goes on with the same answers even then, if what the step leaves behind is the
same. -/

namespace Lisplet

/-! ## What an answer shows -/

namespace Answer

/-- Everything that can be seen of an answer: the outcome, and the current namespace, the tables and
    the counter after it. -/
def visible (answer : Answer) : Except Fault Node × (String × Table (Table Node)) × Nat :=
  (answer.1, (answer.2.tree.scope ScopeTree.rootId).contents, answer.2.tree.counter)

/-- Whether the answer is that the depth limit was reached. -/
def isTooDeep (answer : Answer) : Bool :=
  match answer.1 with
  | .ok _ => false
  | .error fault => fault.isTooDeep

end Answer

/-- Linked trees are alike at the root if the root scopes hold the same. -/
theorem ScopeTree.alike_root {t t' : ScopeTree} (h : t.Linked) (h' : t'.Linked)
    (hcontents : (t'.scope rootId).contents = (t.scope rootId).contents)
    (hcounter : t'.counter = t.counter)
    (hfiles : (t'.scope rootId).setup.files = (t.scope rootId).setup.files)
    (hlimit : (t.scope rootId).setup.depthLimit ≤ (t'.scope rootId).setup.depthLimit) :
    Alike rootId rootId t t' := by
  refine ⟨h, h', h.root_lt, h'.root_lt, hcounter, ?_, hfiles, hlimit⟩
  unfold chain
  rw [h.outer_root, h'.outer_root, List.map_nil, List.map_nil, List.map_singleton,
    List.map_singleton, hcontents]

/-! ## One request under two limits -/

namespace Interpreter

theorem linked_answer {i : Interpreter} (h : i.tree.Linked) (request : Request) :
    (i.answer request).2.tree.Linked := by
  have hinOrder : i.tree.InOrder (fun _ => True) 0 ScopeTree.rootId :=
    ⟨h, h.root_lt, fun _ _ _ _ _ _ _ _ => trivial, fun _ _ _ _ _ _ _ _ _ => trivial⟩
  have hanswer := (chainInvariant .free (fun _ => trivial) 0).answer Discipline.open_free hinOrder
    request
  exact hanswer.2.linked

/-- Two interpreters that differ in nothing that can be seen, except that the first may have a lower
    depth limit. -/
structure Below (i j : Interpreter) : Prop where
  files_eq : j.setup.files = i.setup.files
  limit_le : i.setup.depthLimit ≤ j.setup.depthLimit
  linked : i.tree.Linked
  linked' : j.tree.Linked
  contents_eq : (j.tree.scope ScopeTree.rootId).contents = (i.tree.scope ScopeTree.rootId).contents
  counter_eq : j.tree.counter = i.tree.counter

variable {i j : Interpreter}

/-- The lower limit is reached, or the answers show the same. -/
theorem Below.answer (h : i.Below j) (request : Request) :
    (i.answer request).isTooDeep ∨ (j.answer request).visible = (i.answer request).visible := by
  have hagree : alikeLaw.Agree i.passes j.passes :=
    alikeLaw.agree_within (Nat.le_refl _) (.inl (Nat.le_refl _))
  have halike := ScopeTree.alike_root h.linked h.linked' h.contents_eq h.counter_eq h.files_eq
    h.limit_le
  obtain ⟨_, ⟨fault, hfault, hescape⟩ | ⟨houtcome, htrees⟩⟩ :=
    hagree.answer Discipline.open_free halike request
  · left
    unfold Answer.isTooDeep
    rw [hfault]
    exact hescape
  · right
    unfold Answer.visible
    rw [houtcome, htrees.contents_eq, htrees.counter_eq]

/-- After answers that show the same, the interpreters are as before. -/
theorem Below.next (h : i.Below j) {request : Request}
    (hvisible : (j.answer request).visible = (i.answer request).visible) :
    (i.answer request).2.Below (j.answer request).2 := by
  obtain ⟨_, hstate⟩ := Prod.mk.inj hvisible
  obtain ⟨hcontents, hcounter⟩ := Prod.mk.inj hstate
  have hsetup := setup_answer h.linked.root_lt request
  have hsetup' := setup_answer h.linked'.root_lt request
  refine ⟨?_, ?_, linked_answer h.linked request, linked_answer h.linked' request, hcontents,
    hcounter⟩
  · rw [hsetup, hsetup']
    exact h.files_eq
  · rw [hsetup, hsetup']
    exact h.limit_le

/-! ## Sessions under two limits -/

/-- Until the lower limit is reached, the sessions show the same. -/
theorem Below.session_take (h : i.Below j) (requests : List Request) (n : Nat)
    (hsteps : ∀ answer ∈ (i.session requests).take n, ¬ answer.isTooDeep) :
    ((j.session requests).take n).map Answer.visible
      = ((i.session requests).take n).map Answer.visible := by
  induction requests generalizing i j n with
  | nil => simp [session]
  | cons request requests ih =>
    cases n with
    | zero => simp
    | succ n =>
      simp only [session, List.take_succ_cons, List.forall_mem_cons] at hsteps
      obtain ⟨hfirst, hrest⟩ := hsteps
      have hvisible := (h.answer request).resolve_left hfirst
      simp only [session, List.take_succ_cons, List.map_cons]
      rw [hvisible, ih (h.next hvisible) n hrest]

/-- The first step that does not show the same is one that reaches the lower limit. -/
theorem Below.first_change (h : i.Below j) {requests : List Request} {n : Nat}
    {answer answer' : Answer} (hanswer : (i.session requests)[n]? = some answer)
    (hanswer' : (j.session requests)[n]? = some answer')
    (hbefore : ((j.session requests).take n).map Answer.visible
      = ((i.session requests).take n).map Answer.visible)
    (hchange : answer'.visible ≠ answer.visible) : answer.isTooDeep := by
  induction requests generalizing i j n with
  | nil => simp [session] at hanswer
  | cons request requests ih =>
    cases n with
    | zero =>
      simp only [session, List.getElem?_cons_zero, Option.some.injEq] at hanswer hanswer'
      subst hanswer
      subst hanswer'
      exact (h.answer request).resolve_right hchange
    | succ n =>
      simp only [session, List.getElem?_cons_succ] at hanswer hanswer'
      simp only [session, List.take_succ_cons, List.map_cons, List.cons.injEq] at hbefore
      exact ih (h.next hbefore.1) hanswer hanswer' hbefore.2

/-- The depth limit only decides between the fault at the limit and the answer. For two limits and
    any requests to fresh interpreters: as long as no step reaches the lower limit, the steps have
    the same outcomes and leave the same tables, current namespace and counter; and the first step
    in which this is not so reaches the lower limit. -/
theorem depthLimit_decides (files : String → FileReply) (ns : String) {low high : Int}
    (hle : low ≤ high) (requests : List Request) (n : Nat) :
    let answers := (fresh ⟨low, files⟩ ns).session requests
    let answers' := (fresh ⟨high, files⟩ ns).session requests
    ((∀ answer ∈ answers.take n, ¬ answer.isTooDeep) →
      (answers'.take n).map Answer.visible = (answers.take n).map Answer.visible) ∧
    ∀ answer answer', answers[n]? = some answer → answers'[n]? = some answer' →
      (answers'.take n).map Answer.visible = (answers.take n).map Answer.visible →
      answer'.visible ≠ answer.visible → answer.isTooDeep := by
  intro answers answers'
  have hbelow : (fresh ⟨low, files⟩ ns).Below (fresh ⟨high, files⟩ ns) :=
    ⟨rfl, hle, ScopeTree.linked_root _ ns, ScopeTree.linked_root _ ns, rfl, rfl⟩
  constructor
  · exact hbelow.session_take requests n
  · intro answer answer' hanswer hanswer' hbefore hchange
    exact hbelow.first_change hanswer hanswer' hbefore hchange

/-- A definition, a call of it, and a call of it one scope further in. -/
def nestedCalls : List Request :=
  [.text "(def f (fn [x] (gensym x)))", .text "(f \"a\")", .text "(let [] (f \"b\"))"]

/-- The two limits at which only the last of the nested calls makes a difference. -/
theorem depthLimit_decides_nestedCalls :
    let answers := (fresh ⟨1, fun _ => .missing⟩ "user").session nestedCalls
    let answers' := (fresh ⟨2, fun _ => .missing⟩ "user").session nestedCalls
    (answers'.take 2).map Answer.visible = (answers.take 2).map Answer.visible ∧
      answers.map Answer.isTooDeep = [false, false, true] ∧
      answers'.map Answer.isTooDeep = [false, false, false] := by
  have hsteps : ∀ answer ∈ ((fresh ⟨1, fun _ => .missing⟩ "user").session nestedCalls).take 2,
      ¬ answer.isTooDeep := by
    decide +kernel
  refine ⟨?_, by decide +kernel, by decide +kernel⟩
  exact (depthLimit_decides (fun _ => .missing) "user" (by decide) nestedCalls 2).1 hsteps

end Interpreter

end Lisplet
