import Lisplet.Proofs.Expansion
import Lisplet.Proofs.Joining
import Lisplet.Proofs.RoundTrip
import Lisplet.Proofs.Session

set_option autoImplicit false

/-! # Loading a file and writing it out

A text that loads a file does what the same text does with the contents of the file in the place of
the call (`Interpreter.eval_load`). The two runs differ in three ways: loading leaves notes in the
journal, it takes one unit of the budget for the passes, and what is below the call is read from
other lines. `Follows` compares two runs up to these three. The first two are dealt with by a law
(`journalLaw`), the third by erasing places from read errors (`ReadError.placeless`). -/

namespace Lisplet

/-! ## Errors without their places -/

/-- The error without its place. -/
def ReadError.placeless : ReadError → ReadError
  | .invalid _ => .invalid default
  | .unexpectedToken token => .unexpectedToken ⟨token.lexeme, default⟩
  | .unexpectedEnd => .unexpectedEnd
  | .tooDeep => .tooDeep

@[simp]
theorem ReadError.placeless_below (lines : Nat) (e : ReadError) :
    (e.below lines).placeless = e.placeless := by
  cases e <;> rfl

/-- The fault without the place of a read error in the text that is run. -/
def Fault.placeless : Fault → Fault
  | .misread e => .misread e.placeless
  | fault => fault

/-- Readings without the places of their errors. -/
def Form.placeless (readings : List Reading) : List Reading :=
  readings.map (Except.mapError ReadError.placeless)

theorem Form.placeless_below (lines : Nat) (readings : List Reading) :
    placeless (readings.map (Except.mapError (ReadError.below lines))) = placeless readings := by
  rw [placeless, placeless, List.map_map]
  refine List.map_congr_left fun reading _ => ?_
  cases reading <;> simp [Except.mapError]

/-! ## Runs up to their journals -/

/-- Runs in trees that are equal up to their journals do the same, as long as the budget lasts. -/
def journalLaw : Law where
  toDiscipline := .free
  inv id id' t t' := id' = id ∧ t.EqUpToJournal t'
  escape fault := fault = .stackExhausted
  files_eq h := by rw [h.1, h.2.scope_eq]
  limit_le h := by rw [h.1, h.2.scope_eq]
  limit_ge h := .inl (by rw [h.1, h.2.scope_eq])
  record _ _ h := ⟨h.1, h.2.scopes_eq, h.2.counter_eq⟩
  enter name value _ h := by
    obtain ⟨rfl, h⟩ := h
    refine ⟨rfl, ?_, h.counter_eq⟩
    simp only [ScopeTree.update, h.scopes_eq]
  switchTo _ h := by
    obtain ⟨rfl, h⟩ := h
    refine ⟨rfl, ?_, h.counter_eq⟩
    simp only [ScopeTree.update, h.scopes_eq]
  issue stem h := ⟨⟨h.1, h.2.scopes_eq, congrArg (· + 1) h.2.counter_eq⟩, trivial⟩
  inside _ h := by
    obtain ⟨rfl, h⟩ := h
    refine ⟨congrArg Array.size h.scopes_eq, ?_, h.counter_eq⟩
    simp only [ScopeTree.addInside, h.scopes_eq, h.scope_eq]
  outside h hinner _ _ := ⟨h.1, hinner.2⟩
  find q h := by
    obtain ⟨rfl, h⟩ := h
    refine ⟨?_, fun _ _ => trivial⟩
    have hscope := funext h.scope_eq
    simp only [ScopeTree.find?, ScopeTree.innermost?, ScopeTree.chain, hscope]
  current h := by
    obtain ⟨rfl, h⟩ := h
    rw [h.scope_eq]
    exact ⟨rfl, trivial⟩
  depth h := by
    obtain ⟨rfl, h⟩ := h
    rw [h.scope_eq]
  counter h := h.2.counter_eq

/-! ## Two runs -/

/-- The second run ends like the first one, up to the journal and to places in the text, and with a
    value that is related to that of the first one, unless the first run is out of budget. -/
inductive Follows (related : Node → Node → Prop) :
    EStateM.Result Fault ScopeTree Node → EStateM.Result Fault ScopeTree Node → Prop where
  | exhausted {t : ScopeTree} {outcome : EStateM.Result Fault ScopeTree Node} :
      Follows related (.error .stackExhausted t) outcome
  | fault {fault fault' : Fault} {t t' : ScopeTree} : fault'.placeless = fault.placeless →
      t.EqUpToJournal t' → Follows related (.error fault t) (.error fault' t')
  | value {value value' : Node} {t t' : ScopeTree} : related value value' → t.EqUpToJournal t' →
      Follows related (.ok value t) (.ok value' t')

namespace Follows

variable {related related' : Node → Node → Prop} {t t' : ScopeTree} {x y : Eval Node}
  {f g : Node → Eval Node}

theorem bind (h : Follows related (x t) (y t'))
    (hf : ∀ value value' t₁ t₁', related value value' → t₁.EqUpToJournal t₁' →
      Follows related' (f value t₁) (g value' t₁')) :
    Follows related' ((x >>= f) t) ((y >>= g) t') := by
  simp only [Bind.bind, EStateM.bind]
  generalize x t = outcome at h
  generalize y t' = outcome' at h
  cases h with
  | exhausted => exact .exhausted
  | fault hfault ht => exact .fault hfault ht
  | value hvalue ht => exact hf _ _ _ _ hvalue ht

theorem of_obeys {id : ScopeId} {good : Node → Prop}
    (h : journalLaw.Obeys id id good x y) (ht : t.EqUpToJournal t') :
    Follows Eq (x t) (y t') := by
  have hxy := h t t' ⟨rfl, ht⟩
  cases hx : x t with
  | ok value t₁ =>
    rw [hx] at hxy
    obtain ⟨_, _, t₁', hy, _, _, ht₁⟩ := hxy
    rw [hy]
    exact .value rfl ht₁
  | error fault t₁ =>
    rw [hx] at hxy
    obtain ⟨_, _, rfl | ⟨t₁', hy, _, _, ht₁⟩⟩ := hxy
    · exact .exhausted
    · rw [hy]
      exact .fault rfl ht₁

/-- Readings that are the same up to places are run in the same way. The values before them only
    matter if there are none. -/
theorem runReadings {p q : Passes} (hagree : journalLaw.Agree p q)
    {id : ScopeId} {readings readings' : List Reading} {value value' : Node}
    (hreadings : Form.placeless readings' = Form.placeless readings)
    (hrefl : ∀ value, related value value) (hstart : readings = [] → related value value')
    (ht : t.EqUpToJournal t') :
    Follows related (p.runReadings id .misread value readings t)
      (q.runReadings id .misread value' readings' t') := by
  induction readings generalizing readings' value value' t t' with
  | nil =>
    rw [List.map_eq_nil_iff.1 hreadings]
    exact .value (hstart rfl) ht
  | cons reading readings ih =>
    obtain ⟨reading', others, rfl, hreading, hothers⟩ := List.map_eq_cons_iff.1 hreadings
    cases reading with
    | error e =>
      cases reading' with
      | ok form => simp [Except.mapError] at hreading
      | error e' =>
        have he : e'.placeless = e.placeless := by simpa [Except.mapError] using hreading
        exact .fault (congrArg Fault.misread he) ht
    | ok form =>
      cases reading' with
      | error e' => simp [Except.mapError] at hreading
      | ok form' =>
        obtain rfl : form' = form := by simpa [Except.mapError] using hreading
        refine (of_obeys (hagree.run trivial) ht).bind ?_
        rintro first _ t₁ t₁' rfl ht₁
        exact ih hothers (fun _ => hrefl first) ht₁

end Follows

/-! ## A call of `load` -/

/-- If there is no error, it does not matter what an error would be. -/
theorem Passes.runReadings_map_ok (p : Passes) (id : ScopeId) (fault fault' : ReadError → Fault)
    (result : Node) (forms : List Node) :
    p.runReadings id fault result (forms.map .ok)
      = p.runReadings id fault' result (forms.map .ok) := by
  induction forms generalizing result with
  | nil => rfl
  | cons form forms ih =>
    simp only [List.map_cons, runReadings]
    exact congrArg _ (funext ih)

/-- The form that loads a file. -/
def Node.loadForm (path : String) : Node := .list [.symbol (QName.plain "load"), .string path]

/-- A call of `load` notes what it does and runs the file with one unit of the budget less. -/
theorem Passes.run_loadForm (budget : Nat) {id : ScopeId} {path text : String}
    {t : ScopeTree} (hfile : (t.scope id).setup.files path = .content text)
    (hplain : ∀ params body, t.find? id (QName.plain "load") ≠ some (.macroFn params body)) :
    (within (budget + 2)).run id (.loadForm path) t
      = (within (budget + 1)).runReadings id .misreadFile .nil (Form.readAll text)
          ((t.record (.asked path)).record (.loading path (t.scope id).current)) := by
  have hexpand : (within (budget + 2)).expand id (.loadForm path) t
      = .ok (.call (QName.plain "load") [.string path]) t :=
    expand_call_of_plain (budget + 1) rfl rfl hplain
  have hload : (within (budget + 2)).evaluate id (.call (QName.plain "load") [.string path]) t
      = Eval.loadFile (within (budget + 1)) id path t := rfl
  simp only [run, Bind.bind, EStateM.bind, hexpand, hload, Eval.loadFile_eq, hfile]

namespace Form

theorem parse_loadForm {path : String} (h : '"' ∉ path.toList) :
    parse ("(load \"" ++ path ++ "\")") = .ok [.loadForm path] := by
  have hreadable : (Node.loadForm path).Readable := by
    refine .list fun item hitem => ?_
    simp only [List.mem_cons, List.not_mem_nil, or_false] at hitem
    rcases hitem with rfl | rfl
    · exact .symbol (t := "load") (by decide +kernel)
    · exact .string h
  have htext : Node.textAll [.loadForm path] = "(load \"" ++ path ++ "\")" := by
    rw [← String.toList_inj]
    simp [Node.loadForm, Node.textAll, Node.text, QName.text, QName.plain]
  rw [← htext, parse_textAll fun form hform => List.mem_singleton.1 hform ▸ hreadable]
  rfl

/-- Three texts, of which only the last one may have errors. -/
theorem exists_readAll_append {upper middle : String} {forms others : List Node}
    (hupper : parse upper = .ok forms) (hmiddle : parse middle = .ok others) (lower : String) :
    ∃ readings, placeless readings = placeless (readAll lower) ∧
      readAll (upper ++ "\n" ++ (middle ++ "\n" ++ lower))
        = forms.map .ok ++ (others.map .ok ++ readings) := by
  rw [readAll_append (parse_append_newline hupper), readAll_append (parse_append_newline hmiddle),
    List.map_append, List.map_map]
  refine ⟨_, ?_, rfl⟩
  rw [placeless_below, placeless_below]

end Form

/-- A call of `load` against the forms of the file. -/
theorem Follows.load (budget : Nat) {id : ScopeId} {t : ScopeTree}
    {path text : String} {forms : List Node} (htext : Form.parse text = .ok forms)
    (hfile : (t.scope id).setup.files path = .content text)
    (hplain : ∀ params body, t.find? id (QName.plain "load") ≠ some (.macroFn params body))
    (start : Node) :
    Follows (fun value value' => Form.HasForm text → value' = value)
      ((Passes.within (budget + 2)).runReadings id .misread start [.ok (.loadForm path)] t)
      ((Passes.within (budget + 2)).runReadings id .misread start (forms.map .ok) t) := by
  -- The file is run with one unit of the budget less than its forms are in the text.
  have hagree : journalLaw.Agree (.within (budget + 1)) (.within (budget + 2)) :=
    journalLaw.agree_within (Nat.le_succ _) (.inr rfl)
  have hload : (Passes.within (budget + 2)).runReadings id .misread start
      [.ok (.loadForm path)] t
        = (Passes.within (budget + 2)).run id (.loadForm path) t := by
    show ((Passes.within (budget + 2)).run id (.loadForm path) >>= pure) t = _
    rw [bind_pure]
  rw [hload, Passes.run_loadForm budget hfile hplain, Form.eq_map_ok htext,
    Passes.runReadings_map_ok _ id .misreadFile .misread]
  refine Follows.runReadings hagree rfl (fun _ _ => rfl) ?_ ⟨rfl, rfl⟩
  intro hnil hform
  exact absurd (List.map_eq_nil_iff.1 hnil) ((Form.hasForm_iff htext).1 hform)

/-- What the two runs mean for an interpreter that performs one or the other. -/
theorem Follows.perform {i : Interpreter} {x y : Eval Node} {related : Node → Node → Prop}
    (h : Follows related (x i.tree) (y i.tree)) :
    (i.perform x).1 = .error .stackExhausted ∨
      (i.perform x).2.tree.EqUpToJournal (i.perform y).2.tree ∧
        ((∃ fault fault', (i.perform x).1 = .error fault ∧ (i.perform y).1 = .error fault' ∧
            fault'.placeless = fault.placeless) ∨
          ∃ value value', (i.perform x).1 = .ok value ∧ (i.perform y).1 = .ok value' ∧
            related value value') := by
  unfold Interpreter.perform EStateM.run
  generalize x i.tree = outcome at h
  generalize y i.tree = outcome' at h
  cases h with
  | exhausted => exact .inl rfl
  | fault hfault ht => exact .inr ⟨ht, .inl ⟨_, _, rfl, rfl, hfault⟩⟩
  | value hvalue ht => exact .inr ⟨ht, .inr ⟨_, _, rfl, rfl, hvalue⟩⟩

namespace Interpreter

/-- An interpreter that has a file has a root scope. -/
theorem root_lt_of_files_eq {i : Interpreter} {path text : String}
    (h : i.setup.files path = .content text) : ScopeTree.rootId < i.tree.scopes.size := by
  refine Nat.lt_of_not_ge fun hsize => ?_
  have hdefault : i.tree.scope ScopeTree.rootId = default := by
    rw [ScopeTree.scope, Array.getElem?_eq_none hsize, Option.getD_none]
  rw [setup, hdefault] at h
  cases h

/-- Loading a file is writing it out. A text loads a file in a line of its own, where no macro is in
    the way, and another text has the contents of the file there. Unless the first one runs out of
    budget, both lead to the same scopes and the same counter, and both go wrong in the same way, up
    to the place of a read error, or both have a value, which is the same if there is any form after
    the line above. -/
theorem eval_load (i : Interpreter) {a b c path : String} {forms others : List Node}
    (ha : Form.parse a = .ok forms) (hb : Form.parse b = .ok others) (hpath : '"' ∉ path.toList)
    (hfile : i.setup.files path = .content b)
    (hplain : ∀ value, (i.eval a).1 = .ok value → ∀ params body,
      (i.eval a).2.tree.find? ScopeTree.rootId (QName.plain "load")
        ≠ some (.macroFn params body)) :
    let loaded := i.eval (a ++ "\n" ++ ("(load \"" ++ path ++ "\")" ++ "\n" ++ c))
    let inlined := i.eval (a ++ "\n" ++ (b ++ "\n" ++ c))
    loaded.1 = .error .stackExhausted ∨
      loaded.2.tree.EqUpToJournal inlined.2.tree ∧
        ((∃ fault fault', loaded.1 = .error fault ∧ inlined.1 = .error fault' ∧
            fault'.placeless = fault.placeless) ∨
          ∃ value value', loaded.1 = .ok value ∧ inlined.1 = .ok value' ∧
            (Form.HasForm b ∨ Form.HasForm c → value' = value)) := by
  intro loaded inlined
  obtain ⟨below, hbelow, hloaded⟩ :=
    Form.exists_readAll_append ha (Form.parse_loadForm hpath) c
  obtain ⟨below', hbelow', hinlined⟩ := Form.exists_readAll_append ha hb c
  have hfollows : Follows (fun value value' => Form.HasForm b ∨ Form.HasForm c → value' = value)
      (i.passes.runReadings ScopeTree.rootId .misread .nil
        (Form.readAll (a ++ "\n" ++ ("(load \"" ++ path ++ "\")" ++ "\n" ++ c))) i.tree)
      (i.passes.runReadings ScopeTree.rootId .misread .nil
        (Form.readAll (a ++ "\n" ++ (b ++ "\n" ++ c))) i.tree) := by
    rw [hloaded, hinlined, Passes.runReadings_append, Passes.runReadings_append]
    simp only [Bind.bind, EStateM.bind]
    -- The text above is the same in both; a fault in it ends both before the call is reached.
    cases habove : i.passes.runReadings ScopeTree.rootId .misread .nil (forms.map .ok) i.tree with
    | error fault t => exact .fault rfl ⟨rfl, rfl⟩
    | ok value t =>
      have heval : i.eval a = (.ok value, ⟨t⟩) := by
        rw [← Form.eq_map_ok ha] at habove
        exact perform_of_apply habove
      rw [heval] at hplain
      have hsetup : (i.eval a).2.setup = i.setup :=
        setup_answer (root_lt_of_files_eq hfile) (.text a)
      rw [heval] at hsetup
      rw [← hsetup] at hfile
      simp only
      rw [Passes.runReadings_append, Passes.runReadings_append]
      refine (Follows.load (budget - 2) hb hfile (hplain value rfl) value).bind ?_
      intro middle middle' t₁ t₁' hmiddle ht₁
      have hagree : journalLaw.Agree i.passes i.passes :=
        journalLaw.agree_within (Nat.le_refl _) (.inl (Nat.le_refl _))
      refine Follows.runReadings hagree (hbelow'.trans hbelow.symm) (fun _ _ => rfl) ?_ ht₁
      rintro rfl (hform | ⟨form, hform⟩)
      · exact hmiddle hform
      · rw [List.map_eq_nil_iff.1 hbelow.symm] at hform
        simp at hform
  exact hfollows.perform

/-- One file, which changes the namespace and defines a macro. -/
def sampleFiles (path : String) : FileReply :=
  if path = "lib" then .content "(in-ns 'lib) (def twice (macro [x] \x60(+ ~x ~x)))" else .missing

/-- The macro of the file is used behind the line that loads it. -/
theorem eval_load_sample :
    let i := fresh ⟨10, sampleFiles⟩ "user"
    let loaded := i.eval ("(def k 1)" ++ "\n"
      ++ ("(load \"" ++ "lib" ++ "\")" ++ "\n" ++ "(twice 3)"))
    let inlined := i.eval ("(def k 1)" ++ "\n"
      ++ ("(in-ns 'lib) (def twice (macro [x] \x60(+ ~x ~x)))" ++ "\n" ++ "(twice 3)"))
    ∃ value, loaded.1 = .ok value ∧ inlined.1 = .ok value ∧ value.text = "6" ∧
      loaded.2.tree.EqUpToJournal inlined.2.tree := by
  intro i loaded inlined
  have hforms (source : String) (h : (Form.parse source).isOk = true) :
      ∃ forms, Form.parse source = .ok forms := by
    cases hparse : Form.parse source with
    | ok forms => exact ⟨forms, rfl⟩
    | error e =>
      rw [hparse] at h
      cases h
  obtain ⟨forms, ha⟩ := hforms "(def k 1)" (by decide +kernel)
  obtain ⟨others, hb⟩ := hforms "(in-ns 'lib) (def twice (macro [x] \x60(+ ~x ~x)))"
    (by decide +kernel)
  have hfound : (i.eval "(def k 1)").2.tree.find? ScopeTree.rootId (QName.plain "load") = none := by
    decide +kernel
  have hpath : '"' ∉ "lib".toList := by decide
  have hform : Form.HasForm "(twice 3)" := by decide +kernel
  have htext : loaded.1.toOption.map Node.text = some "6" := by decide +kernel
  have hload := eval_load i (c := "(twice 3)") ha hb hpath rfl (by simp [hfound])
  rcases hload with hend | ⟨htree, ⟨fault, _, hfault, _⟩ | ⟨value, value', hvalue, hvalue', heq⟩⟩
  · rw [hend] at htext
    cases htext
  · rw [hfault] at htext
    cases htext
  · rw [heq (.inr hform)] at hvalue'
    refine ⟨value, hvalue, hvalue', ?_, htree⟩
    rw [hvalue] at htext
    simpa [Except.toOption] using htext

end Interpreter

end Lisplet
