import Lisplet.Repl
import Lisplet.Proofs.Joining
import Lisplet.Proofs.Session

set_option autoImplicit false

/-! # Lines at the prompt and texts

At the prompt every line is a text of its own. As long as no line goes wrong, the lines might as well
have been one text: running them together leads to the same interpreter, and the value is that of
the last line with a form in it (`Repl.eval_join`). The forms of the joined text are those of the
lines (`Form.parse_join_cons`), and one line is run in the joined text as at the prompt, except that
its value stays what it was if there is no form (`Repl.exists_runReadings_line`). -/

namespace Lisplet

/-! ## Reading lines -/

namespace Form

/-- A line ends with a newline, unless it is the last one, and then the forms of all lines are the
    forms of this line and the others. -/
theorem parse_join_cons {line : String} {rest : List String} {forms others : List Node}
    (hline : rest ≠ [] → ∃ body, line = body ++ "\n") (h : parse line = .ok forms)
    (hrest : parse (String.join rest) = .ok others) :
    parse (String.join (line :: rest)) = .ok (forms ++ others) := by
  rw [String.join_cons]
  cases rest with
  | nil =>
    have hempty : parse (String.join []) = .ok [] := parse_of_blank (by simp)
    rw [hempty] at hrest
    cases hrest
    simpa using h
  | cons next rest =>
    obtain ⟨body, rfl⟩ := hline (by simp)
    exact parse_append h hrest

end Form

namespace Repl

/-! ## One line -/

/-- One line is run among others as it is run at the prompt; only the value stays what it was if
    there is no form in the line. -/
theorem exists_runReadings_line (i : Interpreter) {line : String}
    (hblank : Text.allBlank line = true → ∀ c ∈ line.toList, Lexeme.isBlank c = true)
    (hvalue : Text.allBlank line = false → (i.eval line).1.isOk = true) (result : Node) :
    ∃ forms value, Form.parse line = .ok forms ∧
      i.passes.runReadings ScopeTree.rootId .misread result (forms.map .ok) i.tree
        = .ok value (answer i line).2.tree ∧
      (Form.HasForm line →
        (i.eval line).1 = .ok value ∧ (answer i line).1 = value.text ++ "\n") ∧
      (¬ Form.HasForm line → value = result) := by
  cases hall : Text.allBlank line with
  | true =>
    have hparse := Form.parse_of_blank (hblank hall)
    refine ⟨[], result, hparse, ?_, ?_, fun _ => rfl⟩
    · simp [answer, hall, Passes.runReadings]
      rfl
    · intro hform
      exact absurd rfl ((Form.hasForm_iff hparse).1 hform)
  | false =>
    obtain ⟨value, heval⟩ : ∃ value, (i.eval line).1 = .ok value := by
      have hok := hvalue hall
      cases hvalue : (i.eval line).1 with
      | ok value => exact ⟨value, rfl⟩
      | error fault =>
        rw [hvalue] at hok
        cases hok
    have hanswer : answer i line = (outcomeText (i.eval line).1, (i.eval line).2) := by
      simp [answer, hall]
    have hrun : i.passes.runReadings ScopeTree.rootId .misread .nil (Form.readAll line) i.tree
        = .ok value (i.eval line).2.tree := Interpreter.apply_of_perform_ok heval
    obtain ⟨forms, hparse⟩ := Passes.exists_untilError_of_runReadings hrun
    rw [hanswer]
    generalize i.eval line = answered at heval hrun
    rw [Form.eq_map_ok hparse] at hrun
    rw [heval]
    -- A comment is not blank to the prompt, but there is no form in it either.
    by_cases hforms : forms = []
    · subst hforms
      refine ⟨[], result, hparse, ?_, ?_, fun _ => rfl⟩
      · injection hrun with _ htree
        rw [← htree]
        rfl
      · intro hform
        exact absurd rfl ((Form.hasForm_iff hparse).1 hform)
    · have hsame := i.passes.runReadings_of_ne_nil ScopeTree.rootId .misread result .nil
        (show forms.map (Except.ok : Node → Reading) ≠ [] by simpa using hforms)
      refine ⟨forms, value, hparse, hsame ▸ hrun, fun _ => ⟨rfl, rfl⟩, ?_⟩
      intro hform
      exact absurd ((Form.hasForm_iff hparse).2 hforms) hform

/-! ## All lines -/

/-- Lines that are typed one after the other, each with the newline at its end; only the last one may
    lack it. -/
def AreLines (lines : List String) : Prop := ∀ line ∈ lines.dropLast, ∃ body, line = body ++ "\n"

/-- The prompt takes a line for blank only if a text would, too. -/
def BlanksAgree (lines : List String) : Prop :=
  ∀ line ∈ lines, Text.allBlank line = true → ∀ c ∈ line.toList, Lexeme.isBlank c = true

/-- No line goes wrong: each that is not blank has a value at its turn. -/
def Smooth (i : Interpreter) (lines : List String) : Prop :=
  ∀ before line after, lines = before ++ line :: after → Text.allBlank line = false →
    ((session i before).2.eval line).1.isOk = true

/-- The value is the one that was printed for the last line with a form in it; if there is no such
    line, it is `start`. -/
def IsLastValue (i : Interpreter) (start : Node) (lines : List String) (value : Node) : Prop :=
  (∀ before line after, lines = before ++ line :: after → Form.HasForm line →
    (∀ other ∈ after, ¬ Form.HasForm other) →
    ((session i before).2.eval line).1 = .ok value ∧
      (answer (session i before).2 line).1 = value.text ++ "\n") ∧
  ((∀ line ∈ lines, ¬ Form.HasForm line) → value = start)

theorem session_cons (i : Interpreter) (line : String) (rest : List String) :
    (session i (line :: rest)).2 = (session (answer i line).2 rest).2 := rfl

theorem smooth_nil (i : Interpreter) : Smooth i [] := by
  intro before line after h
  simp at h

theorem smooth_cons (i : Interpreter) (line : String) (rest : List String) :
    Smooth i (line :: rest) ↔
      (Text.allBlank line = false → (i.eval line).1.isOk = true) ∧
        Smooth (answer i line).2 rest := by
  constructor
  · intro h
    refine ⟨h [] line rest rfl, fun before other after heq => ?_⟩
    exact h (line :: before) other after (by rw [heq]; rfl)
  · rintro ⟨hline, hrest⟩ before other after heq
    cases before with
    | nil =>
      obtain ⟨rfl, rfl⟩ := List.cons.inj heq
      exact hline
    | cons first before =>
      obtain ⟨rfl, rfl⟩ := List.cons.inj heq
      exact hrest before other after rfl

/-- Lines are run together as they are run at the prompt. -/
theorem exists_runReadings_join (i : Interpreter) {lines : List String} (hlines : AreLines lines)
    (hblanks : BlanksAgree lines) (hsmooth : Smooth i lines) (start : Node) :
    ∃ forms value, Form.parse (String.join lines) = .ok forms ∧
      i.passes.runReadings ScopeTree.rootId .misread start (forms.map .ok) i.tree
        = .ok value (session i lines).2.tree ∧
      IsLastValue i start lines value := by
  induction lines generalizing i start with
  | nil =>
    refine ⟨[], start, Form.parse_of_blank (by simp), rfl, ?_, fun _ => rfl⟩
    intro before line after h
    simp at h
  | cons line rest ih =>
    obtain ⟨hline, hsmooth⟩ := (smooth_cons i line rest).1 hsmooth
    obtain ⟨forms, value, hparse, hrun, hform, hnone⟩ := exists_runReadings_line i
      (hblanks line List.mem_cons_self) hline start
    have hrest : AreLines rest := by
      intro other hother
      cases rest with
      | nil => simp at hother
      | cons next rest => exact hlines other (List.mem_cons_of_mem line hother)
    obtain ⟨others, last, hparse', hrun', hlast, hstart⟩ := ih (answer i line).2 hrest
      (fun other hother => hblanks other (List.mem_cons_of_mem line hother)) hsmooth value
    have hpasses : (answer i line).2.passes = i.passes := rfl
    rw [hpasses] at hrun'
    refine ⟨forms ++ others, last, Form.parse_join_cons ?_ hparse hparse', ?_, ?_, ?_⟩
    · intro hne
      refine hlines line ?_
      rw [List.dropLast_cons_of_ne_nil hne]
      exact List.mem_cons_self
    · rw [List.map_append, Passes.runReadings_append]
      simp only [Bind.bind, EStateM.bind, hrun, hrun', session_cons]
    · intro before other after heq hother hafter
      cases before with
      | nil =>
        obtain ⟨rfl, rfl⟩ := List.cons.inj heq
        rw [hstart hafter]
        exact hform hother
      | cons first before =>
        obtain ⟨rfl, rfl⟩ := List.cons.inj heq
        exact hlast before other after rfl hother hafter
    · intro hall
      rw [hstart fun other hother => hall other (List.mem_cons_of_mem line hother)]
      exact hnone (hall line List.mem_cons_self)

/-- The prompt and a text agree. If no line goes wrong at the prompt, the text of all lines does not
    go wrong either, it leads to the same interpreter, and its value is the one that was printed for
    the last line with a form in it, or the empty list if there is no such line. -/
theorem eval_join (i : Interpreter) {lines : List String} (hlines : AreLines lines)
    (hblanks : BlanksAgree lines) (hsmooth : Smooth i lines) :
    ∃ value, i.eval (String.join lines) = (.ok value, (session i lines).2) ∧
      IsLastValue i .nil lines value := by
  obtain ⟨forms, value, hparse, hrun, hlast⟩ :=
    exists_runReadings_join i hlines hblanks hsmooth .nil
  refine ⟨value, ?_, hlast⟩
  rw [← Form.eq_map_ok hparse] at hrun
  rw [Interpreter.eval, Interpreter.evalIn, Interpreter.perform_of_apply hrun]

/-- A definition, a blank line, a use of the definition and a comment. -/
def sampleLines : List String := ["(def x 1)\n", " \t\n", "(+ x 2)\n", "; done"]

/-- The value of the sample is that of its third line. -/
theorem eval_join_sample :
    let i := Interpreter.fresh ⟨10, fun _ => .missing⟩ "user"
    AreLines sampleLines ∧ BlanksAgree sampleLines ∧ Smooth i sampleLines ∧
      ∃ value, i.eval (String.join sampleLines) = (.ok value, (session i sampleLines).2) ∧
        value.text ++ "\n" = "3\n" := by
  intro i
  have hlines : AreLines sampleLines := by
    intro line hline
    simp only [sampleLines, List.dropLast, List.mem_cons, List.not_mem_nil, or_false] at hline
    rcases hline with rfl | rfl | rfl
    · exact ⟨"(def x 1)", by decide⟩
    · exact ⟨" \t", by decide⟩
    · exact ⟨"(+ x 2)", by decide⟩
  have hblanks : BlanksAgree sampleLines := by
    have hall : ∀ line ∈ sampleLines, Text.allBlank line = true →
        line.toList.all Lexeme.isBlank = true := by
      decide +kernel
    intro line hline hblank
    exact List.all_eq_true.1 (hall line hline hblank)
  have hsmooth : Smooth i sampleLines := by
    simp only [sampleLines, smooth_cons, smooth_nil, and_true]
    decide +kernel
  have hcomment : ∀ other ∈ ["; done"], ¬ Form.HasForm other := by
    decide +kernel
  obtain ⟨value, heval, hlast, _⟩ := eval_join i hlines hblanks hsmooth
  refine ⟨hlines, hblanks, hsmooth, value, heval, ?_⟩
  have hprinted := (hlast ["(def x 1)\n", " \t\n"] "(+ x 2)\n" ["; done"] rfl
    (by decide +kernel) hcomment).2
  rw [← hprinted]
  decide +kernel

end Repl

end Lisplet
