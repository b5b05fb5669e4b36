import Lisplet.Form

set_option autoImplicit false

/-! # What is read

Reading goes token by token, and `resume` says what follows a token. Forms are made of atoms, marks
and brackets only, so a property that atoms get from their lexemes and that lists and vectors get
from their items is one of all forms that are read (`Form.fits_of_mem_readFrom`). The same induction
shows that no form is nested deeper than the stack of frames may grow. -/

namespace Lisplet

namespace Form

/-! ## One token -/

/-- What is read after the step for `token`. -/
def resume (invalid : Option Pos) (token : Token) (rest : List Token) : Step → List Reading
  | .within stack => readFrom invalid stack rest
  | .complete form => .ok form :: readFrom invalid [] rest
  | .unexpected => .error (.unexpectedToken token) :: readFrom invalid [] rest
  | .tooDeep => [.error .tooDeep]

theorem readFrom_cons (invalid : Option Pos) (stack : List Frame) (token : Token)
    (rest : List Token) :
    readFrom invalid stack (token :: rest)
      = resume invalid token rest (step stack token.lexeme) := by
  rw [readFrom]
  cases step stack token.lexeme <;> rfl

/-! ## Up to the first error -/

theorem untilError_cons_ok {form : Node} {readings : List Reading} {forms : List Node}
    (h : untilError (.ok form :: readings) = .ok forms) :
    ∃ others, forms = form :: others ∧ untilError readings = .ok others := by
  rw [untilError] at h
  cases hrest : untilError readings with
  | error e =>
    rw [hrest] at h
    cases h
  | ok others =>
    rw [hrest] at h
    cases h
    exact ⟨others, rfl, rfl⟩

theorem untilError_append (forms : List Node) (readings : List Reading) :
    untilError (forms.map .ok ++ readings) = (untilError readings).map (forms ++ ·) := by
  induction forms with
  | nil => cases h : untilError readings <;> simp [h, Except.map]
  | cons form forms ih =>
    rw [List.map_cons, List.cons_append, untilError, ih]
    cases untilError readings <;> rfl

theorem eq_map_ok {readings : List Reading} {forms : List Node}
    (h : untilError readings = .ok forms) : readings = forms.map .ok := by
  induction readings generalizing forms with
  | nil =>
    cases h
    rfl
  | cons reading readings ih =>
    cases reading with
    | error e => cases h
    | ok form =>
      obtain ⟨others, rfl, hothers⟩ := untilError_cons_ok h
      rw [ih hothers]
      rfl

/-! ## Properties that reading builds up -/

/-- A property of nodes that atoms get from their lexemes and sequences from their items. -/
structure BuiltFrom (proper : Lexeme → Prop) (good : Node → Prop) : Prop where
  number : ∀ d, proper (.number d) → good (.number d)
  string : ∀ s, proper (.string s) → good (.string s)
  symbol : ∀ s, proper (.symbol s) → good (.symbol (QName.parse s))
  keyword : ∀ s, proper (.keyword s) → good (.keyword (QName.parse s))
  /-- Marks stand for symbols. -/
  mark : ∀ mark : Mark, good (.symbol (QName.plain mark.name))
  list : ∀ items, (∀ item ∈ items, good item) → good (.list items)
  vec : ∀ items, (∀ item ∈ items, good item) → good (.vec items)

/-- The node is good and fits into `count` open frames. -/
def Fits (good : Node → Prop) (count : Nat) (node : Node) : Prop :=
  good node ∧ count + node.nesting ≤ nestingLimit

/-- The frames fit on the stack, and what they have collected fits into them. -/
def Sound (good : Node → Prop) : List Frame → Prop
  | [] => True
  | .sequence _ items :: outer =>
    outer.length < nestingLimit ∧ (∀ item ∈ items, Fits good (outer.length + 1) item) ∧
      Sound good outer
  | .marked _ :: outer => outer.length < nestingLimit ∧ Sound good outer

/-- A step leaves sound frames or completes a form that fits. -/
def SoundStep (good : Node → Prop) : Step → Prop
  | .within stack => Sound good stack
  | .complete form => Fits good 0 form
  | .unexpected => True
  | .tooDeep => True

variable {proper : Lexeme → Prop} {good : Node → Prop}

theorem sound_nil : Sound good [] := trivial

theorem length_le_of_sound {stack : List Frame} (h : Sound good stack) :
    stack.length ≤ nestingLimit := by
  cases stack with
  | nil => exact Nat.zero_le _
  | cons frame outer =>
    cases frame with
    | sequence bracket items => exact h.1
    | marked mark => exact h.1

/-- A mark and its form fit where one frame less is open. -/
theorem fits_ofMark (hgood : BuiltFrom proper good) {count : Nat} {form : Node} (mark : Mark)
    (h : Fits good (count + 1) form) : Fits good count (ofMark mark form) := by
  obtain ⟨hform, hnesting⟩ := h
  constructor
  · refine hgood.list _ ?_
    intro item hitem
    rcases List.mem_cons.1 hitem with rfl | hitem
    · exact hgood.mark mark
    · exact List.mem_singleton.1 hitem ▸ hform
  · simp only [ofMark, Node.nesting, Node.nestingAll]
    omega

theorem nestingAll_le {items : List Node} {bound : Nat}
    (h : ∀ item ∈ items, item.nesting ≤ bound) : Node.nestingAll items ≤ bound := by
  induction items with
  | nil => exact Nat.zero_le _
  | cons item items ih =>
    rw [Node.nestingAll]
    exact Nat.max_le.2 ⟨h item List.mem_cons_self,
      ih fun other hother => h other (List.mem_cons_of_mem item hother)⟩

theorem fits_ofItems (hgood : BuiltFrom proper good) {count : Nat} {items : List Node}
    (bracket : Bracket) (hcount : count < nestingLimit)
    (h : ∀ item ∈ items, Fits good (count + 1) item) : Fits good count (ofItems bracket items) := by
  have hitems : ∀ item ∈ items.reverse, good item :=
    fun item hitem => (h item (List.mem_reverse.1 hitem)).1
  have hnesting : Node.nestingAll items.reverse ≤ nestingLimit - (count + 1) := by
    refine nestingAll_le ?_
    intro item hitem
    have := (h item (List.mem_reverse.1 hitem)).2
    omega
  cases bracket with
  | round =>
    refine ⟨hgood.list _ hitems, ?_⟩
    simp only [ofItems, Node.nesting]
    omega
  | square =>
    refine ⟨hgood.vec _ hitems, ?_⟩
    simp only [ofItems, Node.nesting]
    omega

theorem soundStep_deliver (hgood : BuiltFrom proper good) {form : Node} {stack : List Frame}
    (hform : Fits good stack.length form) (h : Sound good stack) :
    SoundStep good (deliver form stack) := by
  induction stack generalizing form with
  | nil => exact hform
  | cons frame outer ih =>
    cases frame with
    | sequence bracket items =>
      obtain ⟨hlength, hitems, houter⟩ := h
      refine ⟨hlength, fun item hitem => ?_, houter⟩
      rcases List.mem_cons.1 hitem with rfl | hitem
      · exact hform
      · exact hitems item hitem
    | marked mark => exact ih (fits_ofMark hgood mark hform) h.2

theorem soundStep_enter {frame : Frame} {stack : List Frame}
    (h : stack.length < nestingLimit → Sound good (frame :: stack)) :
    SoundStep good (enter frame stack) := by
  unfold enter
  split
  · next hlength => exact h hlength
  · trivial

/-- One token keeps the frames sound. -/
theorem soundStep_step (hgood : BuiltFrom proper good) {lexeme : Lexeme} {stack : List Frame}
    (hlexeme : proper lexeme) (h : Sound good stack) : SoundStep good (step stack lexeme) := by
  have hlength := length_le_of_sound h
  cases lexeme with
  | number d => exact soundStep_deliver hgood ⟨hgood.number d hlexeme, hlength⟩ h
  | string s => exact soundStep_deliver hgood ⟨hgood.string s hlexeme, hlength⟩ h
  | symbol s => exact soundStep_deliver hgood ⟨hgood.symbol s hlexeme, hlength⟩ h
  | keyword s => exact soundStep_deliver hgood ⟨hgood.keyword s hlexeme, hlength⟩ h
  | opening bracket =>
    exact soundStep_enter fun hfree => ⟨hfree, fun item hitem => by simp at hitem, h⟩
  | mark mark => exact soundStep_enter fun hfree => ⟨hfree, h⟩
  | closing bracket =>
    rw [step]
    unfold close
    split
    · next opened items outer =>
      obtain ⟨hfree, hitems, houter⟩ := h
      split
      · exact soundStep_deliver hgood (fits_ofItems hgood bracket hfree hitems) houter
      · trivial
    · trivial

/-- Every form that is read from proper lexemes is good, and none is nested too deep. -/
theorem fits_of_mem_readFrom (hgood : BuiltFrom proper good) {invalid : Option Pos}
    {tokens : List Token} {stack : List Frame} {form : Node}
    (htokens : ∀ token ∈ tokens, proper token.lexeme) (h : Sound good stack)
    (hmem : .ok form ∈ readFrom invalid stack tokens) : Fits good 0 form := by
  induction tokens generalizing stack with
  | nil =>
    unfold readFrom atEnd at hmem
    split at hmem <;> simp at hmem
  | cons token tokens ih =>
    have hstep := soundStep_step hgood (htokens token List.mem_cons_self) h
    have hrest {frames : List Frame} (hframes : Sound good frames)
        (hin : .ok form ∈ readFrom invalid frames tokens) : Fits good 0 form :=
      ih (fun other hother => htokens other (List.mem_cons_of_mem token hother)) hframes hin
    rw [readFrom_cons] at hmem
    cases hnext : step stack token.lexeme with
    | within frames =>
      rw [hnext] at hmem hstep
      exact hrest hstep hmem
    | complete whole =>
      rw [hnext, resume] at hmem
      rw [hnext] at hstep
      rcases List.mem_cons.1 hmem with heq | hmem
      · cases heq
        exact hstep
      · exact hrest sound_nil hmem
    | unexpected =>
      rw [hnext, resume] at hmem
      rcases List.mem_cons.1 hmem with heq | hmem
      · cases heq
      · exact hrest sound_nil hmem
    | tooDeep =>
      rw [hnext, resume] at hmem
      simp at hmem

end Form

end Lisplet
