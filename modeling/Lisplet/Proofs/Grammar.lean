import Lisplet.Proofs.Reading

set_option autoImplicit false

/-! # The grammar of forms

A form is an atom, a pair of brackets with forms between them, or a mark with a form after it.
`Derives` says so without a word on how reading goes about it, and reading does exactly this: it
accepts what can be derived, and an error tells whether more lexemes could have saved the text
(`reads_exactly_derivable`).

The proof goes both ways through the frames. From the grammar to reading, the tokens of a form have
the effect of the form (`readAs_of_derives`). From reading to the grammar, what was read so far
together with the frames that are open is a derivation that has come half way (`Opens`), and one
token takes it one step further (`Opens.step`). -/

namespace Lisplet

namespace Form

/-! ## Derivations -/

mutual

/-- The lexemes are those of one form, and the node is what they stand for. -/
inductive Derives : List Lexeme → Node → Prop where
  | number (d : Double) : Derives [.number d] (.number d)
  | string (s : String) : Derives [.string s] (.string s)
  | symbol (s : String) : Derives [.symbol s] (.symbol (QName.parse s))
  | keyword (s : String) : Derives [.keyword s] (.keyword (QName.parse s))
  | list {inner : List Lexeme} {items : List Node} : DerivesAll inner items →
      Derives (.opening .round :: (inner ++ [.closing .round])) (.list items)
  | vec {inner : List Lexeme} {items : List Node} : DerivesAll inner items →
      Derives (.opening .square :: (inner ++ [.closing .square])) (.vec items)
  | mark (mark : Mark) {lexemes : List Lexeme} {form : Node} : Derives lexemes form →
      Derives (.mark mark :: lexemes) (.list [.symbol (QName.plain mark.name), form])

/-- The lexemes are those of some forms, one after the other. -/
inductive DerivesAll : List Lexeme → List Node → Prop where
  | nil : DerivesAll [] []
  | cons {first rest : List Lexeme} {form : Node} {forms : List Node} : Derives first form →
      DerivesAll rest forms → DerivesAll (first ++ rest) (form :: forms)

end

/-- The lexemes are those of some forms. -/
def Derivable (lexemes : List Lexeme) : Prop := ∃ forms, DerivesAll lexemes forms

/-- With more lexemes after them, the lexemes are those of some forms. -/
def Viable (lexemes : List Lexeme) : Prop := ∃ more, Derivable (lexemes ++ more)

variable {lexemes first rest inner : List Lexeme} {form : Node} {forms items : List Node}

theorem Derives.all (h : Derives lexemes form) : DerivesAll lexemes [form] := by
  simpa using DerivesAll.cons h .nil

theorem DerivesAll.append {others : List Lexeme} {forms' : List Node} (h : DerivesAll lexemes forms)
    (h' : DerivesAll others forms') : DerivesAll (lexemes ++ others) (forms ++ forms') := by
  induction forms generalizing lexemes with
  | nil =>
    cases h
    exact h'
  | cons form forms ih =>
    cases h with
    | cons hfirst hrest =>
      rw [List.append_assoc, List.cons_append]
      exact .cons hfirst (ih hrest)

/-- Brackets of either kind make a form of the forms between them. -/
theorem derives_ofItems (bracket : Bracket) (h : DerivesAll inner items.reverse) :
    Derives (.opening bracket :: (inner ++ [.closing bracket])) (ofItems bracket items) := by
  cases bracket with
  | round => exact .list h
  | square => exact .vec h

theorem Derivable.viable (h : Derivable lexemes) : Viable lexemes := ⟨[], by simpa using h⟩

theorem Viable.of_append {more : List Lexeme} (h : Viable (lexemes ++ more)) : Viable lexemes := by
  obtain ⟨others, hothers⟩ := h
  exact ⟨more ++ others, by simpa using hothers⟩

/-! ## Derivations are unique -/

/-- A form does not start with a closing bracket. -/
theorem Derives.head (h : Derives lexemes form) :
    ∃ lexeme more, lexemes = lexeme :: more ∧ ∀ bracket, lexeme ≠ .closing bracket := by
  cases h <;> exact ⟨_, _, rfl, nofun⟩

mutual

/-- At the front of a text there is at most one form, and it ends where it ends. -/
theorem Derives.unique : ∀ {lexemes lexemes' rest rest' : List Lexeme} {form form' : Node},
    Derives lexemes form → Derives lexemes' form' → lexemes ++ rest = lexemes' ++ rest' →
      lexemes' = lexemes ∧ form' = form
  | _, _, _, _, _, _, .number _, h', heq => by cases h' <;> simp_all
  | _, _, _, _, _, _, .string _, h', heq => by cases h' <;> simp_all
  | _, _, _, _, _, _, .symbol _, h', heq => by cases h' <;> simp_all
  | _, _, _, _, _, _, .keyword _, h', heq => by cases h' <;> simp_all
  | _, _, _, _, _, _, .list h, h', heq => by
    cases h' with
    | list h' =>
      simp only [List.cons_append, List.append_assoc, List.cons.injEq, true_and] at heq
      obtain ⟨rfl, rfl⟩ := h.unique h' heq
      exact ⟨rfl, rfl⟩
    | _ => simp at heq
  | _, _, _, _, _, _, .vec h, h', heq => by
    cases h' with
    | vec h' =>
      simp only [List.cons_append, List.append_assoc, List.cons.injEq, true_and] at heq
      obtain ⟨rfl, rfl⟩ := h.unique h' heq
      exact ⟨rfl, rfl⟩
    | _ => simp at heq
  | _, _, _, _, _, _, .mark _ h, h', heq => by
    cases h' with
    | mark _ h' =>
      simp only [List.cons_append, List.cons.injEq, Lexeme.mark.injEq] at heq
      obtain ⟨rfl, heq⟩ := heq
      obtain ⟨rfl, rfl⟩ := h.unique h' heq
      exact ⟨rfl, rfl⟩
    | _ => simp at heq

/-- Between brackets there is at most one sequence of forms. -/
theorem DerivesAll.unique : ∀ {inner inner' rest rest' : List Lexeme} {items items' : List Node}
    {bracket bracket' : Bracket}, DerivesAll inner items → DerivesAll inner' items' →
      inner ++ .closing bracket :: rest = inner' ++ .closing bracket' :: rest' →
        inner' = inner ∧ items' = items
  | _, _, _, _, _, _, _, _, .nil, .nil, _ => ⟨rfl, rfl⟩
  | _, _, _, _, _, _, _, _, .nil, .cons h' _, heq => by
    obtain ⟨lexeme, more, rfl, hclosing⟩ := h'.head
    simp only [List.nil_append, List.cons_append, List.cons.injEq] at heq
    exact absurd heq.1.symm (hclosing _)
  | _, _, _, _, _, _, _, _, .cons h _, .nil, heq => by
    obtain ⟨lexeme, more, rfl, hclosing⟩ := h.head
    simp only [List.nil_append, List.cons_append, List.cons.injEq] at heq
    exact absurd heq.1 (hclosing _)
  | _, _, _, _, _, _, _, _, .cons h hrest, .cons h' hrest', heq => by
    rw [List.append_assoc, List.append_assoc] at heq
    obtain ⟨rfl, rfl⟩ := h.unique h' heq
    obtain ⟨rfl, rfl⟩ := hrest.unique hrest' (List.append_cancel_left heq)
    exact ⟨rfl, rfl⟩

end

/-! ## Reading what is derived -/

/-- The step that a whole node amounts to: it is delivered, unless it is nested too deep for the
    frames that are open already. -/
def stepNode (stack : List Frame) (node : Node) : Step :=
  if stack.length + node.nesting ≤ nestingLimit then deliver node stack else .tooDeep

/-- A delivered form leaves frames open or completes the outermost form. -/
theorem deliver_cases (form : Node) (stack : List Frame) :
    (∃ frames, deliver form stack = .within frames) ∨
      ∃ whole, deliver form stack = .complete whole := by
  induction stack generalizing form with
  | nil => exact .inr ⟨form, rfl⟩
  | cons frame outer ih =>
    cases frame with
    | sequence bracket items => exact .inl ⟨_, rfl⟩
    | marked mark => exact ih (ofMark mark form)

/-- A node is never unexpected, so the token at its end does not matter. -/
theorem resume_stepNode (invalid : Option Pos) (token token' : Token) (rest : List Token)
    (stack : List Frame) (node : Node) :
    resume invalid token rest (stepNode stack node)
      = resume invalid token' rest (stepNode stack node) := by
  unfold stepNode
  split
  · rcases deliver_cases node stack with ⟨frames, h⟩ | ⟨whole, h⟩
    · rw [h, resume, resume]
    · rw [h, resume, resume]
  · rw [resume, resume]

/-- The tokens have the effect of the node, whatever stands on the stack and follows. -/
def ReadAs (tokens : List Token) (node : Node) : Prop :=
  ∀ invalid stack token rest, stack.length ≤ nestingLimit →
    readFrom invalid stack (tokens ++ rest) = resume invalid token rest (stepNode stack node)

/-- Inside a bracket, the tokens have the effect that the nodes are collected. -/
def ReadAsAll (tokens : List Token) (items : List Node) : Prop :=
  ∀ invalid bracket collected outer rest, outer.length < nestingLimit →
    readFrom invalid (.sequence bracket collected :: outer) (tokens ++ rest)
      = if outer.length + 1 + Node.nestingAll items ≤ nestingLimit then
          readFrom invalid (.sequence bracket (items.reverse ++ collected) :: outer) rest
        else [.error .tooDeep]

theorem readAs_atom {token : Token} {node : Node} (hnesting : node.nesting = 0)
    (hstep : ∀ stack, step stack token.lexeme = deliver node stack) : ReadAs [token] node := by
  intro invalid stack token' rest hstack
  have hfits : stack.length + node.nesting ≤ nestingLimit := by omega
  rw [resume_stepNode invalid token' token, List.singleton_append, readFrom_cons, hstep, stepNode,
    if_pos hfits]

theorem readAsAll_nil : ReadAsAll [] [] := by
  intro invalid bracket collected outer rest houter
  simp [Node.nestingAll, Nat.succ_le_of_lt houter]

theorem ReadAs.cons {tokens others : List Token} {item : Node} {items : List Node}
    (h : ReadAs tokens item) (hrest : ReadAsAll others items) :
    ReadAsAll (tokens ++ others) (item :: items) := by
  intro invalid bracket collected outer rest houter
  rw [List.append_assoc, h invalid (.sequence bracket collected :: outer) default (others ++ rest)
    houter, stepNode, Node.nestingAll, List.length_cons]
  by_cases hdeep : outer.length + 1 + item.nesting ≤ nestingLimit
  · have hiff : outer.length + 1 + Node.nestingAll items ≤ nestingLimit
        ↔ outer.length + 1 + max item.nesting (Node.nestingAll items) ≤ nestingLimit := by
      omega
    rw [if_pos hdeep, deliver, resume, hrest invalid bracket (item :: collected) outer rest houter]
    simp only [hiff, List.reverse_cons, List.append_assoc, List.singleton_append]
  · rw [if_neg hdeep, if_neg (by omega), resume]

/-- Brackets take one frame. -/
theorem ReadAsAll.brackets {bracket : Bracket} {opener closer : Token} {tokens : List Token}
    {items : List Node} (h : ReadAsAll tokens items) (hopener : opener.lexeme = .opening bracket)
    (hcloser : closer.lexeme = .closing bracket) :
    ReadAs (opener :: (tokens ++ [closer])) (ofItems bracket items.reverse) := by
  intro invalid stack token rest _
  have hnesting : (ofItems bracket items.reverse).nesting = Node.nestingAll items + 1 := by
    cases bracket <;> simp [ofItems, Node.nesting]
  rw [resume_stepNode invalid token closer, List.cons_append, List.append_assoc, readFrom_cons,
    hopener, step, enter, stepNode, hnesting]
  by_cases hfull : stack.length < nestingLimit
  · have hlength : stack.length + 1 + Node.nestingAll items
        = stack.length + (Node.nestingAll items + 1) := by omega
    rw [if_pos hfull, resume, h invalid bracket [] stack _ hfull, hlength]
    split
    · rw [List.append_nil, List.singleton_append, readFrom_cons, hcloser, step, close, if_pos rfl]
    · rw [resume]
  · rw [if_neg hfull, if_neg (by omega), resume, resume]

/-- A mark takes one frame, too, and is completed by the form after it. -/
theorem ReadAs.marked {mark : Mark} {token : Token} {tokens : List Token} {form : Node}
    (h : ReadAs tokens form) (hmark : token.lexeme = .mark mark) :
    ReadAs (token :: tokens) (ofMark mark form) := by
  intro invalid stack token' rest _
  have hnesting : (ofMark mark form).nesting = form.nesting + 1 := by
    simp [ofMark, Node.nesting, Node.nestingAll]
  rw [resume_stepNode invalid token' token, List.cons_append, readFrom_cons, hmark, step, enter]
  by_cases hfull : stack.length < nestingLimit
  · have hlength : stack.length + 1 + form.nesting = stack.length + (form.nesting + 1) := by omega
    rw [if_pos hfull, resume, h invalid (.marked mark :: stack) token rest hfull, stepNode,
      stepNode, hnesting, List.length_cons, hlength, deliver]
  · rw [if_neg hfull, stepNode, hnesting, if_neg (by omega), resume, resume]

/-- The same for tokens that are known by their lexemes. -/
theorem readAs_brackets {bracket : Bracket} {lexemes : List Lexeme} {items : List Node}
    (h : ∀ inner : List Token, inner.map Token.lexeme = lexemes → ReadAsAll inner items)
    {tokens : List Token}
    (htokens : tokens.map Token.lexeme = .opening bracket :: (lexemes ++ [.closing bracket])) :
    ReadAs tokens (ofItems bracket items.reverse) := by
  obtain ⟨opener, others, rfl, hopener, hothers⟩ := List.map_eq_cons_iff.1 htokens
  obtain ⟨inner, back, rfl, hinner, hback⟩ := List.map_eq_append_iff.1 hothers
  obtain ⟨closer, rfl, hcloser⟩ := List.map_eq_singleton_iff.1 hback
  exact (h inner hinner).brackets hopener hcloser

mutual

/-- Tokens that derive a form have the effect of the form. -/
theorem readAs_of_derives : ∀ {lexemes : List Lexeme} {form : Node}, Derives lexemes form →
    ∀ tokens, tokens.map Token.lexeme = lexemes → ReadAs tokens form
  | _, _, .number _, tokens, htokens => by
    obtain ⟨token, rfl, htoken⟩ := List.map_eq_singleton_iff.1 htokens
    exact readAs_atom rfl fun stack => by rw [htoken, step]
  | _, _, .string _, tokens, htokens => by
    obtain ⟨token, rfl, htoken⟩ := List.map_eq_singleton_iff.1 htokens
    exact readAs_atom rfl fun stack => by rw [htoken, step]
  | _, _, .symbol _, tokens, htokens => by
    obtain ⟨token, rfl, htoken⟩ := List.map_eq_singleton_iff.1 htokens
    exact readAs_atom rfl fun stack => by rw [htoken, step]
  | _, _, .keyword _, tokens, htokens => by
    obtain ⟨token, rfl, htoken⟩ := List.map_eq_singleton_iff.1 htokens
    exact readAs_atom rfl fun stack => by rw [htoken, step]
  | _, _, .list h, tokens, htokens => by
    have hread := readAs_brackets (readAsAll_of_derivesAll h) htokens
    rwa [ofItems, List.reverse_reverse] at hread
  | _, _, .vec h, tokens, htokens => by
    have hread := readAs_brackets (readAsAll_of_derivesAll h) htokens
    rwa [ofItems, List.reverse_reverse] at hread
  | _, _, .mark _ h, tokens, htokens => by
    obtain ⟨token, others, rfl, htoken, hothers⟩ := List.map_eq_cons_iff.1 htokens
    exact (readAs_of_derives h others hothers).marked htoken

theorem readAsAll_of_derivesAll : ∀ {lexemes : List Lexeme} {items : List Node},
    DerivesAll lexemes items → ∀ tokens, tokens.map Token.lexeme = lexemes →
      ReadAsAll tokens items
  | _, _, .nil, tokens, htokens => by
    rw [List.map_eq_nil_iff.1 htokens]
    exact readAsAll_nil
  | _, _, .cons h hrest, tokens, htokens => by
    obtain ⟨front, back, rfl, hfront, hback⟩ := List.map_eq_append_iff.1 htokens
    exact (readAs_of_derives h front hfront).cons (readAsAll_of_derivesAll hrest back hback)

end

/-- What is derived is read as it is derived, up to a form that is nested too deep. -/
theorem untilError_of_derivesAll {tokens : List Token}
    (h : DerivesAll (tokens.map Token.lexeme) forms) :
    untilError (readFrom none [] tokens)
      = if Node.nestingAll forms ≤ nestingLimit then .ok forms else .error .tooDeep := by
  generalize hlexemes : tokens.map Token.lexeme = lexemes at h
  induction forms generalizing tokens lexemes with
  | nil =>
    cases h
    simp [List.map_eq_nil_iff.1 hlexemes, readFrom, atEnd, untilError, Node.nestingAll]
  | cons form forms ih =>
    cases h with
    | cons hform hforms =>
      obtain ⟨front, back, rfl, rfl, rfl⟩ := List.map_eq_append_iff.1 hlexemes
      rw [readAs_of_derives hform front rfl none [] default back (Nat.zero_le _), stepNode,
        List.length_nil, Nat.zero_add, Node.nestingAll]
      by_cases hdeep : form.nesting ≤ nestingLimit
      · rw [if_pos hdeep, deliver, resume, untilError, ih _ rfl hforms]
        by_cases hrest : Node.nestingAll forms ≤ nestingLimit
        · rw [if_pos hrest, if_pos (Nat.max_le.2 ⟨hdeep, hrest⟩)]
          rfl
        · rw [if_neg hrest, if_neg (fun hmax => hrest (Nat.max_le.1 hmax).2)]
          rfl
      · rw [if_neg hdeep, if_neg (fun hmax => hdeep (Nat.max_le.1 hmax).1), resume, untilError]

/-! ## Deriving what is read -/

/-- The lexemes are those of the forms in `done` and of the frames that are open after them, from
    the outside in. -/
inductive Opens (done : List Node) : List Lexeme → List Frame → Prop where
  | nil {lexemes : List Lexeme} : DerivesAll lexemes done → Opens done lexemes []
  | sequence (bracket : Bracket) {before inner : List Lexeme} {items : List Node}
      {outer : List Frame} : Opens done before outer → DerivesAll inner items.reverse →
      Opens done (before ++ .opening bracket :: inner) (.sequence bracket items :: outer)
  | marked (mark : Mark) {before : List Lexeme} {outer : List Frame} : Opens done before outer →
      Opens done (before ++ [.mark mark]) (.marked mark :: outer)

variable {done : List Node} {stack : List Frame}

/-- Where a form is open, a form may come and the rest can be closed. -/
theorem Opens.viable_append (h : Opens done lexemes stack) {others : List Lexeme}
    (hform : Derives others form) : Viable (lexemes ++ others) := by
  induction h generalizing others form with
  | nil hdone => exact Derivable.viable ⟨_, hdone.append hform.all⟩
  | @sequence bracket before inner items outer _ hitems ih =>
    have hall : DerivesAll (inner ++ others) (form :: items).reverse := by
      rw [List.reverse_cons]
      exact hitems.append hform.all
    have hclosed := ih (derives_ofItems bracket hall)
    have hshift : before ++ .opening bracket :: (inner ++ others ++ [.closing bracket])
        = before ++ .opening bracket :: inner ++ others ++ [.closing bracket] := by
      simp
    rw [hshift] at hclosed
    exact hclosed.of_append
  | marked mark _ ih =>
    rw [List.append_assoc]
    exact ih (.mark mark hform)

theorem Opens.viable (h : Opens done lexemes stack) : Viable lexemes :=
  (h.viable_append (.string "")).of_append

/-- What the lexemes derive after a step. -/
def OpensStep (done : List Node) (lexemes : List Lexeme) : Step → Prop
  | .within stack => Opens done lexemes stack
  | .complete form => DerivesAll lexemes (done ++ [form])
  | .unexpected => True
  | .tooDeep => Viable lexemes

/-- A form is handed to the frames together with its lexemes. -/
theorem Opens.deliver (h : Opens done lexemes stack) {others : List Lexeme}
    (hform : Derives others form) :
    OpensStep done (lexemes ++ others) (Form.deliver form stack) := by
  induction h generalizing others form with
  | nil hdone => exact hdone.append hform.all
  | @sequence bracket before inner items outer hbefore hitems _ =>
    have hall : DerivesAll (inner ++ others) (form :: items).reverse := by
      rw [List.reverse_cons]
      exact hitems.append hform.all
    rw [List.append_assoc, List.cons_append]
    exact .sequence bracket hbefore hall
  | marked mark _ ih =>
    rw [List.append_assoc]
    exact ih (.mark mark hform)

/-- A new frame goes with its lexeme, and if it does not fit, the text could go on all the same. -/
theorem opensStep_enter {frame : Frame} (h : Opens done lexemes (frame :: stack)) :
    OpensStep done lexemes (enter frame stack) := by
  unfold enter
  split
  · exact h
  · exact h.viable

/-- One token takes a derivation one step further. -/
theorem Opens.step (h : Opens done lexemes stack) (lexeme : Lexeme) :
    OpensStep done (lexemes ++ [lexeme]) (Form.step stack lexeme) := by
  cases lexeme with
  | number d => exact h.deliver (.number d)
  | string s => exact h.deliver (.string s)
  | symbol s => exact h.deliver (.symbol s)
  | keyword s => exact h.deliver (.keyword s)
  | opening bracket => exact opensStep_enter (.sequence bracket h .nil)
  | mark mark => exact opensStep_enter (.marked mark h)
  | closing bracket =>
    rw [Form.step]
    cases h with
    | nil => trivial
    | marked => trivial
    | @sequence opened before inner items outer hbefore hitems =>
      rw [close]
      split
      · next heq =>
        subst heq
        rw [List.append_assoc, List.cons_append]
        exact hbefore.deliver (derives_ofItems opened hitems)
      · trivial

theorem closing_of_unexpected {lexeme : Lexeme} (h : step stack lexeme = .unexpected) :
    ∃ bracket, lexeme = .closing bracket := by
  have hdeliver (form : Node) : deliver form stack ≠ .unexpected := by
    rcases deliver_cases form stack with ⟨frames, h⟩ | ⟨whole, h⟩ <;> simp [h]
  have henter (frame : Frame) : enter frame stack ≠ .unexpected := by
    unfold enter
    split <;> simp
  cases lexeme with
  | closing bracket => exact ⟨bracket, rfl⟩
  | opening bracket => exact absurd h (henter _)
  | mark mark => exact absurd h (henter _)
  | _ => exact absurd h (hdeliver _)

/-- Reading breaks off with the error at the token, whatever comes after it. -/
def BreaksOff (stack : List Frame) (before : List Token) (token : Token) (e : ReadError) : Prop :=
  ∀ others, untilError (readFrom none stack (before ++ token :: others)) = .error e

/-- What an outcome of reading the tokens says about them, when `lexemes` have been read before and
    have left the frames open. -/
def Accounts (done : List Node) (lexemes : List Lexeme) (stack : List Frame)
    (tokens : List Token) : Except ReadError (List Node) → Prop
  | .ok forms => DerivesAll (lexemes ++ tokens.map Token.lexeme) (done ++ forms)
  | .error .unexpectedEnd => Viable (lexemes ++ tokens.map Token.lexeme)
  | .error (.unexpectedToken token) =>
    (∃ bracket, token.lexeme = .closing bracket) ∧
      ∃ before rest, tokens = before ++ token :: rest ∧
        Viable (lexemes ++ before.map Token.lexeme) ∧
        BreaksOff stack before token (.unexpectedToken token)
  | .error .tooDeep =>
    ∃ before token rest, tokens = before ++ token :: rest ∧
      Viable (lexemes ++ (before ++ [token]).map Token.lexeme) ∧
      BreaksOff stack before token .tooDeep
  | .error (.invalid _) => False

/-- One token more in front, which leads to other frames and may complete some forms. -/
theorem Accounts.cons (made : List Node) {stack' : List Frame} {token : Token}
    {tokens : List Token} {outcome : Except ReadError (List Node)}
    (hnext : ∀ others, untilError (readFrom none stack (token :: others))
      = (untilError (readFrom none stack' others)).map (made ++ ·))
    (h : Accounts (done ++ made) (lexemes ++ [token.lexeme]) stack' tokens outcome) :
    Accounts done lexemes stack (token :: tokens) (outcome.map (made ++ ·)) := by
  have hbreaks {before : List Token} {other : Token} {e : ReadError}
      (hb : BreaksOff stack' before other e) : BreaksOff stack (token :: before) other e := by
    intro others
    rw [List.cons_append, hnext, hb others]
    rfl
  cases outcome with
  | ok forms => simpa [Accounts, Except.map] using h
  | error e =>
    cases e with
    | invalid pos => exact h
    | unexpectedEnd => simpa [Accounts, Except.map] using h
    | unexpectedToken other =>
      obtain ⟨hclosing, before, rest, rfl, hviable, hb⟩ := h
      exact ⟨hclosing, token :: before, rest, rfl, by simpa using hviable, hbreaks hb⟩
    | tooDeep =>
      obtain ⟨before, other, rest, rfl, hviable, hb⟩ := h
      exact ⟨token :: before, other, rest, rfl, by simpa using hviable, hbreaks hb⟩

/-- The outcome of reading accounts for the tokens. -/
theorem Opens.accounts (h : Opens done lexemes stack) (tokens : List Token) :
    Accounts done lexemes stack tokens (untilError (readFrom none stack tokens)) := by
  induction tokens generalizing done lexemes stack with
  | nil =>
    cases h with
    | nil hdone => simpa [Accounts, readFrom, atEnd, untilError] using hdone
    | sequence bracket hbefore hitems =>
      simpa [Accounts, readFrom, atEnd, untilError]
        using (Opens.sequence bracket hbefore hitems).viable
    | marked mark hbefore =>
      simpa [Accounts, readFrom, atEnd, untilError] using (Opens.marked mark hbefore).viable
  | cons token tokens ih =>
    have hstep := h.step token.lexeme
    cases hnext : Form.step stack token.lexeme with
    | within frames =>
      have hread (others : List Token) : untilError (readFrom none stack (token :: others))
          = (untilError (readFrom none frames others)).map ([] ++ ·) := by
        rw [readFrom_cons, hnext, resume]
        cases untilError (readFrom none frames others) <;> rfl
      rw [hnext] at hstep
      rw [hread]
      exact Accounts.cons [] hread (ih (by simpa [OpensStep] using hstep))
    | complete form =>
      have hread (others : List Token) : untilError (readFrom none stack (token :: others))
          = (untilError (readFrom none [] others)).map ([form] ++ ·) := by
        rw [readFrom_cons, hnext, resume, untilError]
        rfl
      rw [hnext] at hstep
      rw [hread]
      exact Accounts.cons [form] hread (ih (.nil hstep))
    | unexpected =>
      have hbreaks : BreaksOff stack [] token (.unexpectedToken token) := by
        intro others
        rw [List.nil_append, readFrom_cons, hnext, resume, untilError]
      rw [← List.nil_append (token :: tokens), hbreaks tokens]
      exact ⟨closing_of_unexpected hnext, [], tokens, rfl, by simpa using h.viable, hbreaks⟩
    | tooDeep =>
      have hbreaks : BreaksOff stack [] token .tooDeep := by
        intro others
        rw [List.nil_append, readFrom_cons, hnext, resume, untilError]
      rw [hnext] at hstep
      rw [← List.nil_append (token :: tokens), hbreaks tokens]
      exact ⟨[], token, tokens, rfl, by simpa [OpensStep] using hstep, hbreaks⟩

/-! ## Reading and the grammar -/

/-- Where reading breaks off for any continuation, no continuation can be derived, unless the forms
    are just nested too deep. -/
theorem BreaksOff.tooDeep {before : List Token} {token : Token} {e : ReadError}
    (h : BreaksOff [] before token e) {more : List Lexeme}
    (hforms : DerivesAll ((before ++ [token]).map Token.lexeme ++ more) forms) :
    e = .tooDeep ∧ nestingLimit < Node.nestingAll forms := by
  -- Any lexemes are those of some tokens; where these stand does not matter.
  obtain ⟨others, rfl⟩ : ∃ others : List Token, others.map Token.lexeme = more :=
    ⟨more.map fun lexeme => ⟨lexeme, default⟩, by simp [Function.comp_def]⟩
  have hread : DerivesAll ((before ++ token :: others).map Token.lexeme) forms := by
    simpa using hforms
  have houtcome := h others
  rw [untilError_of_derivesAll hread] at houtcome
  by_cases hdeep : Node.nestingAll forms ≤ nestingLimit
  · rw [if_pos hdeep] at houtcome
    cases houtcome
  · rw [if_neg hdeep] at houtcome
    exact ⟨(Except.error.inj houtcome).symm, Nat.lt_of_not_le hdeep⟩

theorem BreaksOff.not_viable {before : List Token} {token : Token} {e : ReadError}
    (h : BreaksOff [] before token e) (hne : e ≠ .tooDeep) :
    ¬ Viable ((before ++ [token]).map Token.lexeme) := by
  rintro ⟨more, forms, hforms⟩
  exact hne (h.tooDeep hforms).1

/-- A text that can be continued can be continued at every earlier place, too, so a part of it that
    cannot be goes beyond the part that can. -/
theorem length_lt_of_not_viable {before other rest : List Token}
    (hbefore : Viable (before.map Token.lexeme)) (hother : other <+: before ++ rest)
    (h : ¬ Viable (other.map Token.lexeme)) : before.length < other.length := by
  refine Nat.lt_of_not_le fun hlength => h ?_
  obtain ⟨between, rfl⟩ := List.prefix_of_prefix_length_le hother (List.prefix_append before rest)
    hlength
  rw [List.map_append] at hbefore
  exact hbefore.of_append

section Outcomes

variable {tokens : List Token}

theorem accounts_of_eq {outcome : Except ReadError (List Node)}
    (h : untilError (readFrom none [] tokens) = outcome) : Accounts [] [] [] tokens outcome := by
  rw [← h]
  exact (Opens.nil .nil).accounts tokens

theorem derivesAll_of_ok (h : untilError (readFrom none [] tokens) = .ok forms) :
    DerivesAll (tokens.map Token.lexeme) forms := by
  simpa [Accounts] using accounts_of_eq h

theorem viable_of_unexpectedEnd (h : untilError (readFrom none [] tokens) = .error .unexpectedEnd) :
    Viable (tokens.map Token.lexeme) := by
  simpa [Accounts] using accounts_of_eq h

/-- An unexpected token is a closing bracket, and it is what makes the text hopeless. -/
theorem exists_of_unexpectedToken {token : Token}
    (h : untilError (readFrom none [] tokens) = .error (.unexpectedToken token)) :
    (∃ bracket, token.lexeme = .closing bracket) ∧
      ∃ before rest, tokens = before ++ token :: rest ∧ Viable (before.map Token.lexeme) ∧
        ¬ Viable ((before ++ [token]).map Token.lexeme) := by
  obtain ⟨hclosing, before, rest, rfl, hviable, hbreaks⟩ := accounts_of_eq h
  exact ⟨hclosing, before, rest, rfl, hviable, hbreaks.not_viable nofun⟩

theorem not_viable_of_unexpectedToken {token : Token}
    (h : untilError (readFrom none [] tokens) = .error (.unexpectedToken token)) :
    ¬ Viable (tokens.map Token.lexeme) := by
  obtain ⟨_, before, rest, rfl, _, hnot⟩ := exists_of_unexpectedToken h
  intro hviable
  rw [List.append_cons before token rest, List.map_append] at hviable
  exact hnot hviable.of_append

/-- Tokens that get nested too deep have a part that could go on, but not within the limit. -/
theorem exists_viable_of_tooDeep (h : untilError (readFrom none [] tokens) = .error .tooDeep) :
    ∃ front, front <+: tokens.map Token.lexeme ∧ Viable front ∧
      ∀ more forms, DerivesAll (front ++ more) forms → nestingLimit < Node.nestingAll forms := by
  obtain ⟨before, token, rest, rfl, hviable, hbreaks⟩ := accounts_of_eq h
  refine ⟨(before ++ [token]).map Token.lexeme, ⟨rest.map Token.lexeme, by simp⟩, hviable, ?_⟩
  intro more forms hforms
  exact (hbreaks.tooDeep hforms).2

/-- Tokens are no invalid text, so there are four ways in which reading them can end. -/
theorem outcome_cases (tokens : List Token) :
    (∃ forms, untilError (readFrom none [] tokens) = .ok forms) ∨
      untilError (readFrom none [] tokens) = .error .unexpectedEnd ∨
      (∃ token, untilError (readFrom none [] tokens) = .error (.unexpectedToken token)) ∨
      untilError (readFrom none [] tokens) = .error .tooDeep := by
  cases h : untilError (readFrom none [] tokens) with
  | ok forms => simp
  | error e =>
    cases e with
    | invalid pos => exact (accounts_of_eq h).elim
    | _ => simp

theorem eq_ok_of_derivesAll (hdeep : untilError (readFrom none [] tokens) ≠ .error .tooDeep)
    (h : DerivesAll (tokens.map Token.lexeme) forms) :
    untilError (readFrom none [] tokens) = .ok forms := by
  rw [untilError_of_derivesAll h] at hdeep ⊢
  by_cases hnesting : Node.nestingAll forms ≤ nestingLimit
  · rw [if_pos hnesting]
  · exact absurd (if_neg hnesting) hdeep

/-- Tokens end unexpectedly exactly if they could go on, but are no forms yet. -/
theorem eq_unexpectedEnd_iff (hdeep : untilError (readFrom none [] tokens) ≠ .error .tooDeep) :
    untilError (readFrom none [] tokens) = .error .unexpectedEnd ↔
      ¬ Derivable (tokens.map Token.lexeme) ∧ Viable (tokens.map Token.lexeme) := by
  constructor
  · intro hend
    refine ⟨?_, viable_of_unexpectedEnd hend⟩
    rintro ⟨forms, hforms⟩
    rw [eq_ok_of_derivesAll hdeep hforms] at hend
    cases hend
  · rintro ⟨hnot, hviable⟩
    rcases outcome_cases tokens with ⟨forms, h⟩ | h | ⟨token, h⟩ | h
    · exact absurd ⟨forms, derivesAll_of_ok h⟩ hnot
    · exact h
    · exact absurd hviable (not_viable_of_unexpectedToken h)
    · exact absurd h hdeep

/-- Tokens have an unexpected one among them exactly if they cannot go on. -/
theorem eq_unexpectedToken_iff (hdeep : untilError (readFrom none [] tokens) ≠ .error .tooDeep) :
    (∃ token, untilError (readFrom none [] tokens) = .error (.unexpectedToken token)) ↔
      ¬ Viable (tokens.map Token.lexeme) := by
  constructor
  · rintro ⟨token, h⟩
    exact not_viable_of_unexpectedToken h
  · intro hnot
    rcases outcome_cases tokens with ⟨forms, h⟩ | h | h | h
    · exact absurd (Derivable.viable ⟨forms, derivesAll_of_ok h⟩) hnot
    · exact absurd (viable_of_unexpectedEnd h) hnot
    · exact h
    · exact absurd h hdeep

end Outcomes

/-- Reading accepts exactly the grammar and classifies every failure. Tokens derive one sequence of
    forms at most. Unless they get nested too deep, they are read as some forms exactly if they
    derive these; they end unexpectedly exactly if they derive nothing but could be continued; and
    they have an unexpected token exactly if they could not be continued, and this token is then a
    closing bracket and the last one of the shortest part that could not be. Nested too deep are
    only tokens with a part that could be continued, but to too deeply nested forms alone. -/
theorem reads_exactly_derivable (tokens : List Token) :
    let lexemes := tokens.map Token.lexeme
    let outcome := untilError (ofTokens ⟨tokens, none⟩)
    (∀ forms forms', DerivesAll lexemes forms → DerivesAll lexemes forms' → forms' = forms) ∧
    (outcome ≠ .error .tooDeep →
      (∀ forms, outcome = .ok forms ↔ DerivesAll lexemes forms) ∧
      (outcome = .error .unexpectedEnd ↔ ¬ Derivable lexemes ∧ Viable lexemes) ∧
      ((∃ token, outcome = .error (.unexpectedToken token)) ↔ ¬ Viable lexemes) ∧
      ∀ token, outcome = .error (.unexpectedToken token) →
        (∃ bracket, token.lexeme = .closing bracket) ∧
          ∃ before rest, tokens = before ++ token :: rest ∧
            ¬ Viable ((before ++ [token]).map Token.lexeme) ∧
            ∀ other, other <+: tokens → ¬ Viable (other.map Token.lexeme) →
              (before ++ [token]).length ≤ other.length) ∧
    (outcome = .error .tooDeep →
      ∃ front, front <+: lexemes ∧ Viable front ∧
        ∀ more forms, DerivesAll (front ++ more) forms → nestingLimit < Node.nestingAll forms) := by
  intro lexemes outcome
  refine ⟨?_, ?_, exists_viable_of_tooDeep⟩
  · intro forms forms' h h'
    exact (DerivesAll.unique h h' (rfl : lexemes ++ [.closing .round] = _)).2
  · intro hdeep
    refine ⟨?_, eq_unexpectedEnd_iff hdeep, eq_unexpectedToken_iff hdeep, ?_⟩
    · intro forms
      exact ⟨derivesAll_of_ok, eq_ok_of_derivesAll hdeep⟩
    · intro token h
      obtain ⟨hclosing, before, rest, rfl, hviable, hnot⟩ := exists_of_unexpectedToken h
      refine ⟨hclosing, before, rest, rfl, hnot, ?_⟩
      intro other hother hbad
      rw [List.length_append, List.length_singleton]
      exact length_lt_of_not_viable hviable hother hbad

/-- A quote right before the wrong closing bracket cannot be continued, but without the bracket it
    can; and a quoted symbol in brackets is a form. -/
theorem reads_exactly_derivable_quotes :
    ¬ Viable [.opening .round, .mark .quote, .closing .square] ∧
      Viable [.opening .round, .mark .quote] ∧
      DerivesAll [.opening .square, .mark .quote, .symbol "a", .closing .square]
        [.vec [.list [.symbol (QName.plain "quote"), .symbol (QName.parse "a")]]] := by
  have hwrong := (reads_exactly_derivable [⟨.opening .round, default⟩, ⟨.mark .quote, default⟩,
    ⟨.closing .square, default⟩]).2.1 nofun
  have hopen := (reads_exactly_derivable
    [⟨.opening .round, default⟩, ⟨.mark .quote, default⟩]).2.1 nofun
  have hvec := (reads_exactly_derivable [⟨.opening .square, default⟩, ⟨.mark .quote, default⟩,
    ⟨.symbol "a", default⟩, ⟨.closing .square, default⟩]).2.1 nofun
  exact ⟨hwrong.2.2.1.1 ⟨_, rfl⟩, (hopen.2.1.1 rfl).2, (hvec.1 _).1 rfl⟩

end Form

end Lisplet
