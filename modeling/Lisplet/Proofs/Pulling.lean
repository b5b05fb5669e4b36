import Lisplet.Proofs.Grammar

set_option autoImplicit false

/-! # Reading item by item

`Form.readFrom` gives all forms and errors of a token sequence at once. A reader who wants them one
by one pulls an item, keeps the tokens behind it and pulls again (`Form.pull`), also after an error.
Both ways give the same readings (`Form.ofTokens_of_pull`).

One pull takes a block of tokens from the front, and the item is what this block alone is read as
(`Form.Takes`). So pulling comes to an end (`Form.exists_pulls`), and the blocks make up the tokens:
none is lost, and none is read twice. -/

namespace Lisplet

namespace Form

/-! ## One item -/

/-- The first item that is read when the frames on the stack are open, and the tokens behind it. -/
def pullFrom (invalid : Option Pos) : List Frame → List Token → Option (Reading × Tokens)
  | stack, [] => (atEnd invalid stack).head?.map (·, ⟨[], none⟩)
  | stack, token :: rest =>
    match step stack token.lexeme with
    | .within stack => pullFrom invalid stack rest
    | .complete form => some (.ok form, ⟨rest, invalid⟩)
    | .unexpected => some (.error (.unexpectedToken token), ⟨rest, invalid⟩)
    | .tooDeep => some (.error .tooDeep, ⟨[], none⟩)

/-- The next item, and the tokens that are left for the items after it. -/
def pull (t : Tokens) : Option (Reading × Tokens) := pullFrom t.invalid [] t.tokens

/-- What is read in the end: the item that was pulled, and then what is left. -/
def andThen : Option (Reading × Tokens) → List Reading
  | none => []
  | some (reading, others) => reading :: ofTokens others

theorem readFrom_eq_andThen (invalid : Option Pos) (stack : List Frame) (tokens : List Token) :
    readFrom invalid stack tokens = andThen (pullFrom invalid stack tokens) := by
  induction tokens generalizing stack with
  | nil => cases invalid <;> cases stack <;> rfl
  | cons token tokens ih =>
    rw [readFrom_cons, pullFrom]
    cases step stack token.lexeme with
    | within frames => exact ih frames
    | complete form => rfl
    | unexpected => rfl
    | tooDeep => rfl

theorem ofTokens_of_pull {t : Tokens} {next : Option (Reading × Tokens)} (h : pull t = next) :
    ofTokens t = andThen next := by
  rw [← h]
  exact readFrom_eq_andThen t.invalid [] t.tokens

/-- A reading with the tokens that were taken for it. -/
structure Item where
  reading : Reading
  block : List Token

namespace Item

/-- The place behind the block where no token can be read, if this is what the item reports. -/
def invalid (item : Item) : Option Pos :=
  match item.reading with
  | .error (.invalid pos) => some pos
  | _ => none

/-- Other items may follow. -/
def GoesOn (item : Item) : Prop :=
  (∃ form, item.reading = .ok form) ∨ ∃ token, item.reading = .error (.unexpectedToken token)

end Item

/-- One pull takes the block of the item from the tokens and leaves the others. -/
structure Takes (stack : List Frame) (tokens : List Token) (item : Item) (others : Tokens) :
    Prop where
  tokens_eq : tokens = item.block ++ others.tokens
  /-- The item is what its own block is read as. -/
  alone : readFrom item.invalid stack item.block = [item.reading]
  invalid_of_nil : stack = [] → item.block = [] → ∃ pos, item.reading = .error (.invalid pos)
  closing : ∀ token, item.reading = .error (.unexpectedToken token) →
    (∃ bracket, token.lexeme = .closing bracket) ∧ item.block.getLast? = some token
  left : item.GoesOn ∨ others = ⟨[], none⟩

/-- A token that only changes the open frames comes first in the block. -/
theorem Takes.within {stack frames : List Frame} {token : Token} {tokens block : List Token}
    {reading : Reading} {others : Tokens}
    (hstep : step stack token.lexeme = .within frames)
    (h : Takes frames tokens ⟨reading, block⟩ others) :
    Takes stack (token :: tokens) ⟨reading, token :: block⟩ others where
  tokens_eq := congrArg (token :: ·) h.tokens_eq
  alone := by
    rw [readFrom_cons, hstep]
    exact h.alone
  invalid_of_nil := by simp
  closing := by
    intro last hlast
    obtain ⟨hclosing, hblock⟩ := h.closing last hlast
    simp only at hblock
    exact ⟨hclosing, by rw [List.getLast?_cons, hblock, Option.getD_some]⟩
  left := h.left

/-- At the end of the tokens the block is empty. -/
theorem takes_atEnd {invalid : Option Pos} {stack : List Frame} {reading : Reading}
    (h : (atEnd invalid stack).head? = some reading) :
    Takes stack [] ⟨reading, []⟩ ⟨[], none⟩ := by
  unfold atEnd at h
  split at h
  · next pos =>
    cases h
    exact ⟨rfl, rfl, fun _ _ => ⟨pos, rfl⟩, by simp, .inr rfl⟩
  · cases h
  · cases h
    exact ⟨rfl, rfl, by simp, by simp, .inr rfl⟩

theorem exists_takes_of_pullFrom {invalid : Option Pos} {stack : List Frame} {tokens : List Token}
    {reading : Reading} {others : Tokens}
    (h : pullFrom invalid stack tokens = some (reading, others)) :
    ∃ block, Takes stack tokens ⟨reading, block⟩ others := by
  induction tokens generalizing stack with
  | nil =>
    rw [pullFrom, Option.map_eq_some_iff] at h
    obtain ⟨last, hlast, hpair⟩ := h
    cases hpair
    exact ⟨[], takes_atEnd hlast⟩
  | cons token tokens ih =>
    rw [pullFrom] at h
    cases hstep : step stack token.lexeme with
    | within frames =>
      rw [hstep] at h
      obtain ⟨block, hblock⟩ := ih h
      exact ⟨token :: block, hblock.within hstep⟩
    | complete form =>
      rw [hstep] at h
      cases h
      refine ⟨[token], rfl, ?_, by simp, by simp, .inl (.inl ⟨form, rfl⟩)⟩
      rw [readFrom_cons, hstep]
      rfl
    | unexpected =>
      rw [hstep] at h
      cases h
      refine ⟨[token], rfl, ?_, by simp, ?_, .inl (.inr ⟨token, rfl⟩)⟩
      · rw [readFrom_cons, hstep]
        rfl
      · intro last hlast
        cases hlast
        exact ⟨closing_of_unexpected hstep, rfl⟩
    | tooDeep =>
      rw [hstep] at h
      cases h
      -- What comes after a form nested too deep is given up with it.
      refine ⟨token :: tokens, by simp, ?_, by simp, by simp, .inr rfl⟩
      rw [readFrom_cons, hstep]
      rfl

theorem ne_nil_of_deliver {form : Node} {stack frames : List Frame}
    (h : deliver form stack = .within frames) : frames ≠ [] := by
  induction stack generalizing form with
  | nil => cases h
  | cons frame outer ih =>
    cases frame with
    | sequence bracket items =>
      cases h
      exact List.cons_ne_nil _ _
    | marked mark => exact ih h

theorem ne_nil_of_enter {frame : Frame} {stack frames : List Frame}
    (h : enter frame stack = .within frames) : frames ≠ [] := by
  unfold enter at h
  split at h
  · cases h
    exact List.cons_ne_nil _ _
  · cases h

/-- As long as a form is not complete, something is open. -/
theorem ne_nil_of_within {lexeme : Lexeme} {stack frames : List Frame}
    (h : step stack lexeme = .within frames) : frames ≠ [] := by
  cases lexeme with
  | opening bracket => exact ne_nil_of_enter h
  | mark mark => exact ne_nil_of_enter h
  | closing bracket =>
    rw [step] at h
    unfold close at h
    split at h
    · split at h
      · exact ne_nil_of_deliver h
      · cases h
    · cases h
  | _ => exact ne_nil_of_deliver h

/-- Only where there are no tokens and no open frames is nothing pulled. -/
theorem eq_nil_of_pullFrom {invalid : Option Pos} {stack : List Frame} {tokens : List Token}
    (h : pullFrom invalid stack tokens = none) : stack = [] ∧ tokens = [] := by
  induction tokens generalizing stack with
  | nil =>
    rw [pullFrom, Option.map_eq_none_iff, List.head?_eq_none_iff] at h
    unfold atEnd at h
    split at h
    · cases h
    · exact ⟨rfl, rfl⟩
    · cases h
  | cons token tokens ih =>
    rw [pullFrom] at h
    cases hstep : step stack token.lexeme with
    | within frames =>
      rw [hstep] at h
      exact absurd (ih h).1 (ne_nil_of_within hstep)
    | complete form => simp [hstep] at h
    | unexpected => simp [hstep] at h
    | tooDeep => simp [hstep] at h

/-! ## All items -/

/-- Pulling from the tokens gives the items, and then nothing more. The block of an item holds the
    tokens that were there before its pull and are gone after it. -/
inductive Pulls : Tokens → List Item → Prop
  | exhausted {t : Tokens} (h : pull t = none) : Pulls t []
  | item {t others : Tokens} {reading : Reading} {block : List Token} {items : List Item}
      (h : pull t = some (reading, others)) (hblock : t.tokens = block ++ others.tokens)
      (hothers : Pulls others items) : Pulls t (⟨reading, block⟩ :: items)

theorem takes_of_pull {t others : Tokens} {reading : Reading} {block : List Token}
    (h : pull t = some (reading, others)) (hblock : t.tokens = block ++ others.tokens) :
    Takes [] t.tokens ⟨reading, block⟩ others := by
  obtain ⟨taken, htaken⟩ := exists_takes_of_pullFrom h
  have hsame : taken = block := List.append_cancel_right (htaken.tokens_eq.symm.trans hblock)
  exact hsame ▸ htaken

/-- A pull after which pulling goes on makes progress. -/
theorem Takes.length_lt {tokens : List Token} {item : Item} {others : Tokens}
    (h : Takes [] tokens item others) (hitem : item.GoesOn) :
    others.tokens.length < tokens.length := by
  have hblock : item.block ≠ [] := by
    intro hnil
    obtain ⟨pos, hpos⟩ := h.invalid_of_nil rfl hnil
    rcases hitem with ⟨form, hform⟩ | ⟨token, htoken⟩ <;> simp_all
  have hlength := List.length_pos_iff.2 hblock
  rw [h.tokens_eq, List.length_append]
  omega

theorem pulls_nil : Pulls ⟨[], none⟩ [] := .exhausted rfl

theorem exists_pulls (t : Tokens) : ∃ items, Pulls t items := by
  -- Every pull that leaves something leaves fewer tokens.
  induction hlength : t.tokens.length using Nat.strongRecOn generalizing t with
  | _ length ih =>
    cases hpull : pull t with
    | none => exact ⟨[], .exhausted hpull⟩
    | some next =>
      obtain ⟨reading, others⟩ := next
      obtain ⟨block, htakes⟩ := exists_takes_of_pullFrom hpull
      rcases htakes.left with hgoes | rfl
      · obtain ⟨items, hitems⟩ := ih _ (hlength ▸ htakes.length_lt hgoes) others rfl
        exact ⟨_, .item hpull htakes.tokens_eq hitems⟩
      · exact ⟨_, .item hpull htakes.tokens_eq pulls_nil⟩

namespace Pulls

variable {t : Tokens} {items : List Item}

theorem readings (h : Pulls t items) : items.map Item.reading = ofTokens t := by
  induction h with
  | exhausted h => exact (ofTokens_of_pull h).symm
  | item h _ _ ih => rw [ofTokens_of_pull h, andThen, List.map_cons, ih]

theorem flatten_blocks (h : Pulls t items) : (items.map Item.block).flatten = t.tokens := by
  induction h with
  | exhausted h => exact (eq_nil_of_pullFrom h).2.symm
  | item _ hblock _ ih => rw [List.map_cons, List.flatten_cons, ih, hblock]

theorem exists_takes (h : Pulls t items) {item : Item} (hitem : item ∈ items) :
    ∃ tokens others, Takes [] tokens item others := by
  induction h with
  | exhausted => cases hitem
  | item h hblock _ ih =>
    rcases List.mem_cons.1 hitem with rfl | hitem
    · exact ⟨_, _, takes_of_pull h hblock⟩
    · exact ih hitem

theorem eq_nil (h : Pulls ⟨[], none⟩ items) : items = [] := by
  cases h with
  | exhausted => rfl
  | item h => cases h

theorem length_le (h : Pulls t items) : items.length ≤ t.tokens.length + 1 := by
  induction h with
  | exhausted => exact Nat.zero_le _
  | item h hblock hothers ih =>
    have htakes := takes_of_pull h hblock
    rcases htakes.left with hgoes | rfl
    · have := htakes.length_lt hgoes
      simp only [List.length_cons]
      omega
    · simp [hothers.eq_nil]

/-- An item after which nothing can follow comes last. -/
theorem goesOn (h : Pulls t items) {item : Item} (hitem : item ∈ items.dropLast) :
    item.GoesOn := by
  induction h with
  | exhausted => cases hitem
  | @item _ others reading block items h hblock hothers ih =>
    cases items with
    | nil => cases hitem
    | cons next items =>
      rw [List.dropLast_cons_cons] at hitem
      rcases List.mem_cons.1 hitem with rfl | hitem
      · rcases (takes_of_pull h hblock).left with hgoes | rfl
        · exact hgoes
        · exact absurd hothers.eq_nil (List.cons_ne_nil _ _)
      · exact ih hitem

end Pulls

/-- Pulling from the tokens of a text, also after errors, gives what the text is read as and comes
    to an end: one pull for each item and one that gives nothing, at most two more than there are
    tokens. The blocks of the items follow one another and are all the tokens. Each item is what its
    own block is read as. Only where no token can be read is a block empty, and a closing bracket
    that is not expected ends its block. All items but the last are forms or such brackets, so the
    text breaks off, or ends too early, at most once. -/
theorem pulls_source (source : String) :
    let t := Tokens.ofSource source.toList
    ∃ items, Pulls t items ∧
      items.map Item.reading = readAll source ∧
      items.length + 1 ≤ t.tokens.length + 2 ∧
      (items.map Item.block).flatten = t.tokens ∧
      (∀ item ∈ items,
        ofTokens ⟨item.block, item.invalid⟩ = [item.reading] ∧
        (item.block = [] → ∃ pos, item.reading = .error (.invalid pos)) ∧
        ∀ token, item.reading = .error (.unexpectedToken token) →
          (∃ bracket, token.lexeme = .closing bracket) ∧ item.block.getLast? = some token) ∧
      ∀ item ∈ items.dropLast, item.GoesOn := by
  intro t
  obtain ⟨items, hitems⟩ := exists_pulls t
  refine ⟨items, hitems, hitems.readings, Nat.succ_le_succ hitems.length_le,
    hitems.flatten_blocks, ?_, fun item hitem => hitems.goesOn hitem⟩
  intro item hitem
  obtain ⟨tokens, others, htakes⟩ := hitems.exists_takes hitem
  exact ⟨htakes.alone, htakes.invalid_of_nil rfl, htakes.closing⟩

end Form

end Lisplet
