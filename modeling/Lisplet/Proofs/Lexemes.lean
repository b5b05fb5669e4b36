import Lisplet.Proofs.ReadBack
import Lisplet.Proofs.Scanning

set_option autoImplicit false

/-! # Lexemes and their texts

A lexeme is read from its own text. What can be read at all has a certain shape (`Lexeme.Proper`:
a symbol or keyword is a word with the right first character, a string has no quote in it), and a
lexeme of that shape, if it is a number a finite one, is found again at the front of its text
whenever a word may end behind it (`Lexeme.Spells`).

Positions play no part in this. `Tokens.Lexes chars lexemes` says that a text has these lexemes and
nothing else, wherever it stands. -/

namespace Lisplet

namespace Lexeme

/-- The lexemes that a text can hold. -/
def Proper : Lexeme → Prop
  | .string s => '"' ∉ s.toList
  | .symbol s => IsSymbolWord s.toList
  | .keyword s => IsKeywordWord s.toList
  | _ => True

theorem Written.proper {lexeme : Lexeme} {chars rest : List Char} (h : Written lexeme chars rest) :
    lexeme.Proper := by
  cases h with
  | string _ hquote => simpa [Proper] using hquote
  | symbol hword _ => simpa [Proper] using hword
  | keyword hword _ => simpa [Proper] using hword
  | _ => trivial

/-- Whatever `scan` finds is proper. -/
theorem proper_of_scan {first : Char} {rest : List Char} {lexeme : Lexeme} {length : Nat}
    (h : scan first rest = .found lexeme length) : lexeme.Proper := by
  obtain ⟨_, _, _, _, hwritten⟩ := scan_eq_found_iff.1 h
  exact hwritten.proper

/-! ## A lexeme is found at the front of its text -/

/-- `chars` stands for the lexeme wherever a word may end behind it. -/
def Spells (chars : List Char) (lexeme : Lexeme) : Prop :=
  ∃ first others, chars = first :: others ∧
    ∀ rest, AtBoundary rest → scan first (others ++ rest) = .found lexeme (others.length + 1)

theorem spells_of_written {chars : List Char} {lexeme : Lexeme} (hne : chars ≠ [])
    (h : ∀ rest, AtBoundary rest → Written lexeme chars rest) : Spells chars lexeme := by
  obtain ⟨first, others, rfl⟩ := List.exists_cons_of_ne_nil hne
  exact ⟨first, others, rfl, fun rest hrest => scan_of_written (h rest hrest) rfl⟩

/-- The text of a decimal is a literal that denotes it. -/
theorem literal_text (d : Decimal) : ∃ pointed, Literal d.text.toList d pointed := by
  have hvalue := d.ofDigits_whole_fraction
  have hwhole : ∀ c ∈ d.whole, c.isDigit = true := fun c hc => Decimal.isDigit_of_mem_whole hc
  rw [Decimal.toList_text]
  split
  · next hplaces =>
    rw [Decimal.fraction_eq_nil hplaces] at hvalue
    have hliteral := Literal.whole d.whole_ne_nil hwhole
    rw [hvalue] at hliteral
    exact ⟨false, hliteral⟩
  · have hfraction : ∀ c ∈ d.fraction, c.isDigit = true :=
      fun c hc => Decimal.isDigit_of_mem_fraction hc
    have hliteral := Literal.pointed d.whole_ne_nil hwhole hfraction
    rw [hvalue] at hliteral
    exact ⟨true, hliteral⟩

theorem spells_literal {sign digits : List Char} {negative pointed : Bool} {decimal : Decimal}
    {d : Double} (hsign : SignText sign negative) (hdigits : Literal digits decimal pointed)
    (hd : Double.ofDecimal negative decimal = d) : Spells (sign ++ digits) (.number d) := by
  obtain ⟨digit, others, hcons, _⟩ := hdigits.head
  subst hd
  exact spells_of_written (by simp [hcons]) fun rest hrest => .number hsign hdigits hrest

/-- A number is spelled by the shortest decimal that reads back, with a sign in front of it if the
    number has one. -/
theorem spells_number {d : Double} (h : d.isFinite) : Spells d.text.toList (.number d) := by
  have hlt : d.magnitude < Double.infiniteMagnitude := by simpa [Double.isFinite] using h
  have hnan : d.isNaN = false := by simpa [Double.isNaN] using Nat.le_of_lt hlt
  have hinf : d.isInfinite = false := by simpa [Double.isInfinite] using Nat.ne_of_lt hlt
  have hread := Double.ofDecimal_shortest h
  obtain ⟨pointed, hliteral⟩ := literal_text d.shortest
  cases hneg : d.isNegative with
  | true =>
    have htext : d.text.toList = ['-'] ++ d.shortest.text.toList := by
      simp [Double.text, hnan, hinf, hneg]
    rw [hneg] at hread
    rw [htext]
    exact spells_literal .minus hliteral hread
  | false =>
    have htext : d.text.toList = d.shortest.text.toList := by
      simp [Double.text, hnan, hinf, hneg]
    rw [hneg] at hread
    rw [htext, ← List.nil_append d.shortest.text.toList]
    exact spells_literal .none hliteral hread

theorem spells_symbol {s : String} (h : IsSymbolWord s.toList) : Spells s.toList (.symbol s) := by
  have hne : s.toList ≠ [] := by
    obtain ⟨_, first, rest, hs, _⟩ := h
    simp [hs]
  refine spells_of_written hne fun rest hrest => ?_
  simpa using Written.symbol h hrest

theorem spells_keyword {s : String} (h : IsKeywordWord s.toList) :
    Spells (':' :: s.toList) (.keyword s) := by
  refine spells_of_written (by simp) fun rest hrest => ?_
  simpa using Written.keyword h hrest

theorem spells_string {s : String} (h : '"' ∉ s.toList) :
    Spells ('"' :: (s.toList ++ ['"'])) (.string s) := by
  refine spells_of_written (by simp) fun rest _ => ?_
  simpa using Written.string rest h

end Lexeme

/-! ## The lexemes of a text -/

namespace Tokens

/-- The lexemes of the tokens, without their places. -/
def lexemes (t : Tokens) : List Lexeme := t.tokens.map Token.lexeme

/-- The text has these lexemes and nothing that cannot be read, wherever it stands. -/
def Lexes (chars : List Char) (lexemes : List Lexeme) : Prop :=
  ∀ pos, (readFrom pos chars).lexemes = lexemes ∧ (readFrom pos chars).invalid = none

/-- The text is read whole as one lexeme. -/
def IsOnly (text : String) (lexeme : Lexeme) : Prop :=
  (ofSource text.toList).lexemes = [lexeme] ∧ (ofSource text.toList).invalid = none

instance (text : String) (lexeme : Lexeme) : Decidable (IsOnly text lexeme) :=
  inferInstanceAs (Decidable (_ ∧ _))

/-! ### One step of reading -/

variable {pos first : Pos} {chars rest : List Char} {c : Char}

theorem readFrom_end (hgap : Lexeme.skipGap false pos chars = (first, [])) :
    readFrom pos chars = ⟨[], none⟩ := by
  rw [readFrom]
  split
  · rfl
  · next h =>
    rw [hgap] at h
    simp at h

theorem readFrom_found {lexeme : Lexeme} {length : Nat}
    (hgap : Lexeme.skipGap false pos chars = (first, c :: rest))
    (hscan : Lexeme.scan c rest = .found lexeme length) :
    readFrom pos chars =
      let past := first.advance (c :: rest) length
      let others := readFrom past (rest.drop (length - 1))
      ⟨⟨lexeme, ⟨first, past⟩⟩ :: others.tokens, others.invalid⟩ := by
  rw [readFrom]
  split
  · next h =>
    rw [hgap] at h
    simp at h
  · next h =>
    rw [hgap] at h
    cases h
    rw [hscan]

theorem readFrom_invalid {offset : Nat}
    (hgap : Lexeme.skipGap false pos chars = (first, c :: rest))
    (hscan : Lexeme.scan c rest = .invalid offset) :
    readFrom pos chars = ⟨[], some (first.advance (c :: rest) offset)⟩ := by
  rw [readFrom]
  split
  · next h =>
    rw [hgap] at h
    simp at h
  · next h =>
    rw [hgap] at h
    cases h
    rw [hscan]

/-! ### Putting texts together -/

theorem lexes_nil : Lexes [] [] := by
  intro pos
  rw [readFrom_end rfl]
  exact ⟨rfl, rfl⟩

/-- A blank in front of a text changes nothing. -/
theorem Lexes.blank {lexemes : List Lexeme} (hc : Lexeme.isBlank c = true)
    (h : Lexes chars lexemes) : Lexes (c :: chars) lexemes := by
  intro pos
  have hgap : Lexeme.skipGap false pos (c :: chars)
      = Lexeme.skipGap false (pos.onto chars.head?) chars := by
    simp [Lexeme.skipGap, Lexeme.gapGoesOn, hc]
  have heq : readFrom pos (c :: chars) = readFrom (pos.onto chars.head?) chars := by
    rw [readFrom, readFrom, hgap]
  rw [heq]
  exact h _

/-- A lexeme starts neither with a blank nor with a comment. -/
theorem gapGoesOn_of_scan {lexeme : Lexeme} {length : Nat}
    (h : Lexeme.scan c rest = .found lexeme length) : Lexeme.gapGoesOn false c = none := by
  by_cases hc : Lexeme.isBlank c = true ∨ c = ';'
  · have hcases : c = ' ' ∨ c = '\t' ∨ c = '\r' ∨ c = '\n' ∨ c = ';' := by
      simpa [Lexeme.isBlank, or_assoc] using hc
    have hinvalid : Lexeme.scan c rest = .invalid 0 := by
      rcases hcases with rfl | rfl | rfl | rfl | rfl <;> rfl
    rw [hinvalid] at h
    simp at h
  · rw [not_or] at hc
    simp [Lexeme.gapGoesOn, hc]

/-- A lexeme in front of a text that has been read already. -/
theorem Lexes.cons {lexeme : Lexeme} {length : Nat} {lexemes : List Lexeme}
    (hscan : Lexeme.scan c rest = .found lexeme length)
    (h : Lexes (rest.drop (length - 1)) lexemes) : Lexes (c :: rest) (lexeme :: lexemes) := by
  intro pos
  have hgap : Lexeme.skipGap false pos (c :: rest) = (pos, c :: rest) := by
    rw [Lexeme.skipGap, gapGoesOn_of_scan hscan]
  obtain ⟨hlexemes, hinvalid⟩ := h (pos.advance (c :: rest) length)
  rw [readFrom_found hgap hscan]
  exact ⟨congrArg (lexeme :: ·) hlexemes, hinvalid⟩

/-- A text that spells a lexeme in front of a text where a word may end. -/
theorem Lexes.append {lexeme : Lexeme} {lexemes : List Lexeme}
    (hspells : Lexeme.Spells chars lexeme) (hrest : Lexeme.AtBoundary rest)
    (h : Lexes rest lexemes) : Lexes (chars ++ rest) (lexeme :: lexemes) := by
  obtain ⟨first, others, rfl, hscan⟩ := hspells
  rw [List.cons_append]
  refine Lexes.cons (hscan rest hrest) ?_
  rw [Nat.add_sub_cancel, List.drop_left]
  exact h

/-- The text has these lexemes in front of any text where a word may end. -/
def LexesInFront (chars : List Char) (lexemes : List Lexeme) : Prop :=
  ∀ rest others, Lexeme.AtBoundary rest → Lexes rest others →
    Lexes (chars ++ rest) (lexemes ++ others)

theorem LexesInFront.of_spells {lexeme : Lexeme} (h : Lexeme.Spells chars lexeme) :
    LexesInFront chars [lexeme] :=
  fun _ _ hrest hothers => Lexes.append h hrest hothers

theorem LexesInFront.nil : LexesInFront [] [] := fun _ _ _ hothers => hothers

/-- Two texts with a space between them. -/
theorem LexesInFront.space {chars' : List Char} {lexemes lexemes' : List Lexeme}
    (h : LexesInFront chars lexemes) (h' : LexesInFront chars' lexemes') :
    LexesInFront (chars ++ ' ' :: chars') (lexemes ++ lexemes') := by
  intro rest others hrest hothers
  rw [List.append_assoc, List.cons_append, List.append_assoc]
  exact h _ _ (Lexeme.AtBoundary.cons (by decide) _)
    (Lexes.blank (by decide) (h' rest others hrest hothers))

/-- A text in brackets: the opening bracket may stand before anything, and the closing one ends the
    word before it. -/
theorem LexesInFront.brackets {lexemes : List Lexeme} (bracket : Bracket)
    (h : LexesInFront chars lexemes) :
    LexesInFront (bracket.opener.toList ++ chars ++ bracket.closer.toList)
      (.opening bracket :: (lexemes ++ [.closing bracket])) := by
  intro rest others _ hothers
  obtain ⟨opener, hopener, hopening⟩ := Lexeme.scan_opening bracket
  obtain ⟨closer, hcloser, hends, hclosing⟩ := Lexeme.scan_closing bracket
  have hinner : Lexes (chars ++ closer :: rest) (lexemes ++ .closing bracket :: others) :=
    h _ _ (Lexeme.AtBoundary.cons hends rest) (Lexes.cons (hclosing rest) hothers)
  have hlexes := Lexes.cons (hopening (chars ++ closer :: rest)) hinner
  simpa [hopener, hcloser] using hlexes

/-- What spells a lexeme is read whole as that lexeme. -/
theorem isOnly_of_spells {text : String} {lexeme : Lexeme}
    (h : Lexeme.Spells text.toList lexeme) : IsOnly text lexeme := by
  have hlexes := Lexes.append h Lexeme.AtBoundary.nil lexes_nil
  rw [List.append_nil] at hlexes
  exact hlexes _

/-! ### Every token is proper -/

theorem proper_of_mem_tokens {token : Token} (h : token ∈ (readFrom pos chars).tokens) :
    token.lexeme.Proper := by
  fun_induction readFrom pos chars with
  | case1 => simp at h
  | case2 => simp at h
  | case3 pos chars first c rest hgap lexeme length hscan past others ih =>
    rcases List.mem_cons.1 h with rfl | hmem
    · exact Lexeme.proper_of_scan hscan
    · exact ih hmem

theorem proper_of_isOnly {text : String} {lexeme : Lexeme} (h : IsOnly text lexeme) :
    lexeme.Proper := by
  have hmem : lexeme ∈ (ofSource text.toList).lexemes := by
    rw [h.1]
    exact List.mem_singleton_self lexeme
  obtain ⟨token, htoken, rfl⟩ := List.mem_map.1 hmem
  exact proper_of_mem_tokens htoken

end Tokens

end Lisplet
