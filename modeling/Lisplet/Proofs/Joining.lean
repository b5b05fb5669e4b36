import Lisplet.Interpreter
import Lisplet.Proofs.Reading
import Lisplet.Proofs.Tiling

set_option autoImplicit false

/-! # Texts one below the other

Nothing that is open at the end of a line of complete forms reaches into the next line: a newline
ends every word and every comment. So a text that is read without error and a text below it are read
one after the other, as if each stood alone (`Form.readAll_append`); only the places in the lower
text are those of lines further down (`Pos.below`). They are run one after the other, too
(`Passes.runReadings_append`). -/

namespace Lisplet

/-! ## Places further down -/

namespace Pos

/-- The place of a character when the text stands below some lines. The characters of its first line
    then come after a newline, which takes the first column. -/
def below (lines : Nat) (p : Pos) : Pos :=
  if p.line = 1 then ⟨p.line + lines, p.col + 1⟩ else ⟨p.line + lines, p.col⟩

theorem one_le_line_onto {p : Pos} (h : 1 ≤ p.line) (next : Option Char) :
    1 ≤ (p.onto next).line := by
  unfold onto
  split
  · exact Nat.le_add_left 1 p.line
  · exact h

theorem below_onto (lines : Nat) {p : Pos} (h : 1 ≤ p.line) (next : Option Char) :
    (p.onto next).below lines = (p.below lines).onto next := by
  by_cases hnext : next = some '\n'
  · subst hnext
    have hline : (p.below lines).line = p.line + lines := by
      unfold below
      split <;> rfl
    rw [onto_newline, onto_newline, hline, below, if_neg (by simp only; omega), Nat.add_right_comm]
  · rw [onto_of_ne _ hnext, onto_of_ne _ hnext]
    unfold below
    simp only
    split <;> rfl

theorem one_le_line_advance {p : Pos} (h : 1 ≤ p.line) (chars : List Char) (count : Nat) :
    1 ≤ (p.advance chars count).line := by
  induction count generalizing p chars with
  | zero => rwa [advance_zero]
  | succ count ih =>
    cases chars with
    | nil => exact h
    | cons c rest => exact ih (one_le_line_onto h _) rest

theorem below_advance (lines : Nat) {p : Pos} (h : 1 ≤ p.line) (chars : List Char) (count : Nat) :
    (p.advance chars count).below lines = (p.below lines).advance chars count := by
  induction count generalizing p chars with
  | zero => rw [advance_zero, advance_zero]
  | succ count ih =>
    cases chars with
    | nil => rfl
    | cons c rest => rw [advance, advance, ih (one_le_line_onto h _), below_onto lines h]

/-- The newline between two texts, and with it the lower text, is below the lines of the upper
    one. -/
theorem advance_newline (a b : List Char) :
    (start.onto (a ++ '\n' :: b).head?).advance (a ++ '\n' :: b) a.length
      = start.below (a.count '\n' + 1) := by
  have hlength : a.length ≤ (a ++ '\n' :: b).length := by simp
  have hplace := advance_ofIndex (Nat.zero_le a.length) hlength
  have hnewline : (a ++ '\n' :: b)[a.length]? = some '\n' := by simp
  have htake : (a ++ '\n' :: b).take (a.length + 1) = a ++ ['\n'] := by
    rw [List.take_length_add_append]
    rfl
  -- The newline counts as the last one at its own index.
  have hlast : lastNewline? (a ++ '\n' :: b) a.length = some a.length := by
    unfold lastNewline?
    split
    · next hzero => rw [hzero] at hnewline; simp_all
    · next i hsucc => rw [hsucc] at hnewline; simp_all
  rw [List.drop_zero, Nat.sub_zero, ofIndex_zero] at hplace
  rw [hplace, ofIndex, hlast, htake]
  simp [below, start, List.count_append]

end Pos

def Span.below (lines : Nat) (s : Span) : Span := ⟨s.first.below lines, s.past.below lines⟩

def Token.below (lines : Nat) (t : Token) : Token := ⟨t.lexeme, t.span.below lines⟩

/-- The same tokens in a text that stands below some lines. -/
def Tokens.below (lines : Nat) (t : Tokens) : Tokens :=
  ⟨t.tokens.map (Token.below lines), t.invalid.map (Pos.below lines)⟩

theorem Tokens.readFrom_below (lines : Nat) {pos : Pos} (h : 1 ≤ pos.line) (text : List Char) :
    readFrom (pos.below lines) text = (readFrom pos text).below lines := by
  induction text using induction_parts generalizing pos with
  | done gap hgap =>
    rw [readFrom_gap _ hgap, readFrom_gap _ hgap]
    rfl
  | spoiled gap text offset hgap hspoiled =>
    rw [readFrom_spoiled _ hgap hspoiled, readFrom_spoiled _ hgap hspoiled,
      ← Pos.below_advance lines h, ← Pos.below_advance lines (Pos.one_le_line_advance h _ _)]
    rfl
  | written lexeme gap chars rest hgap hwritten ih =>
    have hfirst := Pos.one_le_line_advance h (gap ++ (chars ++ rest)) gap.length
    have hpast := Pos.one_le_line_advance hfirst (chars ++ rest) chars.length
    rw [readFrom_written _ hgap hwritten (Pos.below_advance lines h _ _).symm
      (Pos.below_advance lines hfirst _ _).symm, readFrom_written _ hgap hwritten rfl rfl, ih hpast]
    rfl

/-! ## What a newline ends -/

namespace Lexeme

/-- A gap goes by the next character only. -/
theorem Gap.congr {gap rest rest' : List Char} (h : Gap gap rest)
    (hhead : rest'.head? = rest.head?) : Gap gap rest' := by
  induction h with
  | nil hrest => exact .nil (hhead ▸ hrest)
  | blank hblank _ ih => exact .blank hblank (ih hhead)
  | comment htext hnewline _ ih =>
    refine .comment htext ?_ (ih hhead)
    rwa [List.head?_append, hhead, ← List.head?_append]

/-- A newline behind a last gap joins it to the gap below. -/
theorem Gap.append_newline {gap gap' rest : List Char} (h : Gap gap []) (h' : Gap gap' rest) :
    Gap (gap ++ '\n' :: gap') rest := by
  generalize hnil : ([] : List Char) = last at h
  induction h with
  | nil => exact .blank (by decide) h'
  | blank hblank _ ih => exact .blank hblank (ih hnil)
  | @comment text gap _ htext hnewline _ ih =>
    subst hnil
    rw [List.cons_append, List.append_assoc]
    refine .comment htext ?_ (ih rfl)
    intro c hc
    cases gap with
    | nil => simpa [eq_comm] using hc
    | cons first gap => exact hnewline c (by simpa using hc)

theorem AtBoundary.append_newline {rest : List Char} (h : AtBoundary rest) (more : List Char) :
    AtBoundary (rest ++ '\n' :: more) := by
  cases rest with
  | nil => exact .cons (by decide) more
  | cons c rest => exact .cons (h c rfl) _

theorem Written.append_newline {lexeme : Lexeme} {chars rest : List Char}
    (h : Written lexeme chars rest) (more : List Char) :
    Written lexeme chars (rest ++ '\n' :: more) := by
  cases h with
  | number hsign hdigits hrest => exact .number hsign hdigits (hrest.append_newline more)
  | string _ hquote => exact .string _ hquote
  | symbol hword hrest => exact .symbol hword (hrest.append_newline more)
  | keyword hword hrest => exact .keyword hword (hrest.append_newline more)
  | opening bracket => exact .opening bracket _
  | closing bracket => exact .closing bracket _
  | mark mark hrest =>
    refine .mark mark fun hmark => ?_
    have hrest := hrest hmark
    cases rest with
    | nil => simp
    | cons c rest => exact hrest

/-- A newline mends nothing. -/
theorem Spoiled.append_newline {text : List Char} {offset : Nat} (h : Spoiled text offset) :
    ∃ offset, Spoiled (text ++ ['\n']) offset := by
  cases h with
  | start rest hc => exact ⟨_, .start _ hc⟩
  | number rest hsign hdigits hend hdigit hpoint =>
    rw [List.append_assoc]
    exact ⟨_, .number _ hsign hdigits hend hdigit hpoint⟩
  | string hquote => exact ⟨_, .string (by simpa using hquote)⟩
  | @keyword rest hrest =>
    rw [List.cons_append]
    refine ⟨1, .keyword fun c hc => ?_⟩
    cases rest with
    | nil =>
      obtain rfl : '\n' = c := by simpa using hc
      decide
    | cons first rest => exact hrest c (by simpa using hc)

/-- Behind the last gap of a text, the text below goes on. -/
theorem skipGap_append_newline {gap : List Char} (h : Gap gap []) (pos : Pos) (lower : List Char) :
    skipGap false pos (gap ++ '\n' :: lower)
      = skipGap false (pos.advance (gap ++ '\n' :: lower) (gap.length + 1)) lower := by
  obtain ⟨gap', rest, rfl, hgap'⟩ := exists_gap lower
  have hjoined := skipGap_of_gap (h.append_newline hgap') pos
  have hlength : (gap ++ '\n' :: gap').length = gap.length + 1 + gap'.length := by
    simp only [List.length_append, List.length_cons]
    omega
  have hdrop : (gap ++ '\n' :: (gap' ++ rest)).drop (gap.length + 1) = gap' ++ rest := by
    rw [← List.drop_drop, List.drop_left, List.drop_one, List.tail_cons]
  rw [List.append_assoc, List.cons_append, hlength, Pos.advance_add, hdrop] at hjoined
  rw [hjoined, skipGap_of_gap hgap']

end Lexeme

/-! ## The tokens of two texts -/

namespace Tokens

theorem readFrom_congr {pos pos' : Pos} {text text' : List Char}
    (h : Lexeme.skipGap false pos text = Lexeme.skipGap false pos' text') :
    readFrom pos text = readFrom pos' text' := by
  rw [readFrom, readFrom, h]

/-- A lexeme is read in the same way above another text, and from there on it is read on. -/
theorem exists_readFrom_written {lexeme : Lexeme} {gap chars rest : List Char}
    (hgap : Lexeme.Gap gap (chars ++ rest)) (hwritten : Lexeme.Written lexeme chars rest)
    (pos : Pos) (lower : List Char) :
    ∃ span past,
      (∀ count, past.advance (rest ++ '\n' :: lower) count
        = pos.advance (gap ++ (chars ++ rest) ++ '\n' :: lower) ((gap ++ chars).length + count)) ∧
      readFrom pos (gap ++ (chars ++ rest) ++ '\n' :: lower)
        = ⟨⟨lexeme, span⟩ :: (readFrom past (rest ++ '\n' :: lower)).tokens,
            (readFrom past (rest ++ '\n' :: lower)).invalid⟩ := by
  have hhead : (chars ++ (rest ++ '\n' :: lower)).head? = (chars ++ rest).head? := by
    obtain ⟨c, others, rfl⟩ := List.exists_cons_of_ne_nil hwritten.ne_nil
    rfl
  have hread := readFrom_written pos (hgap.congr hhead) (hwritten.append_newline lower) rfl rfl
  rw [List.append_assoc, List.append_assoc]
  refine ⟨_, _, fun count => ?_, hread⟩
  rw [List.length_append, Nat.add_assoc, Pos.advance_add, List.drop_left, Pos.advance_add,
    List.drop_left]

/-- A text that is read to its end is read in the same way above another one, which is read as it is
    read at its place. -/
theorem exists_readFrom_append_newline {pos : Pos} {upper : List Char}
    (h : (readFrom pos upper).invalid = none) (pos' : Pos) (lower : List Char) :
    ∃ front, front.map Token.lexeme = (readFrom pos upper).lexemes ∧
      let others := readFrom (pos'.advance (upper ++ '\n' :: lower) (upper.length + 1)) lower
      readFrom pos' (upper ++ '\n' :: lower) = ⟨front ++ others.tokens, others.invalid⟩ := by
  -- The two readings of the upper text start at different places, so only its lexemes agree.
  induction upper using induction_parts generalizing pos pos' with
  | done gap hgap =>
    refine ⟨[], ?_, readFrom_congr (Lexeme.skipGap_append_newline hgap pos' lower)⟩
    rw [readFrom_gap pos hgap]
    rfl
  | spoiled gap text offset hgap hspoiled =>
    rw [readFrom_spoiled pos hgap hspoiled] at h
    cases h
  | written lexeme gap chars rest hgap hwritten ih =>
    rw [readFrom_written _ hgap hwritten rfl rfl] at h ⊢
    obtain ⟨span, past, hpast, hread⟩ := exists_readFrom_written hgap hwritten pos' lower
    obtain ⟨front, hfront, hothers⟩ := ih h past
    have hlength : (gap ++ chars).length + (rest.length + 1)
        = (gap ++ (chars ++ rest)).length + 1 := by
      simp only [List.length_append]
      omega
    rw [hpast, hlength] at hothers
    refine ⟨⟨lexeme, span⟩ :: front, congrArg (lexeme :: ·) hfront, ?_⟩
    rw [hread, hothers]
    rfl

/-- What is in the way of a lexeme stays in the way when a newline follows. -/
theorem invalid_append_newline {pos : Pos} {text : List Char}
    (h : (readFrom pos text).invalid ≠ none) (pos' : Pos) :
    (readFrom pos' (text ++ ['\n'])).invalid ≠ none := by
  induction text using induction_parts generalizing pos pos' with
  | done gap hgap =>
    rw [readFrom_gap pos hgap] at h
    exact absurd rfl h
  | spoiled gap text offset hgap hspoiled =>
    obtain ⟨c, others, rfl⟩ := hspoiled.exists_cons
    obtain ⟨offset', hspoiled'⟩ := hspoiled.append_newline
    have hgap' : Lexeme.Gap gap (c :: others ++ ['\n']) := hgap.congr rfl
    rw [List.append_assoc, readFrom_spoiled pos' hgap' hspoiled']
    simp
  | written lexeme gap chars rest hgap hwritten ih =>
    rw [readFrom_written _ hgap hwritten rfl rfl] at h
    obtain ⟨span, past, _, hread⟩ := exists_readFrom_written hgap hwritten pos' []
    rw [hread]
    exact ih h past

/-- The tokens of a text above another one are those of both texts; the lower one has lost nothing
    but its place. -/
theorem exists_ofSource_append_newline {upper : List Char} (h : (ofSource upper).invalid = none)
    (lower : List Char) :
    ∃ front, front.map Token.lexeme = (ofSource upper).lexemes ∧
      let others := (ofSource lower).below (upper.count '\n' + 1)
      ofSource (upper ++ '\n' :: lower) = ⟨front ++ others.tokens, others.invalid⟩ := by
  obtain ⟨front, hfront, hread⟩ := exists_readFrom_append_newline h
    (Pos.start.onto (upper ++ '\n' :: lower).head?) lower
  have hline : 1 ≤ Pos.start.line := Nat.le_refl 1
  rw [Pos.advance_add, Pos.advance_newline, List.drop_left, Pos.advance, Pos.advance_zero,
    ← Pos.below_onto _ hline, readFrom_below _ (Pos.one_le_line_onto hline _)] at hread
  exact ⟨front, hfront, hread⟩

end Tokens

/-! ## The forms of two texts -/

/-- The same error in a text that stands below some lines. -/
def ReadError.below (lines : Nat) : ReadError → ReadError
  | .invalid pos => .invalid (pos.below lines)
  | .unexpectedToken token => .unexpectedToken (token.below lines)
  | .unexpectedEnd => .unexpectedEnd
  | .tooDeep => .tooDeep

namespace Form

/-- Reading does not look at places. -/
theorem readFrom_below (lines : Nat) (invalid : Option Pos) (stack : List Frame)
    (tokens : List Token) :
    readFrom (invalid.map (Pos.below lines)) stack (tokens.map (Token.below lines))
      = (readFrom invalid stack tokens).map (Except.mapError (ReadError.below lines)) := by
  induction tokens generalizing stack with
  | nil => cases invalid <;> cases stack <;> rfl
  | cons token tokens ih =>
    have hlexeme : (token.below lines).lexeme = token.lexeme := rfl
    rw [List.map_cons, readFrom_cons, readFrom_cons, hlexeme]
    cases step stack token.lexeme with
    | within frames => exact ih frames
    | complete form => exact congrArg (_ :: ·) (ih [])
    | unexpected => exact congrArg (_ :: ·) (ih [])
    | tooDeep => rfl

/-- Tokens that are read without error leave nothing open to the tokens behind them. -/
theorem readFrom_append {stack : List Frame} {tokens tokens' : List Token} {forms : List Node}
    {invalid : Option Pos} (h : untilError (readFrom invalid stack tokens) = .ok forms)
    (htokens : tokens'.map Token.lexeme = tokens.map Token.lexeme) (invalid' : Option Pos)
    (rest : List Token) :
    readFrom invalid' stack (tokens' ++ rest) = forms.map .ok ++ readFrom invalid' [] rest := by
  induction tokens generalizing stack tokens' forms with
  | nil =>
    rw [List.map_eq_nil_iff.1 htokens]
    cases invalid with
    | some pos => cases h
    | none =>
      cases stack with
      | nil =>
        cases h
        rfl
      | cons frame outer => cases h
  | cons token tokens ih =>
    obtain ⟨token', others, rfl, htoken, hothers⟩ := List.map_eq_cons_iff.1 htokens
    rw [readFrom_cons] at h
    rw [List.cons_append, readFrom_cons, htoken]
    cases hstep : step stack token.lexeme with
    | within frames =>
      rw [hstep, resume] at h
      exact ih h hothers
    | complete form =>
      rw [hstep, resume] at h
      obtain ⟨more, rfl, hmore⟩ := untilError_cons_ok h
      exact congrArg (.ok form :: ·) (ih hmore hothers)
    | unexpected =>
      rw [hstep] at h
      cases h
    | tooDeep =>
      rw [hstep] at h
      cases h

/-- A text that is read without error is read to its end. -/
theorem invalid_eq_none {tokens : Tokens} {forms : List Node}
    (h : untilError (ofTokens tokens) = .ok forms) : tokens.invalid = none := by
  cases hinvalid : tokens.invalid with
  | none => rfl
  | some pos =>
    have hend := readFrom_append h rfl tokens.invalid []
    rw [List.append_nil, hinvalid] at hend
    rw [ofTokens, hinvalid, hend, untilError_append] at h
    cases h

theorem parse_append_newline {text : String} {forms : List Node} (h : parse text = .ok forms) :
    parse (text ++ "\n") = .ok forms := by
  obtain ⟨front, hfront, htokens⟩ := Tokens.exists_ofSource_append_newline (invalid_eq_none h) []
  have hread := readFrom_append h hfront none []
  have hsource : (text ++ "\n").toList = text.toList ++ ['\n'] := by simp
  rw [parse, readAll, hsource, htokens]
  have hnil : Tokens.ofSource [] = ⟨[], none⟩ := Tokens.readFrom_end rfl
  simp only [hnil, Tokens.below, List.map_nil, Option.map_none, ofTokens]
  rw [hread, untilError_append]
  simp [readFrom, atEnd, untilError, Except.map]

/-- A text that is read without error stands above another one: its forms are followed by what is
    read from the lower text. -/
theorem readAll_append {upper : String} {forms : List Node} (h : parse (upper ++ "\n") = .ok forms)
    (lower : String) :
    readAll (upper ++ "\n" ++ lower) = forms.map .ok ++
      (readAll lower).map (Except.mapError (ReadError.below (upper.toList.count '\n' + 1))) := by
  have hline : (upper ++ "\n").toList = upper.toList ++ ['\n'] := by simp
  have hsource : (upper ++ "\n" ++ lower).toList = upper.toList ++ '\n' :: lower.toList := by simp
  -- The newline alone would not mend the upper text, so it is read to its end without it.
  have hupper : (Tokens.ofSource upper.toList).invalid = none := by
    by_contra hinvalid
    have hspoiled := Tokens.invalid_append_newline hinvalid
      (Pos.start.onto (upper.toList ++ ['\n']).head?)
    rw [← Tokens.ofSource, ← hline] at hspoiled
    exact hspoiled (invalid_eq_none h)
  obtain ⟨alone, halone, htokens⟩ := Tokens.exists_ofSource_append_newline hupper []
  obtain ⟨front, hfront, htokens'⟩ := Tokens.exists_ofSource_append_newline hupper lower.toList
  have hnil : Tokens.ofSource [] = ⟨[], none⟩ := Tokens.readFrom_end rfl
  rw [parse, readAll, hline, htokens, hnil] at h
  rw [readAll, hsource, htokens']
  simp only [Tokens.below, List.map_nil, Option.map_none, List.append_nil, ofTokens] at h ⊢
  rw [readFrom_append h (hfront.trans halone.symm), readFrom_below]
  rfl

/-- If both texts are read without error, the forms of both are read. -/
theorem parse_append {upper lower : String} {forms others : List Node}
    (h : parse (upper ++ "\n") = .ok forms) (hlower : parse lower = .ok others) :
    parse (upper ++ "\n" ++ lower) = .ok (forms ++ others) := by
  have hread := readAll_append h lower
  rw [eq_map_ok hlower, List.map_map] at hread
  have hend : untilError (others.map .ok) = .ok others := by
    rw [← List.append_nil (others.map _), untilError_append]
    simp [untilError, Except.map]
  rw [parse, hread, untilError_append]
  exact congrArg (Except.map (forms ++ ·)) hend

/-- A text that is read without error stands above any other text, however malformed. The lower text
    gives the forms and errors that it gives alone, and its errors are further down by the lines of
    the upper text and the newline between the two. -/
theorem readAll_above {upper : String} {forms : List Node} (h : parse upper = .ok forms)
    (lower : String) :
    readAll (upper ++ "\n" ++ lower) = forms.map .ok ++
      (readAll lower).map (Except.mapError (ReadError.below (upper.toList.count '\n' + 1))) :=
  readAll_append (parse_append_newline h) lower

/-- The upper text ends in a comment, and the lower one has an error in its first line, one in its
    second line and a string without an end. -/
theorem readAll_above_sample :
    parse "a\n(b) ;c" = .ok [.symbol ⟨none, "a"⟩, .list [.symbol ⟨none, "b"⟩]] ∧
      readAll ("a\n(b) ;c" ++ "\n" ++ ")\n ] \"")
        = [.ok (.symbol ⟨none, "a"⟩), .ok (.list [.symbol ⟨none, "b"⟩]),
            .error (.unexpectedToken ⟨.closing .round, ⟨⟨3, 2⟩, ⟨4, 1⟩⟩⟩),
            .error (.unexpectedToken ⟨.closing .square, ⟨⟨4, 3⟩, ⟨4, 4⟩⟩⟩),
            .error (.invalid ⟨4, 6⟩)] := by
  have hupper : Tokens.ofSource "a\n(b) ;c".toList
      = ⟨[⟨.symbol "a", ⟨⟨1, 1⟩, ⟨2, 1⟩⟩⟩, ⟨.opening .round, ⟨⟨2, 2⟩, ⟨2, 3⟩⟩⟩,
          ⟨.symbol "b", ⟨⟨2, 3⟩, ⟨2, 4⟩⟩⟩, ⟨.closing .round, ⟨⟨2, 4⟩, ⟨2, 5⟩⟩⟩], none⟩ := by
    decide +kernel
  have hlower : Tokens.ofSource ")\n ] \"".toList
      = ⟨[⟨.closing .round, ⟨⟨1, 1⟩, ⟨2, 1⟩⟩⟩, ⟨.closing .square, ⟨⟨2, 3⟩, ⟨2, 4⟩⟩⟩],
          some ⟨2, 6⟩⟩ := by
    decide +kernel
  have hparse : parse "a\n(b) ;c"
      = .ok [.symbol ⟨none, "a"⟩, .list [.symbol ⟨none, "b"⟩]] := by
    rw [parse, readAll, ofTokens, hupper]
    rfl
  refine ⟨hparse, ?_⟩
  rw [readAll_above hparse, readAll, ofTokens, hlower]
  rfl

/-- The text has a form in it. -/
def HasForm (text : String) : Prop := ∃ form, .ok form ∈ readAll text

theorem any_isOk_iff (text : String) : (readAll text).any Except.isOk = true ↔ HasForm text := by
  rw [List.any_eq_true, HasForm]
  constructor
  · rintro ⟨reading, hmem, hok⟩
    cases reading with
    | ok form => exact ⟨form, hmem⟩
    | error e => cases hok
  · rintro ⟨form, hmem⟩
    exact ⟨.ok form, hmem, rfl⟩

instance (text : String) : Decidable (HasForm text) := decidable_of_iff _ (any_isOk_iff text)

/-- A text of blanks has no forms. -/
theorem parse_of_blank {text : String} (h : ∀ c ∈ text.toList, Lexeme.isBlank c = true) :
    parse text = .ok [] := by
  have hgap : Lexeme.Gap text.toList [] := by
    generalize text.toList = chars at h
    induction chars with
    | nil => exact .nil (by simp)
    | cons c chars ih =>
      have hrest := ih fun other hother => h other (List.mem_cons_of_mem c hother)
      exact .blank (h c List.mem_cons_self) hrest
  rw [parse, readAll, Tokens.ofSource, Tokens.readFrom_gap _ hgap]
  rfl

theorem hasForm_iff {text : String} {forms : List Node} (h : parse text = .ok forms) :
    HasForm text ↔ forms ≠ [] := by
  rw [HasForm, eq_map_ok h]
  cases forms <;> simp

end Form

/-! ## Running readings in sequence -/

namespace Passes

variable (p : Passes) (id : ScopeId) (fault : ReadError → Fault)

/-- Readings are run one part after the other. -/
theorem runReadings_append (result : Node) (front back : List Reading) :
    p.runReadings id fault result (front ++ back)
      = p.runReadings id fault result front >>= fun value => p.runReadings id fault value back := by
  induction front generalizing result with
  | nil => rfl
  | cons reading front ih =>
    cases reading with
    | error e => rfl
    | ok form =>
      simp only [List.cons_append, runReadings, bind_assoc]
      exact congrArg _ (funext ih)

/-- The value before the first form is soon forgotten. -/
theorem runReadings_of_ne_nil (result result' : Node) {readings : List Reading}
    (h : readings ≠ []) :
    p.runReadings id fault result readings = p.runReadings id fault result' readings := by
  cases readings with
  | nil => exact absurd rfl h
  | cons reading readings => cases reading <;> rfl

variable {p id fault}

/-- Readings that are run to a value have no error among them. -/
theorem exists_untilError_of_runReadings {result value : Node} {readings : List Reading}
    {t t' : ScopeTree} (h : p.runReadings id fault result readings t = .ok value t') :
    ∃ forms, Form.untilError readings = .ok forms := by
  induction readings generalizing result t with
  | nil => exact ⟨[], rfl⟩
  | cons reading readings ih =>
    cases reading with
    | error e => cases h
    | ok form =>
      simp only [runReadings, Bind.bind, EStateM.bind] at h
      cases hrun : p.run id form t with
      | error fault t₁ =>
        rw [hrun] at h
        cases h
      | ok first t₁ =>
        rw [hrun] at h
        obtain ⟨forms, hforms⟩ := ih h
        exact ⟨form :: forms, by rw [Form.untilError, hforms]; rfl⟩

end Passes

/-- A value is the result of the computation, and the interpreter has the tree after it. -/
theorem Interpreter.apply_of_perform_ok {α : Type} {i : Interpreter} {computation : Eval α}
    {value : α} (h : (i.perform computation).1 = .ok value) :
    computation i.tree = .ok value (i.perform computation).2.tree := by
  unfold perform EStateM.run at h ⊢
  cases hrun : computation i.tree with
  | ok other tree =>
    rw [hrun] at h
    cases h
    rfl
  | error fault tree =>
    rw [hrun] at h
    cases h

theorem Interpreter.perform_of_apply {α : Type} {i : Interpreter} {computation : Eval α}
    {value : α} {tree : ScopeTree} (h : computation i.tree = .ok value tree) :
    i.perform computation = (.ok value, { i with tree := tree }) := by
  unfold perform EStateM.run
  rw [h]

end Lisplet
