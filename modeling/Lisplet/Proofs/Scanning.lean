import Mathlib.Data.List.TakeWhile
import Lisplet.Token.Lexer

set_option autoImplicit false

/-! # One lexeme

What `Lexeme.scan` does is said here without a word on how it does it. `Written lexeme chars rest`
says how a lexeme stands in a text: `chars` are its own characters, and `rest` is the text behind
them, which decides where a word ends and whether `~` goes with an `@`. `Spoiled text offset` says
which character of a text is in the way of a lexeme.

At the front of a text there is one or the other (`written_or_spoiled`), and `scan` finds it
(`scan_of_written`, `scan_of_spoiled`), so that it finds exactly what is written
(`scan_eq_found_iff`). -/

namespace Lisplet

namespace Lexeme

/-! ## Where words end -/

/-- Whether a word may end before `rest`. -/
def AtBoundary (rest : List Char) : Prop := ∀ c, rest.head? = some c → endsWord c = true

theorem AtBoundary.nil : AtBoundary [] := by
  intro c h
  simp at h

theorem AtBoundary.cons {c : Char} (h : endsWord c = true) (rest : List Char) :
    AtBoundary (c :: rest) := by
  intro other hother
  rw [List.head?_cons, Option.some.injEq] at hother
  exact hother ▸ h

/-- The characters that end words, one by one. -/
theorem eq_of_endsWord {c : Char} (h : endsWord c = true) :
    c = ' ' ∨ c = '\t' ∨ c = '\r' ∨ c = '\n' ∨ c = ')' ∨ c = ']' ∨ c = ';' := by
  simpa [endsWord, isBlank, or_assoc] using h

theorem isDigit_eq_false_of_endsWord {c : Char} (h : endsWord c = true) : c.isDigit = false := by
  rcases eq_of_endsWord h with rfl | rfl | rfl | rfl | rfl | rfl | rfl <;> decide

theorem AtBoundary.any_isDigit {rest : List Char} (h : AtBoundary rest) :
    rest.head?.any Char.isDigit = false := by
  cases hrest : rest.head? with
  | none => rfl
  | some c => exact isDigit_eq_false_of_endsWord (h c hrest)

theorem AtBoundary.word_eq_nil {rest : List Char} (h : AtBoundary rest) : word rest = [] := by
  cases rest with
  | nil => rfl
  | cons c rest => simp [word, h c rfl]

theorem wholeWord_of_atBoundary (lexeme : Lexeme) (length : Nat) {rest : List Char}
    (h : AtBoundary rest) : wholeWord lexeme length rest = .found lexeme length := by
  cases rest with
  | nil => rfl
  | cons c rest => simp [wholeWord, h c rfl]

/-- Characters that do not end words and that stand before a boundary are a word. -/
theorem word_append {chars rest : List Char} (hchars : ∀ c ∈ chars, endsWord c = false)
    (hrest : AtBoundary rest) : word (chars ++ rest) = chars := by
  have hnot : ∀ c ∈ chars, (!endsWord c) = true := by
    intro c hc
    rw [hchars c hc, Bool.not_false]
  rw [word, List.takeWhile_append_of_pos hnot]
  exact (congrArg (chars ++ ·) hrest.word_eq_nil).trans (List.append_nil chars)

theorem endsWord_of_mem_word {chars : List Char} {c : Char} (h : c ∈ word chars) :
    endsWord c = false := by
  simpa using List.mem_takeWhile_imp h

/-- Behind the longest word at the front of a text there is a boundary. -/
theorem exists_word (chars : List Char) :
    ∃ rest, chars = word chars ++ rest ∧ AtBoundary rest := by
  refine ⟨chars.dropWhile (!endsWord ·), List.takeWhile_append_dropWhile.symm, ?_⟩
  intro c hc
  have hnot := List.head?_dropWhile_not (!endsWord ·) chars
  rw [hc] at hnot
  simpa using hnot

/-! ## How lexemes are written -/

/-- A word that is read as a symbol: it starts like a symbol, or with a sign that no digit
    follows. -/
def IsSymbolWord (chars : List Char) : Prop :=
  (∀ c ∈ chars, endsWord c = false) ∧
    ∃ first rest, chars = first :: rest ∧
      if isSign first then rest.head?.any Char.isDigit = false else startsSymbol first = true

/-- A word that is read as a keyword when it stands behind a colon. -/
def IsKeywordWord (chars : List Char) : Prop :=
  (∀ c ∈ chars, endsWord c = false) ∧
    ∃ first rest, chars = first :: rest ∧ startsKeyword first = true

/-- A sign that may be left out, and whether it is a minus. -/
inductive SignText : List Char → Bool → Prop where
  | none : SignText [] false
  | plus : SignText ['+'] false
  | minus : SignText ['-'] true

/-- The digits of a number and the decimal that they denote: at least one digit and then, if it is
    `pointed`, a point with any number of digits behind it. -/
inductive Literal : List Char → Decimal → Bool → Prop where
  | whole {digits : List Char} : digits ≠ [] → (∀ c ∈ digits, c.isDigit = true) →
      Literal digits (Decimal.ofDigits digits []) false
  | pointed {digits fraction : List Char} : digits ≠ [] → (∀ c ∈ digits, c.isDigit = true) →
      (∀ c ∈ fraction, c.isDigit = true) →
      Literal (digits ++ '.' :: fraction) (Decimal.ofDigits digits fraction) true

/-- The lexeme is written `chars` in a text that goes on with `rest`. -/
inductive Written : Lexeme → List Char → List Char → Prop where
  | number {sign digits rest : List Char} {negative pointed : Bool} {decimal : Decimal} :
      SignText sign negative → Literal digits decimal pointed → AtBoundary rest →
      Written (.number (Double.ofDecimal negative decimal)) (sign ++ digits) rest
  | string {text : List Char} (rest : List Char) : '"' ∉ text →
      Written (.string (String.ofList text)) ('"' :: (text ++ ['"'])) rest
  | symbol {word rest : List Char} : IsSymbolWord word → AtBoundary rest →
      Written (.symbol (String.ofList word)) word rest
  | keyword {word rest : List Char} : IsKeywordWord word → AtBoundary rest →
      Written (.keyword (String.ofList word)) (':' :: word) rest
  | opening (bracket : Bracket) (rest : List Char) :
      Written (.opening bracket) bracket.opener.toList rest
  | closing (bracket : Bracket) (rest : List Char) :
      Written (.closing bracket) bracket.closer.toList rest
  | mark (mark : Mark) {rest : List Char} : (mark = .unquote → rest.head? ≠ some '@') →
      Written (.mark mark) mark.text.toList rest

/-- The characters with which a lexeme can start. -/
def startsLexeme (c : Char) : Bool :=
  isSign c || startsSymbol c || c.isDigit ||
    ['"', ':', '~', '\'', '\x60', '(', ')', '[', ']'].contains c

/-- No lexeme stands at the front of the text, because of the character at the offset; an offset
    equal to the length of the text stands for its end. -/
inductive Spoiled : List Char → Nat → Prop where
  | start {c : Char} (rest : List Char) : startsLexeme c = false → Spoiled (c :: rest) 0
  /-- A number is followed by something that neither belongs to it nor ends it. -/
  | number {sign digits : List Char} {negative pointed : Bool} {decimal : Decimal} {c : Char}
      (rest : List Char) : SignText sign negative → Literal digits decimal pointed →
      endsWord c = false → c.isDigit = false → (c = '.' → pointed = true) →
      Spoiled (sign ++ digits ++ c :: rest) (sign ++ digits).length
  /-- A string has no end. -/
  | string {text : List Char} : '"' ∉ text → Spoiled ('"' :: text) (text.length + 1)
  | keyword {rest : List Char} : (∀ c, rest.head? = some c → startsKeyword c = false) →
      Spoiled (':' :: rest) 1

/-! ## The branches of `scan` -/

theorem scan_signedNumber {first : Char} {rest : List Char} (hsign : isSign first = true)
    (hdigit : rest.head?.any Char.isDigit = true) :
    scan first rest = (scanNumber (first == '-') rest).shift 1 := by
  unfold scan
  rw [if_pos hsign, if_pos hdigit]

theorem scan_signSymbol {first : Char} {rest : List Char} (hsign : isSign first = true)
    (hdigit : rest.head?.any Char.isDigit = false) :
    scan first rest = scanSymbol (first :: rest) := by
  unfold scan
  rw [if_pos hsign, hdigit, if_neg Bool.false_ne_true]

theorem scan_symbol {first : Char} (hsign : isSign first = false)
    (hfirst : startsSymbol first = true) (rest : List Char) :
    scan first rest = scanSymbol (first :: rest) := by
  unfold scan
  rw [hsign, if_neg Bool.false_ne_true, if_pos hfirst]

theorem eq_of_isSign {c : Char} (h : isSign c = true) : c = '+' ∨ c = '-' := by
  simpa [isSign] using h

theorem isSign_eq_false_of_isDigit {c : Char} (h : c.isDigit = true) : isSign c = false := by
  rw [Bool.eq_false_iff]
  intro hsign
  rcases eq_of_isSign hsign with rfl | rfl <;> exact absurd h (by decide)

theorem startsSymbol_eq_false_of_isDigit {c : Char} (h : c.isDigit = true) :
    startsSymbol c = false := by
  rw [Bool.eq_false_iff]
  intro hstart
  have hc : c.isAlpha = true ∨ c = '/' ∨ c = '*' ∨ c = '%' ∨ c = '>' ∨ c = '<' ∨ c = '=' := by
    simpa [startsSymbol, or_assoc] using hstart
  rcases hc with halpha | rfl | rfl | rfl | rfl | rfl | rfl
  · have hdigit : (decide (48 ≤ c.val) && decide (c.val ≤ 57)) = true := h
    have hletter : (decide (65 ≤ c.val ∧ c.val ≤ 90) ||
        decide (97 ≤ c.val) && decide (c.val ≤ 122)) = true := halpha
    simp [UInt32.le_iff_toNat_le] at hdigit hletter
    omega
  all_goals exact absurd h (by decide)

theorem scan_number {first : Char} (h : first.isDigit = true) (rest : List Char) :
    scan first rest = scanNumber false (first :: rest) := by
  unfold scan
  rw [isSign_eq_false_of_isDigit h, if_neg Bool.false_ne_true, startsSymbol_eq_false_of_isDigit h,
    if_neg Bool.false_ne_true, if_pos h]

theorem scan_string (rest : List Char) : scan '"' rest = (scanString rest).shift 1 := rfl

theorem scan_keyword (rest : List Char) : scan ':' rest = (scanKeyword rest).shift 1 := rfl

theorem scan_opening (bracket : Bracket) :
    ∃ c, bracket.opener.toList = [c] ∧ ∀ rest, scan c rest = .found (.opening bracket) 1 := by
  cases bracket with
  | round => exact ⟨'(', by decide, fun rest => rfl⟩
  | square => exact ⟨'[', by decide, fun rest => rfl⟩

theorem scan_closing (bracket : Bracket) :
    ∃ c, bracket.closer.toList = [c] ∧ endsWord c = true ∧
      ∀ rest, scan c rest = .found (.closing bracket) 1 := by
  cases bracket with
  | round => exact ⟨')', by decide, by decide, fun rest => rfl⟩
  | square => exact ⟨']', by decide, by decide, fun rest => rfl⟩

/-! ## Numbers -/

/-- A literal does not go on with `rest`: there is no digit, and a point only behind another one. -/
def EndsLiteral (pointed : Bool) (rest : List Char) : Prop :=
  ∀ c, rest.head? = some c → c.isDigit = false ∧ (c = '.' → pointed = true)

theorem AtBoundary.endsLiteral {rest : List Char} (h : AtBoundary rest) (pointed : Bool) :
    EndsLiteral pointed rest := by
  intro c hc
  refine ⟨isDigit_eq_false_of_endsWord (h c hc), ?_⟩
  rintro rfl
  exact absurd (h '.' hc) (by decide)

/-- Digits are taken up to a character that is none. -/
theorem takeWhile_digits {digits rest : List Char} (hdigits : ∀ c ∈ digits, c.isDigit = true)
    (hrest : ∀ c, rest.head? = some c → c.isDigit = false) :
    (digits ++ rest).takeWhile Char.isDigit = digits ∧
      (digits ++ rest).dropWhile Char.isDigit = rest := by
  rw [List.takeWhile_append_of_pos hdigits, List.dropWhile_append_of_pos hdigits]
  cases rest with
  | nil => simp
  | cons c rest => simp [hrest c rfl]

/-- What is scanned at a literal depends on whether a word ends behind it. -/
theorem scanNumber_literal {digits rest : List Char} {decimal : Decimal} {pointed : Bool}
    (h : Literal digits decimal pointed) (hrest : EndsLiteral pointed rest) (negative : Bool) :
    scanNumber negative (digits ++ rest)
      = wholeWord (.number (Double.ofDecimal negative decimal)) digits.length rest := by
  cases h with
  | whole _ hdigits =>
    obtain ⟨htake, hdrop⟩ := takeWhile_digits hdigits fun c hc => (hrest c hc).1
    have hpoint : ∀ tail, rest ≠ '.' :: tail := by
      rintro tail rfl
      simpa using (hrest '.' rfl).2
    simp only [scanNumber, htake, hdrop]
  | @pointed whole fraction _ hwhole hfraction =>
    have hdot : ∀ c, ('.' :: (fraction ++ rest)).head? = some c → c.isDigit = false := by
      rintro c ⟨⟩
      decide
    obtain ⟨htake, hdrop⟩ := takeWhile_digits hwhole hdot
    obtain ⟨htake', hdrop'⟩ := takeWhile_digits hfraction fun c hc => (hrest c hc).1
    rw [List.append_assoc, List.cons_append]
    simp only [scanNumber, htake, hdrop, htake', hdrop', List.length_append, List.length_cons]
    rw [Nat.add_comm 1]

/-- A text that starts with a digit starts with a literal that is as long as possible. -/
theorem exists_literal {chars : List Char} (h : chars.head?.any Char.isDigit = true) :
    ∃ digits decimal pointed rest, chars = digits ++ rest ∧ Literal digits decimal pointed ∧
      EndsLiteral pointed rest := by
  have hends (text : List Char) :
      ∀ c, (text.dropWhile Char.isDigit).head? = some c → c.isDigit = false := by
    intro c hc
    have hnot := List.head?_dropWhile_not Char.isDigit text
    rwa [hc] at hnot
  have hwhole : ∀ c ∈ chars.takeWhile Char.isDigit, c.isDigit = true :=
    fun c hc => List.mem_takeWhile_imp hc
  have hne : chars.takeWhile Char.isDigit ≠ [] := by
    cases chars with
    | nil => simp at h
    | cons c rest =>
      have hc : c.isDigit = true := by simpa using h
      simp [hc]
  have hsplit : chars = chars.takeWhile Char.isDigit ++ chars.dropWhile Char.isDigit :=
    List.takeWhile_append_dropWhile.symm
  by_cases hpoint : ∃ tail, chars.dropWhile Char.isDigit = '.' :: tail
  · obtain ⟨tail, htail⟩ := hpoint
    have hfraction : ∀ c ∈ tail.takeWhile Char.isDigit, c.isDigit = true :=
      fun c hc => List.mem_takeWhile_imp hc
    refine ⟨_, _, true, tail.dropWhile Char.isDigit, ?_, .pointed hne hwhole hfraction,
      fun c hc => ⟨hends tail c hc, fun _ => rfl⟩⟩
    rw [List.append_assoc, List.cons_append, List.takeWhile_append_dropWhile, ← htail]
    exact hsplit
  · refine ⟨_, _, false, _, hsplit, .whole hne hwhole, ?_⟩
    intro c hc
    refine ⟨hends chars c hc, ?_⟩
    rintro rfl
    obtain ⟨tail, htail⟩ := List.head?_eq_some_iff.1 hc
    exact absurd ⟨tail, htail⟩ hpoint

theorem Literal.head {digits : List Char} {decimal : Decimal} {pointed : Bool}
    (h : Literal digits decimal pointed) :
    ∃ digit others, digits = digit :: others ∧ digit.isDigit = true := by
  cases h with
  | whole hne hdigits =>
    obtain ⟨digit, others, rfl⟩ := List.exists_cons_of_ne_nil hne
    exact ⟨digit, others, rfl, hdigits digit List.mem_cons_self⟩
  | pointed hne hdigits _ =>
    obtain ⟨digit, others, rfl⟩ := List.exists_cons_of_ne_nil hne
    exact ⟨digit, others ++ _, rfl, hdigits digit List.mem_cons_self⟩

/-- A literal with its sign is scanned like one without. -/
theorem scan_literal {sign digits rest others : List Char} {negative pointed : Bool}
    {decimal : Decimal} {first : Char} (hsign : SignText sign negative)
    (hdigits : Literal digits decimal pointed) (hrest : EndsLiteral pointed rest)
    (htext : first :: others = sign ++ digits ++ rest) :
    scan first others
      = wholeWord (.number (Double.ofDecimal negative decimal)) (sign ++ digits).length rest := by
  obtain ⟨digit, more, rfl, hdigit⟩ := hdigits.head
  have hscan := scanNumber_literal hdigits hrest
  have hshift (lexeme : Lexeme) (length : Nat) :
      (wholeWord lexeme length rest).shift 1 = wholeWord lexeme (length + 1) rest := by
    cases rest with
    | nil => simp [wholeWord, Scan.shift, Nat.add_comm]
    | cons c rest =>
      simp only [wholeWord]
      split <;> simp [Scan.shift, Nat.add_comm]
  cases hsign with
  | none =>
    obtain ⟨rfl, rfl⟩ : first = digit ∧ others = more ++ rest := by simpa using htext
    rw [scan_number hdigit, ← List.cons_append, hscan]
    rfl
  | plus =>
    obtain ⟨rfl, rfl⟩ : first = '+' ∧ others = digit :: (more ++ rest) := by simpa using htext
    rw [scan_signedNumber (by decide) (by simpa using hdigit), ← List.cons_append, hscan, hshift]
    rfl
  | minus =>
    obtain ⟨rfl, rfl⟩ : first = '-' ∧ others = digit :: (more ++ rest) := by simpa using htext
    rw [scan_signedNumber (by decide) (by simpa using hdigit), ← List.cons_append, hscan, hshift]
    rfl

/-! ## What is there is found -/

/-- The characters that start words go on in a word. -/
theorem endsWord_eq_false {c : Char} (h : startsKeyword c = true) : endsWord c = false := by
  rw [Bool.eq_false_iff]
  intro hend
  rcases eq_of_endsWord hend with rfl | rfl | rfl | rfl | rfl | rfl | rfl <;>
    exact absurd h (by decide)

theorem scan_symbolWord {chars rest others : List Char} {first : Char} (h : IsSymbolWord chars)
    (hrest : AtBoundary rest) (htext : first :: others = chars ++ rest) :
    scan first others = .found (.symbol (String.ofList chars)) chars.length := by
  obtain ⟨hchars, start, more, rfl, hstart⟩ := h
  obtain ⟨rfl, rfl⟩ : first = start ∧ others = more ++ rest := by simpa using htext
  have hscan : scanSymbol (first :: (more ++ rest))
      = .found (.symbol (String.ofList (first :: more))) (first :: more).length := by
    rw [scanSymbol, ← List.cons_append, word_append hchars hrest]
  cases hsign : isSign first with
  | false =>
    rw [hsign, if_neg Bool.false_ne_true] at hstart
    rw [scan_symbol hsign hstart, hscan]
  | true =>
    rw [hsign, if_pos rfl] at hstart
    -- What follows the sign is in the word, or it is behind the word and ends it.
    have hhead : (more ++ rest).head?.any Char.isDigit = false := by
      cases more with
      | nil => exact hrest.any_isDigit
      | cons c more => exact hstart
    rw [scan_signSymbol hsign hhead, hscan]

theorem scan_keywordWord {chars rest : List Char} (h : IsKeywordWord chars)
    (hrest : AtBoundary rest) :
    scan ':' (chars ++ rest) = .found (.keyword (String.ofList chars)) (chars.length + 1) := by
  obtain ⟨hchars, first, more, rfl, hfirst⟩ := h
  have hscan : scanKeyword (first :: more ++ rest)
      = .found (.keyword (String.ofList (first :: more))) (first :: more).length := by
    have hword := word_append hchars hrest
    rw [List.cons_append] at hword ⊢
    rw [scanKeyword, if_pos hfirst, hword]
  rw [scan_keyword, hscan, Scan.shift, Nat.add_comm]

/-- The quote that ends a string is the first one. -/
theorem takeWhile_noQuote {text : List Char} (h : '"' ∉ text) (rest : List Char) :
    (text ++ '"' :: rest).takeWhile (· != '"') = text ∧
      (text ++ '"' :: rest).dropWhile (· != '"') = '"' :: rest := by
  have hinside : ∀ c ∈ text, (c != '"') = true := by
    intro c hc
    rw [bne_iff_ne]
    rintro rfl
    exact h hc
  rw [List.takeWhile_append_of_pos hinside, List.dropWhile_append_of_pos hinside]
  simp

theorem scan_stringText {text : List Char} (h : '"' ∉ text) (rest : List Char) :
    scan '"' (text ++ '"' :: rest) = .found (.string (String.ofList text)) (text.length + 2) := by
  obtain ⟨htake, hdrop⟩ := takeWhile_noQuote h rest
  rw [scan_string, scanString, htake, hdrop, Scan.shift]
  simp only [Scan.found.injEq, true_and]
  omega

theorem scan_mark {mark : Mark} {rest others : List Char} {first : Char}
    (h : mark = .unquote → rest.head? ≠ some '@')
    (htext : first :: others = mark.text.toList ++ rest) :
    scan first others = .found (.mark mark) mark.text.toList.length := by
  cases mark with
  | quote =>
    obtain ⟨rfl, rfl⟩ : first = '\'' ∧ others = rest := by simpa [Mark.text] using htext
    rfl
  | unquote =>
    obtain ⟨rfl, rfl⟩ : first = '~' ∧ others = rest := by simpa [Mark.text] using htext
    show (if others.head? = some '@' then _ else _) = _
    rw [if_neg (h rfl)]
    rfl
  | unquoteSplicing =>
    obtain ⟨rfl, rfl⟩ : first = '~' ∧ others = '@' :: rest := by simpa [Mark.text] using htext
    rfl
  | syntaxQuote =>
    obtain ⟨rfl, rfl⟩ : first = '\x60' ∧ others = rest := by simpa [Mark.text] using htext
    rfl

/-- A lexeme that is written at the front of a text is found there. -/
theorem scan_of_written {lexeme : Lexeme} {chars rest others : List Char} {first : Char}
    (h : Written lexeme chars rest) (htext : first :: others = chars ++ rest) :
    scan first others = .found lexeme chars.length := by
  cases h with
  | number hsign hdigits hrest =>
    rw [scan_literal hsign hdigits (hrest.endsLiteral _) htext, wholeWord_of_atBoundary _ _ hrest]
  | @string text _ hquote =>
    obtain ⟨rfl, rfl⟩ : first = '"' ∧ others = text ++ '"' :: rest := by simpa using htext
    rw [scan_stringText hquote]
    simp
  | symbol hword hrest => exact scan_symbolWord hword hrest htext
  | keyword hword hrest =>
    obtain ⟨rfl, rfl⟩ := List.cons.inj htext
    exact scan_keywordWord hword hrest
  | opening bracket =>
    obtain ⟨c, hc, hscan⟩ := scan_opening bracket
    rw [hc] at htext ⊢
    obtain ⟨rfl, rfl⟩ := List.cons.inj htext
    exact hscan _
  | closing bracket =>
    obtain ⟨c, hc, _, hscan⟩ := scan_closing bracket
    rw [hc] at htext ⊢
    obtain ⟨rfl, rfl⟩ := List.cons.inj htext
    exact hscan _
  | mark mark hrest => exact scan_mark hrest htext

/-- A character that starts no lexeme is passed over by all branches. -/
theorem scan_of_not_startsLexeme {c : Char} (h : startsLexeme c = false) (rest : List Char) :
    scan c rest = .invalid 0 := by
  simp only [startsLexeme, Bool.or_eq_false_iff, List.contains_cons, List.contains_nil,
    Bool.or_false, beq_eq_false_iff_ne, ne_eq] at h
  obtain ⟨⟨⟨hsign, hsymbol⟩, hdigit⟩, hothers⟩ := h
  unfold scan
  rw [hsign, if_neg Bool.false_ne_true, hsymbol, if_neg Bool.false_ne_true, hdigit,
    if_neg Bool.false_ne_true]
  split <;> simp_all

/-- Where a text is spoiled, nothing is found. -/
theorem scan_of_spoiled {others : List Char} {first : Char} {offset : Nat}
    (h : Spoiled (first :: others) offset) : scan first others = .invalid offset := by
  generalize htext : first :: others = text at h
  cases h with
  | start rest hc =>
    obtain ⟨rfl, rfl⟩ := List.cons.inj htext
    exact scan_of_not_startsLexeme hc _
  | @number sign digits negative pointed decimal c rest hsign hdigits hend hdigit hpoint =>
    have hrest : EndsLiteral pointed (c :: rest) := by
      rintro other ⟨⟩
      exact ⟨hdigit, hpoint⟩
    rw [scan_literal hsign hdigits hrest htext, wholeWord, if_neg (by simp [hend])]
  | @string text hquote =>
    obtain ⟨rfl, rfl⟩ := List.cons.inj htext
    have hinside : ∀ c ∈ others, (c != '"') = true := by
      intro c hc
      rw [bne_iff_ne]
      rintro rfl
      exact hquote hc
    rw [scan_string, scanString, List.takeWhile_eq_self_iff.2 hinside,
      List.dropWhile_eq_nil_iff.2 hinside, Scan.shift, Nat.add_comm]
  | @keyword rest hrest =>
    obtain ⟨rfl, rfl⟩ := List.cons.inj htext
    cases others with
    | nil => rfl
    | cons c others => simp [scan_keyword, scanKeyword, hrest c rfl, Scan.shift]

/-! ## There is one or the other -/

theorem startsKeyword_of_isSign {c : Char} (h : isSign c = true) : startsKeyword c = true := by
  simp [startsKeyword, h]

theorem startsKeyword_of_startsSymbol {c : Char} (h : startsSymbol c = true) :
    startsKeyword c = true := by
  simp [startsKeyword, h]

/-- A word keeps its first character, if that one can start a word at all. -/
theorem word_cons {first : Char} (h : startsKeyword first = true) (rest : List Char) :
    word (first :: rest) = first :: word rest := by
  simp [word, endsWord_eq_false h]

/-- At the front of the text a lexeme is written. -/
def HasLexeme (text : List Char) : Prop :=
  ∃ lexeme chars rest, text = chars ++ rest ∧ Written lexeme chars rest

/-- Behind a number a word ends, or the number is spoiled. -/
theorem written_or_spoiled_number {sign text : List Char} {negative : Bool}
    (hsign : SignText sign negative) (h : text.head?.any Char.isDigit = true) :
    HasLexeme (sign ++ text) ∨ ∃ offset, Spoiled (sign ++ text) offset := by
  obtain ⟨digits, decimal, pointed, rest, rfl, hdigits, hrest⟩ := exists_literal h
  rw [← List.append_assoc]
  by_cases hboundary : AtBoundary rest
  · exact .inl ⟨_, _, rest, rfl, .number hsign hdigits hboundary⟩
  · obtain ⟨c, hc, hend⟩ : ∃ c, rest.head? = some c ∧ endsWord c = false := by
      simpa [AtBoundary] using hboundary
    obtain ⟨others, rfl⟩ := List.head?_eq_some_iff.1 hc
    obtain ⟨hdigit, hpoint⟩ := hrest c rfl
    exact .inr ⟨_, .number others hsign hdigits hend hdigit hpoint⟩

theorem hasLexeme_symbol {first : Char} {rest : List Char} (hfirst : startsKeyword first = true)
    (h : if isSign first then rest.head?.any Char.isDigit = false else startsSymbol first = true) :
    HasLexeme (first :: rest) := by
  obtain ⟨tail, htail, hboundary⟩ := exists_word (first :: rest)
  refine ⟨_, _, tail, htail, .symbol ⟨fun c hc => endsWord_of_mem_word hc, first, word rest,
    word_cons hfirst rest, ?_⟩ hboundary⟩
  cases hsign : isSign first with
  | false => simpa [hsign] using h
  | true =>
    have hrest : rest.head?.any Char.isDigit = false := by simpa [hsign] using h
    rw [if_pos rfl]
    cases rest with
    | nil => rfl
    | cons c rest =>
      cases hc : endsWord c with
      | true => simp [word, hc]
      | false => simpa [word, hc] using hrest

theorem written_or_spoiled_string (text : List Char) :
    HasLexeme ('"' :: text) ∨ ∃ offset, Spoiled ('"' :: text) offset := by
  by_cases h : '"' ∈ text
  · obtain ⟨inside, rest, rfl, hinside⟩ := List.eq_append_cons_of_mem h
    refine .inl ⟨_, '"' :: (inside ++ ['"']), rest, by simp, .string rest hinside⟩
  · exact .inr ⟨_, .string h⟩

theorem written_or_spoiled_keyword (text : List Char) :
    HasLexeme (':' :: text) ∨ ∃ offset, Spoiled (':' :: text) offset := by
  cases text with
  | nil => exact .inr ⟨1, .keyword (by simp)⟩
  | cons first rest =>
    cases hfirst : startsKeyword first with
    | false =>
      refine .inr ⟨1, .keyword ?_⟩
      rintro c ⟨⟩
      exact hfirst
    | true =>
      obtain ⟨tail, htail, hboundary⟩ := exists_word (first :: rest)
      refine .inl ⟨_, _, tail, congrArg (':' :: ·) htail, .keyword ?_ hboundary⟩
      exact ⟨fun c hc => endsWord_of_mem_word hc, first, word rest, word_cons hfirst rest, hfirst⟩

theorem hasLexeme_unquote (rest : List Char) : HasLexeme ('~' :: rest) := by
  by_cases h : rest.head? = some '@'
  · obtain ⟨others, rfl⟩ := List.head?_eq_some_iff.1 h
    exact ⟨_, _, others, rfl, .mark .unquoteSplicing nofun⟩
  · exact ⟨_, _, rest, rfl, .mark .unquote fun _ => h⟩

/-- A text that is not empty starts with a lexeme, or it is spoiled. -/
theorem written_or_spoiled (first : Char) (rest : List Char) :
    HasLexeme (first :: rest) ∨ ∃ offset, Spoiled (first :: rest) offset := by
  by_cases hstarts : startsLexeme first = true
  · simp only [startsLexeme, Bool.or_eq_true, List.contains_cons, List.contains_nil, Bool.or_false,
      beq_iff_eq] at hstarts
    -- A sign starts a number or a symbol; any other character decides what is written.
    rcases hstarts with ((hsign | hsymbol) | hdigit) |
      rfl | rfl | rfl | rfl | rfl | rfl | rfl | rfl | rfl
    · cases hdigit : rest.head?.any Char.isDigit with
      | false =>
        exact .inl (hasLexeme_symbol (startsKeyword_of_isSign hsign) (by simpa [hsign] using hdigit))
      | true =>
        rcases eq_of_isSign hsign with rfl | rfl
        · exact written_or_spoiled_number .plus hdigit
        · exact written_or_spoiled_number .minus hdigit
    · have hsign : ¬ isSign first = true := by
        intro hsign
        rcases eq_of_isSign hsign with rfl | rfl <;> exact absurd hsymbol (by decide)
      refine .inl (hasLexeme_symbol (startsKeyword_of_startsSymbol hsymbol) ?_)
      rw [if_neg hsign]
      exact hsymbol
    · exact written_or_spoiled_number .none (by simpa using hdigit)
    · exact written_or_spoiled_string rest
    · exact written_or_spoiled_keyword rest
    · exact .inl (hasLexeme_unquote rest)
    · exact .inl ⟨_, _, rest, rfl, .mark .quote nofun⟩
    · exact .inl ⟨_, _, rest, rfl, .mark .syntaxQuote nofun⟩
    · exact .inl ⟨_, _, rest, rfl, .opening .round rest⟩
    · exact .inl ⟨_, _, rest, rfl, .closing .round rest⟩
    · exact .inl ⟨_, _, rest, rfl, .opening .square rest⟩
    · exact .inl ⟨_, _, rest, rfl, .closing .square rest⟩
  · exact .inr ⟨0, .start rest (Bool.eq_false_iff.2 hstarts)⟩

variable {first : Char} {others : List Char} {lexeme : Lexeme}

/-- `scan` finds exactly what is written. -/
theorem scan_eq_found_iff {length : Nat} :
    scan first others = .found lexeme length ↔
      ∃ chars rest, first :: others = chars ++ rest ∧ chars.length = length ∧
        Written lexeme chars rest := by
  constructor
  · intro hscan
    rcases written_or_spoiled first others with ⟨other, chars, rest, htext, h⟩ | ⟨offset, h⟩
    · rw [scan_of_written h htext] at hscan
      cases hscan
      exact ⟨chars, rest, htext, rfl, h⟩
    · rw [scan_of_spoiled h] at hscan
      cases hscan
  · rintro ⟨chars, rest, htext, rfl, h⟩
    exact scan_of_written h htext

end Lexeme

end Lisplet
