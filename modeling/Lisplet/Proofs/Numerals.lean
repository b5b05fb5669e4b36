import Lisplet.Proofs.Rounding
import Lisplet.Proofs.Tiling

set_option autoImplicit false

/-! # Numbers in a text

A `Numeral` is a number as it is written, and `Numeral.value` is the number that it denotes, digit by
digit. Reading collects the digits of a numeral in one natural number and divides once, so nothing
is lost before the division is rounded (`Numeral.coefficient_div`), and the double that is read is
the one that the number rounds to (`Tokens.numbers_rounded`). -/

namespace Lisplet

/-- A number as it is written: a sign, which may be left out, at least one digit and, if there is a
    point, any number of digits behind it. -/
structure Numeral where
  sign : Option Char
  whole : List Char
  fraction : Option (List Char)
  isSign_sign : ∀ c ∈ sign, Lexeme.isSign c = true
  whole_ne_nil : whole ≠ []
  isDigit_whole : ∀ c ∈ whole, c.isDigit = true
  isDigit_fraction : ∀ digits ∈ fraction, ∀ c ∈ digits, c.isDigit = true

namespace Numeral

/-- Everything behind the sign. -/
def unsigned (n : Numeral) : List Char :=
  match n.fraction with
  | none => n.whole
  | some digits => n.whole ++ '.' :: digits

/-- The characters of the numeral. -/
def chars (n : Numeral) : List Char := n.sign.toList ++ n.unsigned

def isNegative (n : Numeral) : Bool := n.sign == some '-'

/-! ## The number that a numeral denotes -/

def digitValue (c : Char) : ℚ := (c.toNat - '0'.toNat : Nat)

/-- The value of the digits before the point, of which the last one counts for itself and each other
    one for ten times as much as the next. -/
def wholeValue : List Char → ℚ
  | [] => 0
  | c :: rest => digitValue c * 10 ^ rest.length + wholeValue rest

/-- The value of the digits behind the point, each of which counts for a tenth of the one before. -/
def fractionValue : List Char → ℚ
  | [] => 0
  | c :: rest => (digitValue c + fractionValue rest) / 10

/-- The number without its sign. -/
def absValue (n : Numeral) : ℚ := wholeValue n.whole + fractionValue (n.fraction.getD [])

/-- The number that the numeral denotes. -/
def value (n : Numeral) : ℚ := Double.signed n.isNegative n.absValue

theorem cast_ofDigitChars (digits : List Char) (start : Nat) :
    (Nat.ofDigitChars 10 digits start : ℚ) = start * 10 ^ digits.length + wholeValue digits := by
  induction digits generalizing start with
  | nil => simp [wholeValue, Nat.ofDigitChars]
  | cons c rest ih =>
    rw [Nat.ofDigitChars_cons, ih, wholeValue, digitValue, List.length_cons, pow_succ]
    push_cast
    ring

theorem fractionValue_eq (digits : List Char) :
    fractionValue digits = wholeValue digits / 10 ^ digits.length := by
  induction digits with
  | nil => simp [fractionValue, wholeValue]
  | cons c rest ih =>
    rw [fractionValue, wholeValue, ih, List.length_cons, pow_succ]
    field_simp

/-- The decimal that reading makes of the digits. -/
def decimal (n : Numeral) : Decimal := Decimal.ofDigits n.whole (n.fraction.getD [])

/-- The decimal is the number that the digits denote. -/
theorem coefficient_div (n : Numeral) :
    (n.decimal.coefficient : ℚ) / (Nat.pow 10 n.decimal.places : Nat) = n.absValue := by
  rw [decimal, Decimal.ofDigits, absValue, fractionValue_eq, Nat.ofDigitChars_append,
    cast_ofDigitChars, cast_ofDigitChars, Nat.pow_eq]
  push_cast
  field_simp
  ring

/-- Only the double that is read for a numeral is what its number rounds to. -/
theorem rounds_iff (n : Numeral) (d : Double) :
    Double.Rounds n.isNegative n.value d ↔ d = Double.ofDecimal n.isNegative n.decimal := by
  rw [value, ← coefficient_div]
  exact Double.rounds_nearest_iff n.isNegative _ (Double.pow_ten_pos _) d

/-! ## Numerals are how numbers are written -/

theorem signText (n : Numeral) : Lexeme.SignText n.sign.toList n.isNegative := by
  unfold isNegative
  cases h : n.sign with
  | none => exact .none
  | some c =>
    rcases Lexeme.eq_of_isSign (n.isSign_sign c h) with rfl | rfl
    · exact .plus
    · exact .minus

theorem literal (n : Numeral) : ∃ pointed, Lexeme.Literal n.unsigned n.decimal pointed := by
  unfold unsigned decimal
  cases h : n.fraction with
  | none => exact ⟨false, .whole n.whole_ne_nil n.isDigit_whole⟩
  | some digits =>
    exact ⟨true, .pointed n.whole_ne_nil n.isDigit_whole (n.isDigit_fraction digits h)⟩

/-- A numeral in front of a boundary is a lexeme. -/
theorem written (n : Numeral) {rest : List Char} (h : Lexeme.AtBoundary rest) :
    Lexeme.Written (.number (Double.ofDecimal n.isNegative n.decimal)) n.chars rest := by
  obtain ⟨pointed, hliteral⟩ := n.literal
  exact .number n.signText hliteral h

/-- A number in a text is written as a numeral in front of a boundary. -/
theorem exists_of_written {d : Double} {chars rest : List Char}
    (h : Lexeme.Written (.number d) chars rest) :
    ∃ n : Numeral, n.chars = chars ∧ Lexeme.AtBoundary rest ∧
      d = Double.ofDecimal n.isNegative n.decimal := by
  cases h with
  | @number sign digits _ negative pointed decimal hsign hliteral hrest =>
    obtain ⟨mark, hmark, rfl, hnegative⟩ : ∃ mark : Option Char,
        (∀ c ∈ mark, Lexeme.isSign c = true) ∧ sign = mark.toList ∧
          negative = (mark == some '-') := by
      cases hsign with
      | none => exact ⟨none, by simp, rfl, rfl⟩
      | plus => exact ⟨some '+', by simp [Lexeme.isSign], rfl, rfl⟩
      | minus => exact ⟨some '-', by simp [Lexeme.isSign], rfl, rfl⟩
    subst hnegative
    cases hliteral with
    | whole hne hdigits =>
      exact ⟨⟨mark, digits, none, hmark, hne, hdigits, by simp⟩, rfl, hrest, rfl⟩
    | @pointed whole fraction hne hwhole hfraction =>
      exact ⟨⟨mark, whole, some fraction, hmark, hne, hwhole, by simpa using hfraction⟩, rfl, hrest,
        rfl⟩

end Numeral

namespace Tokens

/-- A token of a tiling has been cut out of the text where its span says. -/
theorem Tiled.exists_written {source : List Char} {start : Nat} {t : Tokens}
    (h : Tiled source start t) {token : Token} (htoken : token ∈ t.tokens) :
    ∃ first past, first < past ∧ past ≤ source.length ∧
      token.span = ⟨Pos.ofIndex source first, Pos.ofIndex source past⟩ ∧
      Lexeme.Written token.lexeme (source.extract first past) (source.drop past) := by
  induction h with
  | done => simp at htoken
  | spoiled => simp at htoken
  | @token start first past lexeme others _ hfirst hpast _ hwritten _ ih =>
    rcases List.mem_cons.1 htoken with rfl | hmem
    · exact ⟨first, past, hfirst, hpast, rfl, hwritten⟩
    · exact ih hmem

/-- Numbers are rounded correctly. A numeral of any length that ends at a boundary is read as a
    number, and its double is the one to which the number that the numeral denotes rounds: the
    nearest one, with ties to even, infinity exactly from the overflow on, and the sign of the
    numeral, also on zero. And there are no other numbers in a text: each is read from a numeral
    that stands in its place and ends at a boundary. -/
theorem numbers_rounded :
    (∀ (n : Numeral) (gap rest : List Char) (pos : Pos), Lexeme.Gap gap (n.chars ++ rest) →
      Lexeme.AtBoundary rest →
      let first := pos.advance (gap ++ (n.chars ++ rest)) gap.length
      let past := first.advance (n.chars ++ rest) n.chars.length
      ∃ d : Double, (∀ other, Double.Rounds n.isNegative n.value other ↔ other = d) ∧
        readFrom pos (gap ++ (n.chars ++ rest))
          = ⟨⟨.number d, ⟨first, past⟩⟩ :: (readFrom past rest).tokens,
              (readFrom past rest).invalid⟩) ∧
    ∀ (source : List Char) (token : Token) (d : Double), token ∈ (ofSource source).tokens →
      token.lexeme = .number d →
      ∃ (n : Numeral) (first past : Nat),
        token.span = ⟨Pos.ofIndex source first, Pos.ofIndex source past⟩ ∧
        source.extract first past = n.chars ∧ Lexeme.AtBoundary (source.drop past) ∧
        Double.Rounds n.isNegative n.value d := by
  constructor
  · intro n gap rest pos hgap hrest first past
    exact ⟨_, n.rounds_iff, readFrom_written pos hgap (n.written hrest) rfl rfl⟩
  · intro source token d htoken hlexeme
    have htiled := (ofSource_eq_iff_tiled source _).1 rfl
    obtain ⟨first, past, _, _, hspan, hwritten⟩ := htiled.exists_written htoken
    rw [hlexeme] at hwritten
    obtain ⟨n, hchars, hrest, hd⟩ := Numeral.exists_of_written hwritten
    exact ⟨n, first, past, hspan, hchars.symm, hrest, (n.rounds_iff d).2 hd⟩

/-- The number `2 ^ 53 + 1`, which is half way between two doubles. -/
def halfwayNumeral : Numeral :=
  ⟨none, "9007199254740993".toList, none, by simp, by decide, List.all_eq_true.1 (by decide),
    by simp⟩

/-- A negative zero with a point and nothing behind it. -/
def zeroNumeral : Numeral :=
  ⟨some '-', ['0'], some [], by simp [Lexeme.isSign], by decide, List.all_eq_true.1 (by decide),
    by simp⟩

/-- Of two doubles at the same distance the even one is read, and a zero keeps its sign. -/
theorem numbers_rounded_samples :
    Double.Rounds false 9007199254740993 ⟨0x4340000000000000⟩ ∧
      Double.Rounds true 0 ⟨0x8000000000000000⟩ ∧
      (ofSource "9007199254740993)".toList).lexemes
        = [.number ⟨0x4340000000000000⟩, .closing .round] ∧
      (ofSource "-0.;".toList).lexemes = [.number ⟨0x8000000000000000⟩] := by
  have hhalfway : (ofSource "9007199254740993)".toList).lexemes
      = [.number ⟨0x4340000000000000⟩, .closing .round] := by
    decide +kernel
  have hzero : (ofSource "-0.;".toList).lexemes = [.number ⟨0x8000000000000000⟩] := by
    decide +kernel
  -- What is read at the front of a text is what the numeral there rounds to.
  have hrounds (n : Numeral) (c : Char) (d : Double) (others : List Lexeme)
      (hgap : Lexeme.Gap [] (n.chars ++ [c])) (hc : Lexeme.endsWord c = true)
      (hread : (ofSource (n.chars ++ [c])).lexemes = .number d :: others) :
      Double.Rounds n.isNegative n.value d := by
    obtain ⟨e, he, htokens⟩ := numbers_rounded.1 n [] [c] _ hgap (.cons hc [])
    rw [ofSource, lexemes, ← List.nil_append (n.chars ++ [c]), htokens] at hread
    obtain ⟨hnumber, _⟩ := List.cons.inj hread
    exact (he d).2 (Lexeme.number.inj hnumber).symm
  have hvalue : halfwayNumeral.value = 9007199254740993 := by
    decide +kernel
  have hvalue' : zeroNumeral.value = 0 := by
    decide +kernel
  refine ⟨?_, ?_, hhalfway, hzero⟩
  · rw [← hvalue]
    exact hrounds halfwayNumeral ')' _ _ (.nil (by rintro c ⟨⟩; decide)) (by decide) hhalfway
  · rw [← hvalue']
    exact hrounds zeroNumeral ';' _ _ (.nil (by rintro c ⟨⟩; decide)) (by decide) hzero

end Tokens

end Lisplet
