import Lisplet.Proofs.Lexemes

set_option autoImplicit false

/-! # The tokens of a text tile it

Between the tokens of a text there are gaps of blanks and comments, each token is written in its own
part of the text, and where a token starts and ends can be computed from the two indices alone
(`Pos.ofIndex`). `Tokens.Tiled` says all this, together with what the lexer complains about, and
there is only one way to cut a text up like this: the one in which the tokens are read
(`Tokens.ofSource_eq_iff_tiled`). -/

namespace Lisplet

/-! ## The place of an index -/

namespace Pos

/-- The index of the last newline at the index `i` or before it. -/
def lastNewline? (source : List Char) : Nat → Option Nat
  | 0 => if source[0]? = some '\n' then some 0 else none
  | i + 1 => if source[i + 1]? = some '\n' then some (i + 1) else lastNewline? source i

/-- The place of the character at the index `i` of a text. Its line is one more than the number of
    newlines up to there, itself included. Its column is counted from the last of these newlines,
    which is in column one itself, and on the first line from the start of the text. -/
def ofIndex (source : List Char) (i : Nat) : Pos where
  line := 1 + (source.take (i + 1)).count '\n'
  col :=
    match lastNewline? source i with
    | none => i + 1
    | some newline => 1 + (i - newline)

theorem lastNewline?_le {source : List Char} {i newline : Nat}
    (h : lastNewline? source i = some newline) : newline ≤ i := by
  induction i with
  | zero =>
    unfold lastNewline? at h
    split at h <;> simp_all
  | succ i ih =>
    unfold lastNewline? at h
    split at h
    · simp_all
    · exact Nat.le_succ_of_le (ih h)

theorem onto_newline (p : Pos) : p.onto (some '\n') = ⟨p.line + 1, 1⟩ := rfl

theorem onto_of_ne (p : Pos) {next : Option Char} (h : next ≠ some '\n') :
    p.onto next = ⟨p.line, p.col + 1⟩ := by
  unfold onto
  split
  · exact absurd rfl h
  · rfl

theorem ofIndex_zero (source : List Char) : ofIndex source 0 = start.onto source.head? := by
  cases source with
  | nil => rfl
  | cons c rest =>
    by_cases hc : c = '\n'
    · subst hc
      simp [ofIndex, lastNewline?, onto, start]
    · have hne : some c ≠ some '\n' := by simpa using hc
      simp [ofIndex, lastNewline?, onto_of_ne _ hne, start, hc]

/-- From one index to the next, the place goes on as in reading. -/
theorem ofIndex_succ (source : List Char) (i : Nat) :
    ofIndex source (i + 1) = (ofIndex source i).onto source[i + 1]? := by
  have htake : source.take (i + 1 + 1) = source.take (i + 1) ++ source[i + 1]?.toList :=
    List.take_add_one
  by_cases hnext : source[i + 1]? = some '\n'
  · rw [hnext, onto_newline]
    simp only [ofIndex, lastNewline?, htake, hnext, if_pos, List.count_append, Option.toList_some,
      List.count_singleton_self, Nat.sub_self]
    simp [Nat.add_assoc]
  · have hcount : source[i + 1]?.toList.count '\n' = 0 := by
      cases h : source[i + 1]? with
      | none => rfl
      | some c =>
        have hc : c ≠ '\n' := by simpa [h] using hnext
        simp [hc]
    rw [onto_of_ne _ hnext]
    simp only [ofIndex, lastNewline?, htake, if_neg hnext, List.count_append, hcount, Nat.add_zero,
      Pos.mk.injEq, true_and]
    cases hlast : lastNewline? source i with
    | none => rfl
    | some newline =>
      have := lastNewline?_le hlast
      simp only
      omega

example : (List.range 4).map (ofIndex "a\nb".toList) = [⟨1, 1⟩, ⟨2, 1⟩, ⟨2, 2⟩, ⟨2, 3⟩] := by
  decide

theorem advance_zero (p : Pos) (chars : List Char) : p.advance chars 0 = p := by
  cases chars <;> rfl

/-- To go on twice is to go on once for the sum. -/
theorem advance_add (p : Pos) (chars : List Char) (m n : Nat) :
    p.advance chars (m + n) = (p.advance chars m).advance (chars.drop m) n := by
  induction m generalizing p chars with
  | zero => rw [Nat.zero_add, advance_zero, List.drop_zero]
  | succ m ih =>
    cases chars with
    | nil => simp [advance]
    | cons c rest =>
      rw [Nat.succ_add, advance, advance, List.drop_succ_cons]
      exact ih _ rest

/-- Going on in a text leads to the place of the index that is reached. -/
theorem advance_ofIndex {source : List Char} {i j : Nat} (hij : i ≤ j) (hj : j ≤ source.length) :
    (ofIndex source i).advance (source.drop i) (j - i) = ofIndex source j := by
  obtain ⟨n, rfl⟩ := Nat.exists_eq_add_of_le hij
  rw [Nat.add_sub_cancel_left]
  clear hij
  induction n generalizing i with
  | zero => rw [advance_zero, Nat.add_zero]
  | succ n ih =>
    have hi : i < source.length := by omega
    have hsum : i + 1 + n = i + (n + 1) := by omega
    rw [List.drop_eq_getElem_cons hi, advance, List.head?_drop, ← ofIndex_succ, ih (by omega), hsum]

end Pos

/-! ## Gaps -/

namespace Lexeme

/-- `gap` is all that stands between lexemes at the front of a text that goes on with `rest`: blanks
    and comments, and a comment goes from its semicolon to the next newline or to the end. -/
inductive Gap : List Char → List Char → Prop where
  | nil {rest : List Char} : (∀ c, rest.head? = some c → isBlank c = false ∧ c ≠ ';') → Gap [] rest
  | blank {c : Char} {gap rest : List Char} : isBlank c = true → Gap gap rest → Gap (c :: gap) rest
  | comment {text gap rest : List Char} : '\n' ∉ text →
      (∀ c, (gap ++ rest).head? = some c → c = '\n') → Gap gap rest →
      Gap (';' :: (text ++ gap)) rest

/-- Every text starts with a gap, which may be empty. -/
theorem exists_gap (chars : List Char) : ∃ gap rest, chars = gap ++ rest ∧ Gap gap rest := by
  match chars with
  | [] => exact ⟨[], [], rfl, .nil (by simp)⟩
  | c :: others =>
    by_cases hblank : isBlank c = true
    · obtain ⟨gap, rest, rfl, hgap⟩ := exists_gap others
      exact ⟨c :: gap, rest, rfl, .blank hblank hgap⟩
    · by_cases hcomment : c = ';'
      · subst hcomment
        obtain ⟨gap, rest, hrest, hgap⟩ := exists_gap (others.dropWhile (· != '\n'))
        refine ⟨';' :: (others.takeWhile (· != '\n') ++ gap), rest, ?_, .comment ?_ ?_ hgap⟩
        · rw [List.cons_append, List.append_assoc, ← hrest, List.takeWhile_append_dropWhile]
        · intro hmem
          simpa using List.mem_takeWhile_imp hmem
        · intro c hc
          rw [← hrest] at hc
          have hnot := List.head?_dropWhile_not (· != '\n') others
          rw [hc] at hnot
          simpa using hnot
      · refine ⟨[], c :: others, rfl, .nil ?_⟩
        rintro other ⟨⟩
        exact ⟨Bool.eq_false_iff.2 hblank, hcomment⟩
termination_by chars.length
decreasing_by
  · simp
  · have := (others.dropWhile_sublist (· != '\n')).length_le
    simp only [List.length_cons]
    omega

/-- A comment is skipped up to the newline behind it. -/
theorem skipGap_comment {text : List Char} (htext : '\n' ∉ text) {rest : List Char}
    (hrest : ∀ c, rest.head? = some c → c = '\n') (pos : Pos) :
    skipGap true pos (text ++ rest)
      = skipGap false (pos.advance (text ++ rest) text.length) rest := by
  induction text generalizing pos with
  | nil =>
    rw [List.nil_append, List.length_nil, Pos.advance_zero]
    cases rest with
    | nil => rfl
    | cons c rest =>
      rw [hrest c rfl]
      rfl
  | cons c text ih =>
    obtain ⟨hc, htext⟩ : ¬ '\n' = c ∧ '\n' ∉ text := by simpa using htext
    have hgoes : gapGoesOn true c = some true := by
      simp [gapGoesOn, Ne.symm hc]
    rw [List.cons_append, skipGap, hgoes, List.length_cons, Pos.advance]
    exact ih htext _

/-- A gap is skipped, and the position goes on by its length. -/
theorem skipGap_of_gap {gap rest : List Char} (h : Gap gap rest) (pos : Pos) :
    skipGap false pos (gap ++ rest) = (pos.advance (gap ++ rest) gap.length, rest) := by
  induction h generalizing pos with
  | @nil rest hrest =>
    rw [List.nil_append, List.length_nil, Pos.advance_zero]
    cases rest with
    | nil => rfl
    | cons c rest =>
      obtain ⟨hblank, hcomment⟩ := hrest c rfl
      have hends : gapGoesOn false c = none := by simp [gapGoesOn, hblank, hcomment]
      rw [skipGap, hends]
  | @blank c gap rest hblank _ ih =>
    have hgoes : gapGoesOn false c = some false := by simp [gapGoesOn, hblank]
    rw [List.cons_append, skipGap, hgoes, List.length_cons, Pos.advance]
    exact ih _
  | @comment text gap rest htext hnewline _ ih =>
    have hgoes : gapGoesOn false ';' = some true := by decide
    rw [List.cons_append, skipGap, hgoes, List.length_cons, Pos.advance, List.append_assoc,
      List.length_append, Pos.advance_add, List.drop_left]
    simp only
    rw [skipGap_comment htext hnewline, ih]

end Lexeme

/-! ## The parts of a text -/

namespace Lexeme

theorem Written.ne_nil {lexeme : Lexeme} {chars rest : List Char} (h : Written lexeme chars rest) :
    chars ≠ [] := by
  cases h with
  | number _ hdigits _ =>
    obtain ⟨digit, others, rfl, _⟩ := hdigits.head
    simp
  | symbol hword _ =>
    obtain ⟨_, first, others, rfl, _⟩ := hword
    simp
  | opening bracket => cases bracket <;> decide
  | closing bracket => cases bracket <;> decide
  | mark mark => cases mark <;> decide
  | _ => simp

theorem Spoiled.exists_cons {text : List Char} {offset : Nat} (h : Spoiled text offset) :
    ∃ c rest, text = c :: rest := by
  cases h with
  | number rest _ hdigits =>
    refine List.exists_cons_of_ne_nil ?_
    simp
  | _ => exact ⟨_, _, rfl⟩

theorem Spoiled.le_length {text : List Char} {offset : Nat} (h : Spoiled text offset) :
    offset ≤ text.length := by
  cases h <;> simp

end Lexeme

namespace Tokens

/-! ## Reading part by part -/

theorem readFrom_gap (pos : Pos) {gap : List Char} (h : Lexeme.Gap gap []) :
    readFrom pos gap = ⟨[], none⟩ := by
  have hskip := Lexeme.skipGap_of_gap h pos
  rw [List.append_nil] at hskip
  exact readFrom_end hskip

theorem readFrom_spoiled (pos : Pos) {gap text : List Char} {offset : Nat}
    (hgap : Lexeme.Gap gap text) (hspoiled : Lexeme.Spoiled text offset) :
    readFrom pos (gap ++ text)
      = ⟨[], some ((pos.advance (gap ++ text) gap.length).advance text offset)⟩ := by
  have hskip := Lexeme.skipGap_of_gap hgap pos
  obtain ⟨c, rest, rfl⟩ := hspoiled.exists_cons
  rw [readFrom_invalid hskip (Lexeme.scan_of_spoiled hspoiled)]

theorem readFrom_written (pos : Pos) {first past : Pos} {lexeme : Lexeme}
    {gap chars rest : List Char} (hgap : Lexeme.Gap gap (chars ++ rest))
    (hwritten : Lexeme.Written lexeme chars rest)
    (hfirst : pos.advance (gap ++ (chars ++ rest)) gap.length = first)
    (hpast : first.advance (chars ++ rest) chars.length = past) :
    readFrom pos (gap ++ (chars ++ rest))
      = ⟨⟨lexeme, ⟨first, past⟩⟩ :: (readFrom past rest).tokens, (readFrom past rest).invalid⟩ := by
  have hskip := Lexeme.skipGap_of_gap hgap pos
  obtain ⟨c, others, rfl⟩ := List.exists_cons_of_ne_nil hwritten.ne_nil
  rw [List.cons_append] at hskip hfirst hpast ⊢
  rw [hfirst] at hskip
  rw [readFrom_found hskip (Lexeme.scan_of_written hwritten rfl), hpast, List.length_cons,
    Nat.add_sub_cancel, List.drop_left]

/-- An induction over the parts of a text: gaps and lexemes in turn, up to the end or to a character
    that is in the way of a lexeme. -/
@[elab_as_elim]
theorem induction_parts {motive : List Char → Prop}
    (done : ∀ gap, Lexeme.Gap gap [] → motive gap)
    (spoiled : ∀ gap text offset, Lexeme.Gap gap text → Lexeme.Spoiled text offset →
      motive (gap ++ text))
    (written : ∀ lexeme gap chars rest, Lexeme.Gap gap (chars ++ rest) →
      Lexeme.Written lexeme chars rest → motive rest → motive (gap ++ (chars ++ rest)))
    (text : List Char) : motive text := by
  obtain ⟨gap, behind, rfl, hgap⟩ := Lexeme.exists_gap text
  cases behind with
  | nil =>
    rw [List.append_nil]
    exact done gap hgap
  | cons c behind =>
    rcases Lexeme.written_or_spoiled c behind with
      ⟨lexeme, chars, rest, hbehind, hwritten⟩ | ⟨offset, hspoiled⟩
    · have hpos := List.length_pos_iff.2 hwritten.ne_nil
      have hlength := congrArg List.length hbehind
      rw [hbehind] at hgap ⊢
      exact written lexeme gap chars rest hgap hwritten (induction_parts done spoiled written rest)
    · exact spoiled gap _ offset hgap hspoiled
termination_by text.length
decreasing_by
  simp_all
  omega

/-! ## Indices -/

variable {source : List Char}

/-- A text from one index on is its part up to a later index and the text from there on. -/
theorem drop_eq_extract_append {first past : Nat} (h : first ≤ past) :
    source.drop first = source.extract first past ++ source.drop past := by
  have hdrop : (source.drop first).drop (past - first) = source.drop past := by
    rw [List.drop_drop]
    congr 1
    omega
  rw [List.extract_eq_take_drop, ← hdrop, List.take_append_drop]

theorem length_extract {first past : Nat} (h : past ≤ source.length) :
    (source.extract first past).length = past - first := by
  rw [List.extract_eq_take_drop, List.length_take, List.length_drop]
  omega

/-- The indices at which a text is cut in two. -/
theorem extract_of_drop_eq {first : Nat} {front back : List Char} (hfirst : first ≤ source.length)
    (h : source.drop first = front ++ back) :
    first + front.length ≤ source.length ∧ source.extract first (first + front.length) = front ∧
      source.drop (first + front.length) = back := by
  have hlength := congrArg List.length h
  rw [List.length_drop, List.length_append] at hlength
  refine ⟨by omega, ?_, ?_⟩
  · rw [List.extract_eq_take_drop, Nat.add_sub_cancel_left, h, List.take_left]
  · rw [← List.drop_drop, h, List.drop_left]

/-! ## Tilings -/

open Lexeme in
/-- From the index `start` on, the tokens are cut out of the text: one gap and one lexeme after the
    other up to the end, or up to a character that is in the way of a lexeme. -/
inductive Tiled (source : List Char) : Nat → Tokens → Prop where
  | done {start : Nat} : start ≤ source.length → Gap (source.drop start) [] →
      Tiled source start ⟨[], none⟩
  | spoiled {start first offender : Nat} : start ≤ first → first ≤ offender →
      offender ≤ source.length → Gap (source.extract start first) (source.drop first) →
      Spoiled (source.drop first) (offender - first) →
      Tiled source start ⟨[], some (Pos.ofIndex source offender)⟩
  | token {start first past : Nat} {lexeme : Lexeme} {others : Tokens} : start ≤ first →
      first < past → past ≤ source.length → Gap (source.extract start first) (source.drop first) →
      Written lexeme (source.extract first past) (source.drop past) → Tiled source past others →
      Tiled source start
        ⟨⟨lexeme, ⟨Pos.ofIndex source first, Pos.ofIndex source past⟩⟩ :: others.tokens,
          others.invalid⟩

/-- A tiling is what is read. -/
theorem Tiled.readFrom_eq {start : Nat} {t : Tokens} (h : Tiled source start t) :
    readFrom (Pos.ofIndex source start) (source.drop start) = t := by
  induction h with
  | @done start _ hgap => exact readFrom_gap (Pos.ofIndex source start) hgap
  | @spoiled start first offender hle hfirst hoffender hgap hspoiled =>
    have hread := readFrom_spoiled (Pos.ofIndex source start) hgap hspoiled
    rw [← drop_eq_extract_append hle, length_extract (Nat.le_trans hfirst hoffender),
      Pos.advance_ofIndex hle (Nat.le_trans hfirst hoffender),
      Pos.advance_ofIndex hfirst hoffender] at hread
    exact hread
  | @token start first past lexeme others hle hfirst hpast hgap hwritten _ ih =>
    have hstart : source.drop start = source.extract start first ++ source.drop first :=
      drop_eq_extract_append hle
    have htext : source.drop first = source.extract first past ++ source.drop past :=
      drop_eq_extract_append (Nat.le_of_lt hfirst)
    rw [htext] at hgap hstart
    have hplace : (Pos.ofIndex source start).advance (source.drop start)
        (source.extract start first).length = Pos.ofIndex source first := by
      rw [length_extract (by omega), Pos.advance_ofIndex hle (by omega)]
    have hplace' : (Pos.ofIndex source first).advance (source.drop first)
        (source.extract first past).length = Pos.ofIndex source past := by
      rw [length_extract hpast, Pos.advance_ofIndex (Nat.le_of_lt hfirst) hpast]
    rw [hstart] at hplace ⊢
    rw [htext] at hplace'
    rw [readFrom_written _ hgap hwritten hplace hplace', ih]

/-- Every text can be tiled. -/
theorem exists_tiled {start : Nat} (hstart : start ≤ source.length) : ∃ t, Tiled source start t := by
  obtain ⟨gap, rest, htext, hgap⟩ := Lexeme.exists_gap (source.drop start)
  obtain ⟨hfirst, hextract, hdrop⟩ := extract_of_drop_eq hstart htext
  rw [← hextract, ← hdrop] at hgap
  -- What has been cut off the text is put in terms of indices again, first the gap, then the lexeme.
  cases rest with
  | nil =>
    rw [hdrop, hextract, ← List.append_nil gap, ← htext] at hgap
    exact ⟨_, .done hstart hgap⟩
  | cons c rest =>
    rcases Lexeme.written_or_spoiled c rest with ⟨lexeme, chars, after, hchars, hwritten⟩ | hspoiled
    · have hpos := List.length_pos_iff.2 hwritten.ne_nil
      rw [← hdrop] at hchars
      obtain ⟨hpast, hextract', hdrop'⟩ := extract_of_drop_eq hfirst hchars
      rw [← hextract', ← hdrop'] at hwritten
      obtain ⟨others, hothers⟩ := exists_tiled hpast
      exact ⟨_, .token (by omega) (by omega) hpast hgap hwritten hothers⟩
    · obtain ⟨offset, hspoiled⟩ := hspoiled
      have hlength := hspoiled.le_length
      rw [← hdrop, List.length_drop] at hlength
      rw [← hdrop, ← Nat.add_sub_cancel_left (start + gap.length) offset] at hspoiled
      exact ⟨_, .spoiled (by omega) (by omega) (by omega) hgap hspoiled⟩
termination_by source.length - start

/-- The tokens of a text are its one tiling. Each token is written between two indices of the text
    and has their places as its span; only gaps are left out; and if the text cannot be read to its
    end, the complaint is about the place of the one character that is in the way. -/
theorem ofSource_eq_iff_tiled (source : List Char) (t : Tokens) :
    ofSource source = t ↔ Tiled source 0 t := by
  have hread {t : Tokens} (h : Tiled source 0 t) : ofSource source = t := by
    rw [ofSource, ← Pos.ofIndex_zero]
    exact h.readFrom_eq
  constructor
  · intro h
    obtain ⟨t', ht'⟩ := exists_tiled (Nat.zero_le source.length)
    rw [hread ht'] at h
    exact h ▸ ht'
  · exact hread

end Tokens

end Lisplet
