import Lisplet.Node.Printer
import Lisplet.Proofs.Grammar
import Lisplet.Proofs.Lexemes

set_option autoImplicit false

/-! # Printing and reading

The text of a node that reading can give at all is read as that node. `Node.Readable` says which
nodes these are. The proof has one part for each stage of reading: the text has the lexemes
`Node.lexemes` (`Node.Readable.lexesInFront`), which is stated for a text that goes on, as the
induction over lists and vectors needs it; and these lexemes derive the node
(`Form.derives_lexemes`).

Conversely everything that is read is readable (`Form.readable_of_parse`), so reading the printed
forms of a text gives the forms again. -/

namespace Lisplet

/-! ## Names -/

/-- Splitting a text into a name loses nothing. -/
theorem QName.text_parse (t : String) : (QName.parse t).text = t := by
  unfold parse
  dsimp only
  split
  · rfl
  · next h =>
    rw [not_or] at h
    -- There is a slash, since something stands behind the first one.
    have hslash : t.toList.dropWhile (· != '/') = '/' :: (t.toList.dropWhile (· != '/')).drop 1 := by
      cases hdrop : t.toList.dropWhile (· != '/') with
      | nil => simp [hdrop] at h
      | cons c rest =>
        have hc := List.head?_dropWhile_not (· != '/') t.toList
        rw [hdrop] at hc
        have hc' : c = '/' := by simpa using hc
        rw [hc', List.drop_one, List.tail_cons]
    rw [← String.toList_inj]
    simp only [text, String.toList_append, String.toList_ofList]
    calc t.toList.takeWhile (· != '/') ++ "/".toList ++ (t.toList.dropWhile (· != '/')).drop 1
        = t.toList.takeWhile (· != '/') ++ t.toList.dropWhile (· != '/') := by
          rw [List.append_assoc, hslash]
          rfl
      _ = t.toList := List.takeWhile_append_dropWhile

namespace Node

/-! ## Readable nodes and their lexemes -/

/-- The nodes that stand for source text: finite numbers, strings without quotes, symbols and
    keywords that are read whole, and lists and vectors of such nodes. -/
inductive Readable : Node → Prop where
  | number {d : Double} : d.isFinite → Readable (.number d)
  | string {s : String} : '"' ∉ s.toList → Readable (.string s)
  | symbol {t : String} : Tokens.IsOnly t (.symbol t) → Readable (.symbol (QName.parse t))
  | keyword {t : String} :
      Tokens.IsOnly (":" ++ t) (.keyword t) → Readable (.keyword (QName.parse t))
  | list {items : List Node} : (∀ item ∈ items, Readable item) → Readable (.list items)
  | vec {items : List Node} : (∀ item ∈ items, Readable item) → Readable (.vec items)

mutual

/-- The lexemes of a readable node. -/
def lexemes : Node → List Lexeme
  | .number d => [.number d]
  | .string s => [.string s]
  | .symbol q => [.symbol q.text]
  | .keyword q => [.keyword q.text]
  | .list items => .opening .round :: (lexemesAll items ++ [.closing .round])
  | .vec items => .opening .square :: (lexemesAll items ++ [.closing .square])
  | _ => []

/-- The lexemes of readable nodes. -/
def lexemesAll : List Node → List Lexeme
  | [] => []
  | node :: rest => lexemes node ++ lexemesAll rest

end

/-! ## The lexemes of the text of a node -/

/-- Texts with a space between neighbours. -/
theorem lexesInFront_textAll {items : List Node}
    (h : ∀ item ∈ items, Tokens.LexesInFront item.text.toList item.lexemes) :
    Tokens.LexesInFront (textAll items).toList (lexemesAll items) := by
  induction items with
  | nil => exact .nil
  | cons item items ih =>
    have hitem := h item List.mem_cons_self
    have hitems := ih fun other hother => h other (List.mem_cons_of_mem item hother)
    cases items with
    | nil => simpa [textAll, lexemesAll] using hitem
    | cons next items => simpa [textAll, lexemesAll] using hitem.space hitems

/-- The text of a readable node has the lexemes of the node. -/
theorem Readable.lexesInFront {node : Node} (h : node.Readable) :
    Tokens.LexesInFront node.text.toList node.lexemes := by
  induction h with
  | number h =>
    rw [text, lexemes]
    exact .of_spells (Lexeme.spells_number h)
  | string h =>
    have hspells := Lexeme.spells_string h
    rw [text, lexemes]
    exact .of_spells (by simpa using hspells)
  | symbol h =>
    rw [text, lexemes, QName.text_parse]
    exact .of_spells (Lexeme.spells_symbol (Tokens.proper_of_isOnly h))
  | keyword h =>
    have hspells := Lexeme.spells_keyword (Tokens.proper_of_isOnly h)
    rw [text, lexemes, QName.text_parse]
    exact .of_spells (by simpa using hspells)
  | list _ ih =>
    have hbrackets := (lexesInFront_textAll ih).brackets .round
    rw [text, lexemes]
    simpa [Bracket.opener, Bracket.closer] using hbrackets
  | vec _ ih =>
    have hbrackets := (lexesInFront_textAll ih).brackets .square
    rw [text, lexemes]
    simpa [Bracket.opener, Bracket.closer] using hbrackets

end Node

namespace Form

/-! ## Reading the lexemes of a node -/

theorem derivesAll_lexemesAll {items : List Node} (h : ∀ item ∈ items, Derives item.lexemes item) :
    DerivesAll (Node.lexemesAll items) items := by
  induction items with
  | nil => exact .nil
  | cons item items ih =>
    exact .cons (h item List.mem_cons_self)
      (ih fun other hother => h other (List.mem_cons_of_mem item hother))

/-- The lexemes of a readable node derive that node. -/
theorem derives_lexemes {node : Node} (h : node.Readable) : Derives node.lexemes node := by
  induction h with
  | number _ => exact .number _
  | string _ => exact .string _
  | symbol _ =>
    rw [Node.lexemes, QName.text_parse]
    exact .symbol _
  | keyword _ =>
    rw [Node.lexemes, QName.text_parse]
    exact .keyword _
  | list _ ih => exact .list (derivesAll_lexemesAll ih)
  | vec _ ih => exact .vec (derivesAll_lexemesAll ih)

/-- A text whose lexemes derive some forms is read as these forms. -/
theorem parse_of_lexesInFront {text : String} {lexemes : List Lexeme} {forms : List Node}
    (h : Tokens.LexesInFront text.toList lexemes) (hforms : DerivesAll lexemes forms) :
    parse text = if Node.nestingAll forms ≤ nestingLimit then .ok forms else .error .tooDeep := by
  have hlexes := h [] [] Lexeme.AtBoundary.nil Tokens.lexes_nil
  rw [List.append_nil, List.append_nil] at hlexes
  obtain ⟨hlexemes, hinvalid⟩ := hlexes (Pos.start.onto text.toList.head?)
  rw [← hlexemes] at hforms
  rw [parse, readAll, ofTokens, Tokens.ofSource, hinvalid]
  exact untilError_of_derivesAll hforms

/-- The texts of readable nodes with spaces between them are read as these nodes. -/
theorem parse_textAll {forms : List Node} (h : ∀ form ∈ forms, form.Readable) :
    parse (Node.textAll forms)
      = if Node.nestingAll forms ≤ nestingLimit then .ok forms else .error .tooDeep :=
  parse_of_lexesInFront (Node.lexesInFront_textAll fun form hform => (h form hform).lexesInFront)
    (derivesAll_lexemesAll fun form hform => derives_lexemes (h form hform))

/-! ## What is read is readable -/

theorem readable_markName (mark : Mark) : (Node.symbol (QName.plain mark.name)).Readable := by
  have hall : mark.name.toList.all (fun c => !Lexeme.endsWord c) := by
    cases mark <;> decide
  have hchars : ∀ c ∈ mark.name.toList, Lexeme.endsWord c = false := by
    simpa [List.all_eq_true] using hall
  have hword : Lexeme.IsSymbolWord mark.name.toList := by
    cases mark with
    | quote => exact ⟨hchars, 'q', "uote".toList, by decide, by decide⟩
    | unquote => exact ⟨hchars, 'u', "nquote".toList, by decide, by decide⟩
    | unquoteSplicing => exact ⟨hchars, 'u', "nquote-splicing".toList, by decide, by decide⟩
    | syntaxQuote => exact ⟨hchars, 's', "yntax-quote".toList, by decide, by decide⟩
  have hparse : QName.parse mark.name = QName.plain mark.name := by
    cases mark <;> decide
  rw [← hparse]
  exact .symbol (Tokens.isOnly_of_spells (Lexeme.spells_symbol hword))

/-- A lexeme that has the value of a readable node: it can be spelled, and a number is finite. -/
def ProperFinite (lexeme : Lexeme) : Prop :=
  lexeme.Proper ∧ ∀ d, lexeme = .number d → d.isFinite

theorem builtFrom_readable : BuiltFrom ProperFinite Node.Readable where
  number d h := .number (h.2 d rfl)
  string s h := .string h.1
  symbol s h := .symbol (Tokens.isOnly_of_spells (Lexeme.spells_symbol h.1))
  keyword s h := by
    have hspells : Lexeme.Spells (":" ++ s).toList (.keyword s) := by
      simpa using Lexeme.spells_keyword h.1
    exact .keyword (Tokens.isOnly_of_spells hspells)
  mark := readable_markName
  list _ h := .list h
  vec _ h := .vec h

/-- Every number literal of the text has a finite value. -/
def LiteralsFinite (source : String) : Prop :=
  ∀ token ∈ (Tokens.ofSource source.toList).tokens, ∀ d, token.lexeme = .number d → d.isFinite

/-- All forms of a text are readable, and none is nested too deep. -/
theorem readable_of_parse {source : String} {forms : List Node} (h : parse source = .ok forms)
    (hfinite : LiteralsFinite source) : ∀ form ∈ forms, Fits Node.Readable 0 form := by
  intro form hform
  have htokens : ∀ token ∈ (Tokens.ofSource source.toList).tokens, ProperFinite token.lexeme := by
    intro token htoken
    exact ⟨Tokens.proper_of_mem_tokens htoken, hfinite token htoken⟩
  have hmem : .ok form ∈ readAll source := by
    rw [eq_map_ok h]
    exact List.mem_map_of_mem hform
  exact fits_of_mem_readFrom builtFrom_readable htokens sound_nil hmem

/-! ## The round trip -/

/-- Reading undoes printing, bit for bit: a readable node is the only form in its text, and printing
    the forms of a text with finite literals and reading them again gives the same forms. Only nodes
    nested deeper than any source text may be are refused. -/
theorem parse_printed :
    (∀ node : Node, node.Readable →
      parse node.text = if node.nesting ≤ nestingLimit then .ok [node] else .error .tooDeep) ∧
    ∀ (source : String) (forms : List Node), parse source = .ok forms → LiteralsFinite source →
      parse (Node.textAll forms) = .ok forms := by
  constructor
  · intro node hnode
    have hparse := parse_textAll fun form hform => List.mem_singleton.1 hform ▸ hnode
    rw [Node.textAll, Node.nestingAll, Node.nestingAll, Nat.max_zero] at hparse
    exact hparse
  · intro source forms hparse hfinite
    have hfits := readable_of_parse hparse hfinite
    have hnesting : Node.nestingAll forms ≤ nestingLimit := by
      refine nestingAll_le ?_
      intro form hform
      have := (hfits form hform).2
      omega
    rw [parse_textAll fun form hform => (hfits form hform).1, if_pos hnesting]

/-- The round trip at a vector with the smallest double, and at a text with a mark, a negative zero
    and a comment. -/
theorem parse_printed_samples :
    parse (Node.vec [.number ⟨1⟩, .string "a b", .keyword (QName.parse "k/v")]).text
        = .ok [.vec [.number ⟨1⟩, .string "a b", .keyword (QName.parse "k/v")]] ∧
      parse "'+ -0 ;" = .ok [ofMark .quote (.symbol ⟨none, "+"⟩), .number ⟨0x8000000000000000⟩] ∧
      parse "(quote +) -0"
        = .ok [ofMark .quote (.symbol ⟨none, "+"⟩), .number ⟨0x8000000000000000⟩] := by
  have hvec : (Node.vec [.number ⟨1⟩, .string "a b", .keyword (QName.parse "k/v")]).Readable := by
    refine .vec ?_
    intro item hitem
    simp only [List.mem_cons, List.not_mem_nil, or_false] at hitem
    rcases hitem with rfl | rfl | rfl
    · exact .number (by decide +kernel)
    · exact .string (by decide +kernel)
    · exact .keyword (by decide +kernel)
  have htokens : Tokens.ofSource "'+ -0 ;".toList
      = ⟨[⟨.mark .quote, ⟨⟨1, 1⟩, ⟨1, 2⟩⟩⟩, ⟨.symbol "+", ⟨⟨1, 2⟩, ⟨1, 3⟩⟩⟩,
          ⟨.number ⟨0x8000000000000000⟩, ⟨⟨1, 4⟩, ⟨1, 6⟩⟩⟩], none⟩ := by
    decide +kernel
  have hsource : parse "'+ -0 ;"
      = .ok [ofMark .quote (.symbol ⟨none, "+"⟩), .number ⟨0x8000000000000000⟩] := by
    rw [parse, readAll, ofTokens, htokens]
    rfl
  have hfinite : LiteralsFinite "'+ -0 ;" := by
    intro token htoken d hd
    rw [htokens] at htoken
    simp only [List.mem_cons, List.not_mem_nil, or_false] at htoken
    rcases htoken with rfl | rfl | rfl
    · cases hd
    · cases hd
    · cases hd
      decide +kernel
  have htext : Node.textAll [ofMark .quote (.symbol ⟨none, "+"⟩), .number ⟨0x8000000000000000⟩]
      = "(quote +) -0" := by
    decide +kernel
  refine ⟨parse_printed.1 _ hvec, hsource, ?_⟩
  rw [← htext]
  exact parse_printed.2 _ _ hsource hfinite

end Form

end Lisplet
