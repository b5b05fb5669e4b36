import Lisplet.Proofs.MacroFree
import Lisplet.Proofs.RoundTrip

set_option autoImplicit false

/-! # Canonical forms print like source

The text of an expanded form is source text again, and where there are no macros it expands to the
same form (`Form.parse_expanded`). What is read from the text is known in advance: `Node.source` is
the list that a canonical form prints like. It is not the form that was expanded: special forms have
lost the namespaces of their heads, and templates have their symbols qualified.

The proof has two parts. The text of a canonical form has the lexemes of its source
(`Node.lexesInFront_source`). And the rules of expansion lead from the source back to the canonical
form (`ExpandsTo.reprints`), since they never look at what has been lost. -/

namespace Lisplet

namespace Node

/-! ## Source -/

mutual

/-- The form that a node prints like. -/
def source : Node → Node
  | .list items => .list (sourceAll items)
  | .vec items => .vec (sourceAll items)
  | .letIn bindings body =>
    .list (.symbol (QName.plain "let") :: .vec (sourceAll bindings) :: sourceAll body)
  | .fn params body =>
    .list (.symbol (QName.plain "fn") :: .vec (sourceAll params) :: sourceAll body)
  | .macroFn params body =>
    .list (.symbol (QName.plain "macro") :: .vec (sourceAll params) :: sourceAll body)
  | .define name expr =>
    .list [.symbol (QName.plain "def"), .symbol (QName.plain name), source expr]
  | .call head args => .list (.symbol head :: sourceAll args)
  | other => other

/-- The forms that nodes print like. -/
def sourceAll : List Node → List Node
  | [] => []
  | node :: rest => source node :: sourceAll rest

end

theorem sourceAll_eq_map (nodes : List Node) : sourceAll nodes = nodes.map source := by
  induction nodes with
  | nil => rfl
  | cons node nodes ih => rw [sourceAll, ih, List.map_cons]

/-- What can be read is its own source. -/
theorem Readable.source_eq {node : Node} (h : node.Readable) : node.source = node := by
  have hall {items : List Node} (hitems : ∀ item ∈ items, item.source = item) :
      sourceAll items = items := by
    rw [sourceAll_eq_map, List.map_congr_left hitems, List.map_id']
  induction h with
  | list _ ih => rw [source, hall ih]
  | vec _ ih => rw [source, hall ih]
  | _ => simp only [source]

/-! ## The lexemes of the text of a canonical form -/

theorem Readable.of_mem_list {items : List Node} (h : (Node.list items).Readable) :
    ∀ item ∈ items, item.Readable := by
  cases h with
  | list hitems => exact hitems

theorem Readable.of_mem_vec {items : List Node} (h : (Node.vec items).Readable) :
    ∀ item ∈ items, item.Readable := by
  cases h with
  | vec hitems => exact hitems

theorem Readable.lexesInFront_word {q : QName} (h : (Node.symbol q).Readable) :
    Tokens.LexesInFront q.text.toList [.symbol q.text] := by
  have hword := h.lexesInFront
  rwa [text, lexemes] at hword

/-- A word, nodes in square brackets and other nodes, all in round brackets. -/
theorem lexesInFront_bracketed {word : String} {inner outer : List Node}
    (h : (Node.list (.symbol (QName.plain word) :: .vec (sourceAll inner) ::
      sourceAll outer)).Readable)
    (hinner : (∀ node ∈ sourceAll inner, node.Readable) →
      Tokens.LexesInFront (textAll inner).toList (lexemesAll (sourceAll inner)))
    (houter : (∀ node ∈ sourceAll outer, node.Readable) →
      Tokens.LexesInFront (textAll outer).toList (lexemesAll (sourceAll outer))) :
    Tokens.LexesInFront
      ("(" ++ word ++ " [" ++ textAll inner ++ "] " ++ textAll outer ++ ")").toList
      (Node.list (.symbol (QName.plain word) :: .vec (sourceAll inner) ::
        sourceAll outer)).lexemes := by
  obtain ⟨hword, hrest⟩ := List.forall_mem_cons.1 h.of_mem_list
  obtain ⟨hvec, hothers⟩ := List.forall_mem_cons.1 hrest
  have hfront := hword.lexesInFront_word.space ((hinner hvec.of_mem_vec).brackets .square)
  have hwhole := (hfront.space (houter hothers)).brackets .round
  simpa [Bracket.opener, Bracket.closer, lexemes, lexemesAll, QName.text, QName.plain] using hwhole

mutual

/-- The text of a node has the lexemes of its source. -/
theorem lexesInFront_source : ∀ node : Node, node.source.Readable →
    Tokens.LexesInFront node.text.toList node.source.lexemes
  | .list items, h => by
    rw [source] at h ⊢
    have hbrackets := (lexesInFront_sourceAll items h.of_mem_list).brackets .round
    rw [text, lexemes]
    simpa [Bracket.opener, Bracket.closer] using hbrackets
  | .vec items, h => by
    rw [source] at h ⊢
    have hbrackets := (lexesInFront_sourceAll items h.of_mem_vec).brackets .square
    rw [text, lexemes]
    simpa [Bracket.opener, Bracket.closer] using hbrackets
  | .letIn bindings body, h => by
    rw [source] at h ⊢
    rw [text]
    simpa using lexesInFront_bracketed h (lexesInFront_sourceAll bindings) (lexesInFront_sourceAll body)
  | .fn params body, h => by
    rw [source] at h ⊢
    rw [text]
    simpa using lexesInFront_bracketed h (lexesInFront_sourceAll params) (lexesInFront_sourceAll body)
  | .macroFn params body, h => by
    rw [source] at h ⊢
    rw [text]
    simpa using lexesInFront_bracketed h (lexesInFront_sourceAll params) (lexesInFront_sourceAll body)
  | .define name expr, h => by
    rw [source] at h ⊢
    obtain ⟨hword, hrest⟩ := List.forall_mem_cons.1 h.of_mem_list
    obtain ⟨hname, hexpr⟩ := List.forall_mem_cons.1 hrest
    have hitems := (hword.lexesInFront_word.space hname.lexesInFront_word).space
      (lexesInFront_source expr (hexpr _ List.mem_cons_self))
    have hbrackets := hitems.brackets .round
    rw [text, lexemes]
    simpa [Bracket.opener, Bracket.closer, lexemes, lexemesAll, QName.text, QName.plain]
      using hbrackets
  | .call head args, h => by
    rw [source] at h ⊢
    obtain ⟨hhead, hargs⟩ := List.forall_mem_cons.1 h.of_mem_list
    rw [text, lexemes, lexemesAll, lexemes]
    -- No space is printed behind the head if there are no arguments.
    cases args with
    | nil =>
      have hbrackets := hhead.lexesInFront_word.brackets .round
      simpa [Bracket.opener, Bracket.closer, sourceAll, lexemesAll] using hbrackets
    | cons arg args =>
      have hitems := hhead.lexesInFront_word.space (lexesInFront_sourceAll (arg :: args) hargs)
      have hbrackets := hitems.brackets .round
      simpa [Bracket.opener, Bracket.closer] using hbrackets
  | .number _, h | .bool _, h | .string _, h | .symbol _, h | .keyword _, h | .aliasTo _ _, h => by
    simp only [source] at h ⊢
    exact h.lexesInFront

theorem lexesInFront_sourceAll : ∀ nodes : List Node, (∀ node ∈ sourceAll nodes, node.Readable) →
    Tokens.LexesInFront (textAll nodes).toList (lexemesAll (sourceAll nodes))
  | [], _ => .nil
  | [node], h => by
    have hnode := lexesInFront_source node (h _ List.mem_cons_self)
    simpa [textAll, sourceAll, lexemesAll] using hnode
  | node :: next :: rest, h => by
    obtain ⟨hnode, hrest⟩ := List.forall_mem_cons.1 h
    have hothers := lexesInFront_sourceAll (next :: rest) hrest
    have hspaced := (lexesInFront_source node hnode).space hothers
    rw [textAll, sourceAll, lexemesAll]
    simpa using hspaced

end

end Node

/-- The text of a node is read as its source. -/
theorem Form.parse_text_source {node : Node} (h : node.source.Readable) :
    parse node.text
      = if node.source.nesting ≤ nestingLimit then .ok [node.source] else .error .tooDeep := by
  have hparse := parse_of_lexesInFront (Node.lexesInFront_source node h) (derives_lexemes h).all
  rwa [Node.nestingAll, Node.nestingAll, Nat.max_zero] at hparse

/-! ## Symbols that can be read -/

/-- Any characters but those that end words may follow a slash behind a symbol. -/
theorem Lexeme.IsSymbolWord.append_slash {front back : List Char} (h : IsSymbolWord front)
    (hback : ∀ c ∈ back, endsWord c = false) : IsSymbolWord (front ++ '/' :: back) := by
  obtain ⟨hfront, first, rest, rfl, hfirst⟩ := h
  refine ⟨?_, first, rest ++ '/' :: back, rfl, ?_⟩
  · intro c hc
    rcases List.mem_append.1 hc with hc | hc
    · exact hfront c hc
    · rcases List.mem_cons.1 hc with rfl | hc
      · decide
      · exact hback c hc
  · cases rest with
    | nil =>
      split
      · rfl
      · next hsign => simpa [hsign] using hfirst
    | cons next rest => exact hfirst

/-- A text without slashes and a text behind a slash are the two parts of a name. -/
theorem QName.parse_append_slash {ns name : String} (hns : ns.toList ≠ [])
    (hslash : '/' ∉ ns.toList) (hname : name.toList ≠ []) :
    parse (ns ++ "/" ++ name) = ⟨some ns, name⟩ := by
  have hchars : (ns ++ "/" ++ name).toList = ns.toList ++ '/' :: name.toList := by simp
  have hinside : ∀ c ∈ ns.toList, (c != '/') = true := by
    intro c hc
    rw [bne_iff_ne]
    rintro rfl
    exact hslash hc
  have htake : (ns.toList ++ '/' :: name.toList).takeWhile (· != '/') = ns.toList := by
    rw [List.takeWhile_append_of_pos hinside]
    simp
  have hdrop : (ns.toList ++ '/' :: name.toList).dropWhile (· != '/') = '/' :: name.toList := by
    rw [List.dropWhile_append_of_pos hinside]
    simp
  unfold parse
  simp only [hchars, htake, hdrop, List.drop_one, List.tail_cons]
  rw [if_neg (by simp [hns, hname])]
  simp

namespace Node

theorem readable_symbol_iff {q : QName} :
    (Node.symbol q).Readable ↔ QName.parse q.text = q ∧ Lexeme.IsSymbolWord q.text.toList := by
  constructor
  · intro h
    cases h with
    | @symbol t honly =>
      rw [QName.text_parse]
      exact ⟨rfl, Tokens.proper_of_isOnly honly⟩
  · rintro ⟨hparse, hword⟩
    rw [← hparse]
    exact .symbol (Tokens.isOnly_of_spells (Lexeme.spells_symbol hword))

/-- A symbol can still be read when it is qualified by a namespace that can be read. -/
theorem Readable.qualify {ns : String} (hslash : '/' ∉ ns.toList)
    (hns : Tokens.IsOnly ns (.symbol ns)) {q : QName} (h : (Node.symbol q).Readable) :
    (Node.symbol (q.qualify ns)).Readable := by
  obtain ⟨qns, name⟩ := q
  cases qns with
  | some _ => exact h
  | none =>
    obtain ⟨_, hword⟩ := readable_symbol_iff.1 h
    have hnsWord : Lexeme.IsSymbolWord ns.toList := Tokens.proper_of_isOnly hns
    have hne {chars : List Char} (hchars : Lexeme.IsSymbolWord chars) : chars ≠ [] := by
      obtain ⟨_, first, rest, rfl, _⟩ := hchars
      simp
    refine readable_symbol_iff.2 ⟨QName.parse_append_slash (hne hnsWord) hslash (hne hword), ?_⟩
    have hjoined := hnsWord.append_slash hword.1
    simpa [QName.text, QName.qualify] using hjoined

end Node

/-! ## Definitions of plain names -/

namespace Node

mutual

/-- Whether all definitions in a piece of code name plain symbols. -/
def definesPlain : Node → Bool
  | .list (.symbol head :: args) =>
    match SpecialForm.ofName? head.name, args with
    | some .define, [.symbol q, expr] => q.ns.isNone && definesPlain expr
    | some .letIn, .vec items :: forms => definesPlainAll items && definesPlainAll forms
    | some .quote, args | some .syntaxQuote, args => unquotesPlainAll args
    | _, args => definesPlainAll args
  | _ => true

def definesPlainAll : List Node → Bool
  | [] => true
  | node :: rest => definesPlain node && definesPlainAll rest

/-- The same for quoted data, in which only what is unquoted is code. -/
def unquotesPlain : Node → Bool
  | .vec items => unquotesPlainAll items
  | .list items =>
    match Eval.unquoteName? items with
    | some _ => definesPlainAll items
    | none => unquotesPlainAll items
  | _ => true

def unquotesPlainAll : List Node → Bool
  | [] => true
  | node :: rest => unquotesPlain node && unquotesPlainAll rest

end

end Node

/-! ## Back to the canonical form -/

/-- The source of the canonical form `value` can be read, it is nested as deep as `node`, and it
    leads to `value` in the same way. -/
structure Reprints (R : Node → Node → Prop) (node value : Node) : Prop where
  readable : value.source.Readable
  nesting_eq : value.source.nesting = node.nesting
  again : R value.source value

/-- The same for the items of a list. -/
structure ReprintsAll (R : List Node → List Node → Prop) (nodes values : List Node) : Prop where
  readable : ∀ node ∈ Node.sourceAll values, node.Readable
  nesting_eq : Node.nestingAll (Node.sourceAll values) = Node.nestingAll nodes
  again : R (Node.sourceAll values) values

/-- One item more. -/
theorem Reprints.cons {R : Node → Node → Prop} {R' : List Node → List Node → Prop}
    {node value : Node} {nodes values : List Node} (h : Reprints R node value)
    (hrest : ReprintsAll R' nodes values)
    (hcons : R value.source value → R' (Node.sourceAll values) values →
      R' (value.source :: Node.sourceAll values) (value :: values)) :
    ReprintsAll R' (node :: nodes) (value :: values) := by
  refine ⟨List.forall_mem_cons.2 ⟨h.readable, hrest.readable⟩, ?_, hcons h.again hrest.again⟩
  rw [Node.sourceAll, Node.nestingAll, Node.nestingAll, h.nesting_eq, hrest.nesting_eq]

/-- What can be read is reprinted as it is. -/
theorem reprintsAll_of_readable {nodes : List Node} (h : ∀ node ∈ nodes, node.Readable) :
    ReprintsAll Eq nodes nodes := by
  have hsource : Node.sourceAll nodes = nodes := by
    rw [Node.sourceAll_eq_map, List.map_congr_left fun node hnode => (h node hnode).source_eq,
      List.map_id']
  exact ⟨by rwa [hsource], by rw [hsource], hsource⟩

section Rules

variable {ns : String} {R : Node → Node → Prop}

/-- Code that can be read and defines plain names is reprinted. -/
def ReprintsCode (R : Node → Node → Prop) : Prop :=
  ∀ node value, R node value → node.Readable → node.definesPlain → Reprints R node value

theorem ReprintsCode.all (hR : ReprintsCode R) {nodes values : List Node}
    (h : List.Forall₂ R nodes values) (hreadable : ∀ node ∈ nodes, node.Readable)
    (hplain : Node.definesPlainAll nodes) : ReprintsAll (List.Forall₂ R) nodes values := by
  induction h with
  | nil => exact ⟨by simp [Node.sourceAll], rfl, .nil⟩
  | cons hnode _ ih =>
    obtain ⟨hfirst, hrest⟩ := List.forall_mem_cons.1 hreadable
    obtain ⟨hplain₁, hplain₂⟩ : _ ∧ _ := by simpa [Node.definesPlainAll] using hplain
    exact (hR _ _ hnode hfirst hplain₁).cons (ih hrest hplain₂) .cons

theorem readable_unquoteName {name : String} (h : SpecialForm.IsUnquote name) :
    (Node.symbol (QName.plain name)).Readable := by
  rcases h with h | h
  · rw [SpecialForm.eq_unquote h]
    exact Form.readable_markName .unquote
  · rw [SpecialForm.eq_unquoteSplicing h]
    exact Form.readable_markName .unquoteSplicing

/-- A form with one argument behind its head. -/
theorem Reprints.unary {name : String} {head : QName} {arg value : Node} (h : Reprints R arg value)
    (hname : (Node.symbol (QName.plain name)).Readable) {R' : Node → Node → Prop}
    (hagain : R' (.list [.symbol (QName.plain name), value.source])
      (.call (QName.plain name) [value])) :
    Reprints R' (.list [.symbol head, arg]) (.call (QName.plain name) [value]) := by
  refine ⟨?_, ?_, hagain⟩
  · refine .list ?_
    simpa [Node.sourceAll] using ⟨hname, h.readable⟩
  · simp [Node.source, Node.sourceAll, Node.nesting, Node.nestingAll, h.nesting_eq]

/-! ### Quoted data -/

/-- A way to rename the symbols of a template that comes to an end at once. -/
structure Settled (rename : QName → QName) : Prop where
  name_eq : ∀ q, (rename q).name = q.name
  idem : ∀ q, rename (rename q) = rename q
  readable : ∀ q, (Node.symbol q).Readable → (Node.symbol (rename q)).Readable

theorem settled_id : Settled fun q => q := ⟨fun _ => rfl, fun _ => rfl, fun _ h => h⟩

theorem settled_qualify (hslash : '/' ∉ ns.toList) (hns : Tokens.IsOnly ns (.symbol ns)) :
    Settled (QName.qualify ns) where
  name_eq q := by
    obtain ⟨_ | _, _⟩ := q <;> rfl
  idem q := by
    obtain ⟨_ | _, _⟩ := q <;> rfl
  readable _ h := h.qualify hslash hns

theorem Node.source_eq_symbol {value : Node} {q : QName} (h : value.source = .symbol q) :
    value = .symbol q := by
  cases value <;> simp_all [source]

variable {rename : QName → QName}

/-- Renaming does not make an unquote of a list. -/
theorem QuotedAllBy.unquoteName?_sourceAll (hrename : Settled rename) {items values : List Node}
    (h : QuotedAllBy R rename items values) (hitems : Eval.unquoteName? items = none) :
    Eval.unquoteName? (Node.sourceAll values) = none := by
  rw [Option.eq_none_iff_forall_ne_some] at hitems ⊢
  intro name hname
  obtain ⟨head, rest, hvalues, rfl, hunquote⟩ := Eval.unquoteName?_eq_some_iff.1 hname
  cases h with
  | nil => cases hvalues
  | cons hvalue _ =>
    -- Only a symbol has a symbol as its source, and only symbols are renamed to symbols.
    have hhead := Node.source_eq_symbol (List.cons.inj hvalues).1
    subst hhead
    cases hvalue with
    | symbol q =>
      rw [hrename.name_eq] at hunquote
      exact hitems _ (Eval.unquoteName?_eq_some_iff.2 ⟨q, _, rfl, rfl, hunquote⟩)
    | other hsymbol _ _ => exact hsymbol _ rfl

mutual

/-- Quoted data are reprinted if the code in them is. -/
theorem QuotedBy.reprints (hR : ReprintsCode R) (hrename : Settled rename) :
    ∀ {node value : Node}, QuotedBy R rename node value → node.Readable → node.unquotesPlain →
      Reprints (QuotedBy R rename) node value
  | _, _, .symbol q, hreadable, _ => by
    have hagain : QuotedBy R rename (.symbol (rename q)) (.symbol (rename (rename q))) :=
      .symbol (rename q)
    rw [hrename.idem] at hagain
    exact ⟨hrename.readable q hreadable, rfl, hagain⟩
  | _, _, .vec hitems, hreadable, hplain => by
    rw [Node.unquotesPlain] at hplain
    have h := hitems.reprints hR hrename hreadable.of_mem_vec hplain
    refine ⟨.vec h.readable, ?_, .vec h.again⟩
    rw [Node.source, Node.nesting, Node.nesting, h.nesting_eq]
  | _, _, .list hnone hitems, hreadable, hplain => by
    rw [Node.unquotesPlain, hnone] at hplain
    have h := hitems.reprints hR hrename hreadable.of_mem_list hplain
    refine ⟨.list h.readable, ?_, .list (hitems.unquoteName?_sourceAll hrename hnone) h.again⟩
    rw [Node.source, Node.nesting, Node.nesting, h.nesting_eq]
  | _, _, @QuotedBy.unquote _ _ head _ _ hunquote hvalue, hreadable, hplain => by
    rw [Node.unquotesPlain, Eval.unquoteName?_eq_some_iff.2 ⟨head, _, rfl, rfl, hunquote⟩] at hplain
    have harg := hR _ _ hvalue (hreadable.of_mem_list _ (by simp))
      (by simpa [Node.definesPlainAll, Node.definesPlain] using hplain)
    exact harg.unary (readable_unquoteName hunquote) (.unquote hunquote harg.again)
  | node, _, .other hsymbol hvec hlist, hreadable, _ => by
    have hsource := hreadable.source_eq
    refine ⟨hsource.symm ▸ hreadable, congrArg Node.nesting hsource, ?_⟩
    rw [hsource]
    exact .other hsymbol hvec hlist

theorem QuotedAllBy.reprints (hR : ReprintsCode R) (hrename : Settled rename) :
    ∀ {nodes values : List Node}, QuotedAllBy R rename nodes values →
      (∀ node ∈ nodes, node.Readable) → Node.unquotesPlainAll nodes →
        ReprintsAll (QuotedAllBy R rename) nodes values
  | _, _, .nil, _, _ => ⟨by simp [Node.sourceAll], rfl, .nil⟩
  | _, _, .cons hitem hitems, hreadable, hplain => by
    obtain ⟨hfirst, hrest⟩ := List.forall_mem_cons.1 hreadable
    obtain ⟨hplain₁, hplain₂⟩ : _ ∧ _ := by simpa [Node.unquotesPlainAll] using hplain
    exact (hitem.reprints hR hrename hfirst hplain₁).cons
      (hitems.reprints hR hrename hrest hplain₂) .cons

end

/-! ### Special forms and calls -/

theorem BindsBy.reprints (hR : ReprintsCode R) {items bindings : List Node}
    (h : BindsBy R items bindings) (hreadable : ∀ item ∈ items, item.Readable)
    (hplain : Node.definesPlainAll items) : ReprintsAll (BindsBy R) items bindings := by
  induction h with
  | nil => exact ⟨by simp [Node.sourceAll], rfl, .nil⟩
  | @cons q expr value items values hvalue _ ih =>
    obtain ⟨hname, hrest⟩ := List.forall_mem_cons.1 hreadable
    obtain ⟨hexpr, hitems⟩ := List.forall_mem_cons.1 hrest
    obtain ⟨hplain₁, hplain₂⟩ : expr.definesPlain ∧ Node.definesPlainAll items := by
      simpa [Node.definesPlainAll, Node.definesPlain] using hplain
    have hfirst := hR _ _ hvalue hexpr hplain₁
    have hothers := ih hitems hplain₂
    refine ⟨?_, ?_, .cons hfirst.again hothers.again⟩
    · have hrest := List.forall_mem_cons.2 ⟨hfirst.readable, hothers.readable⟩
      exact List.forall_mem_cons.2 ⟨hname, hrest⟩
    · simp only [Node.source, Node.sourceAll, Node.nesting, Node.nestingAll, hfirst.nesting_eq,
        hothers.nesting_eq]

/-- A form with a vector behind its head. -/
theorem ReprintsAll.bracketed {R₁ R₂ : List Node → List Node → Prop} {R' : Node → Node → Prop}
    {items bindings forms body : List Node} (hitems : ReprintsAll R₁ items bindings)
    (hforms : ReprintsAll R₂ forms body) {head : QName} {word : String} {value : Node}
    (hword : (Node.symbol (QName.plain word)).Readable)
    (hsource : value.source = .list (.symbol (QName.plain word) :: .vec (Node.sourceAll bindings) ::
      Node.sourceAll body))
    (hagain : R' value.source value) :
    Reprints R' (.list (.symbol head :: .vec items :: forms)) value := by
  refine ⟨?_, ?_, hagain⟩
  · have hrest := List.forall_mem_cons.2 ⟨.vec hitems.readable, hforms.readable⟩
    rw [hsource]
    exact .list (List.forall_mem_cons.2 ⟨hword, hrest⟩)
  · simp only [hsource, Node.nesting, Node.nestingAll, hitems.nesting_eq, hforms.nesting_eq]

theorem readable_special {name : String} (hparse : QName.parse name = QName.plain name)
    (hword : Tokens.IsOnly name (.symbol name)) : (Node.symbol (QName.plain name)).Readable := by
  rw [← hparse]
  exact .symbol hword

/-- A body that is not empty has a source that is not empty. -/
theorem sourceAll_ne_nil {forms body : List Node} (h : List.Forall₂ R forms body)
    (hne : forms ≠ []) : Node.sourceAll body ≠ [] := by
  rw [Node.sourceAll_eq_map, Ne, List.map_eq_nil_iff]
  rintro rfl
  exact hne (List.forall₂_nil_right_iff.1 h)

theorem SpecialBy.reprints (hR : ReprintsCode R) (hslash : '/' ∉ ns.toList)
    (hns : Tokens.IsOnly ns (.symbol ns)) {head : QName} {form : SpecialForm} {args : List Node}
    {value : Node} (hform : SpecialForm.ofName? head.name = some form)
    (h : SpecialBy R ns head.name form args value)
    (hreadable : (Node.list (.symbol head :: args)).Readable)
    (hplain : (Node.list (.symbol head :: args)).definesPlain) :
    Reprints (ExpandsBy R ns) (.list (.symbol head :: args)) value := by
  obtain ⟨hhead, hargs⟩ := List.forall_mem_cons.1 hreadable.of_mem_list
  cases h with
  | @define q expr value hvalue =>
    obtain ⟨hname, hexpr⟩ := List.forall_mem_cons.1 hargs
    obtain ⟨hq, hplain⟩ : q.ns = none ∧ expr.definesPlain := by
      simpa [Node.definesPlain, hform] using hplain
    have h := hR _ _ hvalue (hexpr expr List.mem_cons_self) hplain
    -- The canonical form has the bare name only, which is why `q` must not have a namespace.
    obtain ⟨_, name⟩ := q
    subst hq
    have hword : (Node.symbol (QName.plain "def")).Readable :=
      readable_special (by decide) (by decide +kernel)
    refine ⟨.list ?_, ?_, ?_⟩
    · simpa using ⟨hword, hname, h.readable⟩
    · simp only [Node.source, Node.nesting, Node.nestingAll, h.nesting_eq]
    · exact .special rfl (.define h.again)
  | @fn params forms body hne hbody =>
    obtain ⟨hparams, hforms⟩ := List.forall_mem_cons.1 hargs
    have hnames := reprintsAll_of_readable hparams.of_mem_vec
    have h := hR.all hbody hforms
      (by simpa [Node.definesPlain, Node.definesPlainAll, hform] using hplain)
    refine hnames.bracketed h (readable_special (by decide) (by decide +kernel)) rfl ?_
    rw [Node.source, hnames.again]
    exact .special rfl (.fn (sourceAll_ne_nil hbody hne) h.again)
  | @macroFn params forms body hne hbody =>
    obtain ⟨hparams, hforms⟩ := List.forall_mem_cons.1 hargs
    have hnames := reprintsAll_of_readable hparams.of_mem_vec
    have h := hR.all hbody hforms
      (by simpa [Node.definesPlain, Node.definesPlainAll, hform] using hplain)
    refine hnames.bracketed h (readable_special (by decide) (by decide +kernel)) rfl ?_
    rw [Node.source, hnames.again]
    exact .special rfl (.macroFn (sourceAll_ne_nil hbody hne) h.again)
  | @letIn items bindings forms body hbindings hbody =>
    obtain ⟨hvec, hforms⟩ := List.forall_mem_cons.1 hargs
    obtain ⟨hplain₁, hplain₂⟩ : Node.definesPlainAll items ∧ Node.definesPlainAll forms := by
      simpa [Node.definesPlain, hform] using hplain
    have hitems := hbindings.reprints hR hvec.of_mem_vec hplain₁
    have h := hR.all hbody hforms hplain₂
    exact hitems.bracketed h (readable_special (by decide) (by decide +kernel)) rfl
      (.special rfl (.letIn hitems.again h.again))
  | @quote template value hvalue =>
    have htemplate := hvalue.reprints hR settled_id (hargs template List.mem_cons_self)
      (by simpa [Node.definesPlain, Node.unquotesPlainAll, hform] using hplain)
    exact htemplate.unary (Form.readable_markName .quote) (.special rfl (.quote htemplate.again))
  | @syntaxQuote template value hvalue =>
    have htemplate := hvalue.reprints hR (settled_qualify hslash hns)
      (hargs template List.mem_cons_self)
      (by simpa [Node.definesPlain, Node.unquotesPlainAll, hform] using hplain)
    exact htemplate.unary (Form.readable_markName .syntaxQuote)
      (.special rfl (.syntaxQuote htemplate.again))
  | @unquote arg value hvalue =>
    have harg := hR _ _ hvalue (hargs arg List.mem_cons_self)
      (by simpa [Node.definesPlain, Node.definesPlainAll, hform] using hplain)
    exact harg.unary (readable_unquoteName (.inl hform)) (.special hform (.unquote harg.again))
  | @unquoteSplicing arg value hvalue =>
    have harg := hR _ _ hvalue (hargs arg List.mem_cons_self)
      (by simpa [Node.definesPlain, Node.definesPlainAll, hform] using hplain)
    exact harg.unary (readable_unquoteName (.inr hform))
      (.special hform (.unquoteSplicing harg.again))

theorem ExpandsBy.reprints (hR : ReprintsCode R) (hslash : '/' ∉ ns.toList)
    (hns : Tokens.IsOnly ns (.symbol ns)) : ReprintsCode (ExpandsBy R ns) := by
  intro node value h hreadable hplain
  cases h with
  | same hnot =>
    have hsource := hreadable.source_eq
    refine ⟨hsource.symm ▸ hreadable, congrArg Node.nesting hsource, ?_⟩
    rw [hsource]
    exact .same hnot
  | special hform hspecial => exact hspecial.reprints hR hslash hns hform hreadable hplain
  | @call head args values hform hvalues =>
    obtain ⟨hhead, hargs⟩ := List.forall_mem_cons.1 hreadable.of_mem_list
    have h := hR.all hvalues hargs (by simpa [Node.definesPlain, hform] using hplain)
    refine ⟨.list (List.forall_mem_cons.2 ⟨hhead, h.readable⟩), ?_, .call hform h.again⟩
    simp only [Node.source, Node.nesting, Node.nestingAll, h.nesting_eq]

end Rules

/-- The rules of expansion lead from the source of a canonical form back to it. -/
theorem ExpandsTo.reprints {ns : String} (hslash : '/' ∉ ns.toList)
    (hns : Tokens.IsOnly ns (.symbol ns)) (budget : Nat) : ReprintsCode (ExpandsTo ns budget) := by
  induction budget with
  | zero => exact fun _ _ h => h.elim
  | succ budget ih => exact ExpandsBy.reprints ih hslash hns

/-! ## Forms that are read -/

namespace Node

mutual

/-- Whether all numbers in lists and vectors are finite. -/
def finite : Node → Bool
  | .number d => d.isFinite
  | .list items | .vec items => finiteAll items
  | _ => true

def finiteAll : List Node → Bool
  | [] => true
  | node :: rest => finite node && finiteAll rest

end

theorem finiteAll_iff {nodes : List Node} : finiteAll nodes ↔ ∀ node ∈ nodes, node.finite := by
  induction nodes with
  | nil => simp [finiteAll]
  | cons node nodes ih => simp [finiteAll, ← ih]

end Node

namespace Form

theorem builtFrom_readable_of_finite :
    BuiltFrom Lexeme.Proper fun node => node.finite → node.Readable where
  number d _ hfinite := .number (by simpa [Node.finite] using hfinite)
  string s h _ := builtFrom_readable.string s ⟨h, nofun⟩
  symbol s h _ := builtFrom_readable.symbol s ⟨h, nofun⟩
  keyword s h _ := builtFrom_readable.keyword s ⟨h, nofun⟩
  mark mark _ := readable_markName mark
  list items h hfinite := by
    rw [Node.finite, Node.finiteAll_iff] at hfinite
    exact .list fun item hitem => h item hitem (hfinite item hitem)
  vec items h hfinite := by
    rw [Node.finite, Node.finiteAll_iff] at hfinite
    exact .vec fun item hitem => h item hitem (hfinite item hitem)

/-- A form of a text is readable if its own numbers are finite. -/
theorem readable_of_finite {source : String} {forms : List Node} (h : parse source = .ok forms)
    {node : Node} (hnode : node ∈ forms) (hfinite : node.finite) :
    node.Readable ∧ node.nesting ≤ nestingLimit := by
  have hmem : .ok node ∈ readAll source := by
    rw [eq_map_ok h]
    exact List.mem_map_of_mem hnode
  obtain ⟨hreadable, hnesting⟩ := fits_of_mem_readFrom builtFrom_readable_of_finite
    (fun _ => Tokens.proper_of_mem_tokens) sound_nil hmem
  exact ⟨hreadable hfinite, by omega⟩

/-- Canonical forms print like source. Let no name be bound to a macro, and let the current
    namespace be a symbol without slashes. If a form with finite numbers that defines plain names
    only is read and expanded, then its expansion prints as a text with one form, and that form is
    expanded to the same again, both in the scopes from before and in those that the first expansion
    has left. -/
theorem parse_expanded (budget : Nat) {ns : String} {id : ScopeId}
    {t t₁ : ScopeTree} (hmacros : t.MacroFree ns id) (hslash : '/' ∉ ns.toList)
    (hns : Tokens.IsOnly ns (.symbol ns)) {source : String} {forms : List Node}
    (hsource : parse source = .ok forms) {node value : Node} (hnode : node ∈ forms)
    (hfinite : node.finite) (hplain : node.definesPlain)
    (hexpand : (Passes.within budget).expand id node t = .ok value t₁) :
    ∃ node', parse value.text = .ok [node'] ∧
      (∃ t₂, (Passes.within budget).expand id node' t = .ok value t₂) ∧
      ∃ t₂, (Passes.within budget).expand id node' t₁ = .ok value t₂ := by
  obtain ⟨hreadable, hnesting⟩ := readable_of_finite hsource hnode hfinite
  have hyields (node : Node) : Eval.Yields ns id _ (ExpandsTo ns budget node) :=
    Passes.yields_expand budget node
  obtain ⟨hexpands, hscopes⟩ := (hyields node t hmacros).1 value t₁ hexpand
  have h := ExpandsTo.reprints hslash hns budget node value hexpands hreadable hplain
  refine ⟨value.source, ?_, ?_, ?_⟩
  -- The source is nested as deep as a form that has been read, so the reader takes it.
  · rw [parse_text_source h.readable, h.nesting_eq, if_pos hnesting]
  · obtain ⟨t₂, hrun, _⟩ := (hyields value.source t hmacros).2 value h.again
    exact ⟨t₂, hrun⟩
  · have hmacros₁ := hmacros.of_scopes_eq hscopes
    obtain ⟨t₂, hrun, _⟩ := (hyields value.source t₁ hmacros₁).2 value h.again
    exact ⟨t₂, hrun⟩

/-- A template with an empty `let` in it, expanded in a fresh root scope: the symbol outside is
    qualified, the one inside is not, and the text has a space where the body could stand. -/
theorem parse_expanded_template :
    let root := ScopeTree.root ⟨1, fun _ => .missing⟩ "user"
    let canonical : Node := .call (QName.plain "syntax-quote")
      [.vec [.symbol ⟨some "user", "x"⟩, .call (QName.plain "unquote")
        [.letIn [.symbol (QName.plain "y"), .keyword (QName.plain "k")] []]]]
    ∃ node', parse "(syntax-quote [user/x (unquote (let [y :k] ))])" = .ok [node'] ∧
      ∃ t₂, (Passes.within 9).expand ScopeTree.rootId node' root = .ok canonical t₂ := by
  intro root canonical
  have htokens : Tokens.ofSource "`[x ~(let [y :k])]".toList
      = ⟨[⟨.mark .syntaxQuote, ⟨⟨1, 1⟩, ⟨1, 2⟩⟩⟩, ⟨.opening .square, ⟨⟨1, 2⟩, ⟨1, 3⟩⟩⟩,
          ⟨.symbol "x", ⟨⟨1, 3⟩, ⟨1, 4⟩⟩⟩, ⟨.mark .unquote, ⟨⟨1, 5⟩, ⟨1, 6⟩⟩⟩,
          ⟨.opening .round, ⟨⟨1, 6⟩, ⟨1, 7⟩⟩⟩, ⟨.symbol "let", ⟨⟨1, 7⟩, ⟨1, 10⟩⟩⟩,
          ⟨.opening .square, ⟨⟨1, 11⟩, ⟨1, 12⟩⟩⟩, ⟨.symbol "y", ⟨⟨1, 12⟩, ⟨1, 13⟩⟩⟩,
          ⟨.keyword "k", ⟨⟨1, 14⟩, ⟨1, 16⟩⟩⟩, ⟨.closing .square, ⟨⟨1, 16⟩, ⟨1, 17⟩⟩⟩,
          ⟨.closing .round, ⟨⟨1, 17⟩, ⟨1, 18⟩⟩⟩, ⟨.closing .square, ⟨⟨1, 18⟩, ⟨1, 19⟩⟩⟩],
        none⟩ := by
    decide +kernel
  let template : Node := ofMark .syntaxQuote (.vec [.symbol (QName.plain "x"), ofMark .unquote
    (.list [.symbol (QName.plain "let"),
      .vec [.symbol (QName.plain "y"), .keyword (QName.plain "k")]])])
  have hsource : parse "`[x ~(let [y :k])]" = .ok [template] := by
    rw [parse, readAll, ofTokens, htokens]
    rfl
  obtain ⟨t₁, hexpand⟩ : ∃ t₁, (Passes.within 9).expand ScopeTree.rootId template root
      = .ok canonical t₁ := ⟨_, rfl⟩
  obtain ⟨node', hparse, hagain, _⟩ := parse_expanded _ (ScopeTree.macroFree_root _ "user")
    (by decide) (by decide +kernel) hsource List.mem_cons_self rfl rfl hexpand
  have htext : canonical.text = "(syntax-quote [user/x (unquote (let [y :k] ))])" := by
    decide +kernel
  rw [htext] at hparse
  exact ⟨node', hparse, hagain⟩

end Form

end Lisplet
