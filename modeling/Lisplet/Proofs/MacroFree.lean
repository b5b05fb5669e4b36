import Mathlib.Data.List.Forall2
import Lisplet.Proofs.Compositional
import Lisplet.Proofs.Expansion

set_option autoImplicit false

/-! # Expansion without macros

Where no name is bound to a macro, expansion is a matter of the form alone: it takes lists apart by
the rules of `ExpandsBy` and asks the scope for nothing but its current namespace. `ExpandsTo` puts
the rules together, with the budget that expansion has, and expansion gives exactly what they allow
(`Passes.yields_expand`). -/

namespace Lisplet

/-! ## Scopes without macros -/

namespace ScopeTree

/-- Seen from the scope `id`, no name is bound to a macro; and `ns` is the current namespace. -/
structure MacroFree (ns : String) (id : ScopeId) (t : ScopeTree) : Prop where
  current_eq : (t.scope id).current = ns
  not_macro : ∀ q params body, t.find? id q ≠ some (.macroFn params body)

/-- A root scope has no macros at first. -/
theorem macroFree_root (setup : Setup) (ns : String) : (root setup ns).MacroFree ns rootId := by
  refine ⟨rfl, ?_⟩
  intro q params body hfound
  have horder : (root setup ns).InOrder (∀ params body, · ≠ .macroFn params body) 0 rootId :=
    inOrder_root setup ns nofun nofun
  exact horder.chain.find? horder.linked horder.id_lt hfound params body rfl

theorem MacroFree.of_scopes_eq {ns : String} {id : ScopeId} {t t' : ScopeTree}
    (h : t.MacroFree ns id) (hscopes : t'.scopes = t.scopes) : t'.MacroFree ns id := by
  have hscope : t'.scope = t.scope := by
    funext other
    rw [scope, scope, hscopes]
  refine ⟨by rw [hscope]; exact h.current_eq, ?_⟩
  intro q params body
  have hfind : t'.find? id q = t.find? id q := by
    simp only [ScopeTree.find?, innermost?, chain, hscope]
  rw [hfind]
  exact h.not_macro q params body

end ScopeTree

/-! ## What a computation yields -/

namespace Eval

variable {ns : String} {id : ScopeId} {α β : Type}

/-- In scopes without macros, the computation gives exactly the good values, of which there is one
    at most, and changes no scope. -/
def Yields (ns : String) (id : ScopeId) (x : Eval α) (good : α → Prop) : Prop :=
  ∀ t : ScopeTree, t.MacroFree ns id →
    (∀ value t', x t = .ok value t' → good value ∧ t'.scopes = t.scopes) ∧
    ∀ value, good value → ∃ t', x t = .ok value t' ∧ t'.scopes = t.scopes

theorem Yields.congr {x : Eval α} {good good' : α → Prop} (h : Yields ns id x good)
    (hgood : ∀ value, good value ↔ good' value) : Yields ns id x good' := by
  rwa [← funext fun value => propext (hgood value)]

theorem Yields.of_eq {x y : Eval α} {good : α → Prop} (h : Yields ns id x good)
    (heq : ∀ t : ScopeTree, t.MacroFree ns id → y t = x t) : Yields ns id y good := by
  intro t ht
  rw [heq t ht]
  exact h t ht

theorem yields_pure (value : α) : Yields ns id (pure value) (· = value) := by
  intro t _
  refine ⟨?_, ?_⟩
  · rintro other t' ⟨⟩
    exact ⟨rfl, rfl⟩
  · rintro other rfl
    exact ⟨t, rfl, rfl⟩

theorem yields_throw (fault : Fault) : Yields ns id (throw fault : Eval α) fun _ => False := by
  intro t _
  exact ⟨nofun, nofun⟩

theorem yields_record (event : Event) : Yields ns id (record event) fun _ => True := by
  intro t _
  refine ⟨?_, fun _ _ => ⟨t.record event, rfl, rfl⟩⟩
  rintro value t' ⟨⟩
  exact ⟨trivial, rfl⟩

theorem yields_current : Yields ns id (current id) (· = ns) := by
  intro t ht
  have hrun : current id t = .ok ns t := congrArg (EStateM.Result.ok · t) ht.current_eq
  refine ⟨?_, ?_⟩
  · intro value t' h
    rw [hrun] at h
    cases h
    exact ⟨rfl, rfl⟩
  · rintro value rfl
    exact ⟨t, hrun, rfl⟩

theorem Yields.bind {x : Eval α} {f : α → Eval β} {good : α → Prop} {good' : α → β → Prop}
    (hx : Yields ns id x good) (hf : ∀ value, Yields ns id (f value) (good' value)) :
    Yields ns id (x >>= f) fun result => ∃ value, good value ∧ good' value result := by
  intro t ht
  obtain ⟨hsound, hcomplete⟩ := hx t ht
  simp only [Bind.bind, EStateM.bind]
  refine ⟨?_, ?_⟩
  · intro result t₂ h
    cases hrun : x t with
    | error fault t₁ =>
      rw [hrun] at h
      cases h
    | ok value t₁ =>
      rw [hrun] at h
      obtain ⟨hvalue, ht₁⟩ := hsound value t₁ hrun
      obtain ⟨hresult, ht₂⟩ := (hf value t₁ (ht.of_scopes_eq ht₁)).1 result t₂ h
      exact ⟨⟨value, hvalue, hresult⟩, ht₂.trans ht₁⟩
  · rintro result ⟨value, hvalue, hresult⟩
    obtain ⟨t₁, hrun, ht₁⟩ := hcomplete value hvalue
    obtain ⟨t₂, hrun', ht₂⟩ := (hf value t₁ (ht.of_scopes_eq ht₁)).2 result hresult
    rw [hrun]
    exact ⟨t₂, hrun', ht₂.trans ht₁⟩

/-- A computation whose result is made into something else. -/
theorem Yields.bind_pure {x : Eval α} {f : α → β} {good : α → Prop} (hx : Yields ns id x good) :
    Yields ns id (do return f (← x)) fun result => ∃ value, good value ∧ result = f value :=
  hx.bind fun value => yields_pure (f value)

theorem yields_mapM {f : α → Eval β} {good : α → β → Prop}
    (h : ∀ item, Yields ns id (f item) (good item)) (items : List α) :
    Yields ns id (items.mapM f) (List.Forall₂ good items) := by
  induction items with
  | nil =>
    rw [List.mapM_nil]
    exact (yields_pure []).congr fun values => List.forall₂_nil_left_iff.symm
  | cons item items ih =>
    rw [List.mapM_cons]
    refine ((h item).bind fun value => ih.bind_pure).congr ?_
    intro values
    rw [List.forall₂_cons_left_iff]
    constructor
    · rintro ⟨value, hvalue, others, hothers, rfl⟩
      exact ⟨value, others, hvalue, hothers, rfl⟩
    · rintro ⟨value, others, hvalue, hothers, rfl⟩
      exact ⟨value, hvalue, others, hothers, rfl⟩

/-! ### Demands on arguments -/

theorem yields_expectOne (whole : Node) (args : List Node) :
    Yields ns id (expectOne whole args) fun arg => args = [arg] := by
  unfold expectOne
  split
  · exact (yields_pure _).congr (by simp [eq_comm])
  · next h => exact (yields_throw _).congr (by simpa using h)

theorem yields_expectTwo (whole : Node) (args : List Node) :
    Yields ns id (expectTwo whole args) fun pair => args = [pair.1, pair.2] := by
  unfold expectTwo
  split
  · refine (yields_pure _).congr ?_
    rintro ⟨a, b⟩
    simp [eq_comm]
  · next h =>
    refine (yields_throw _).congr ?_
    rintro ⟨a, b⟩
    simpa using h a b

theorem yields_expectSymbol (node : Node) :
    Yields ns id (expectSymbol node) fun q => node = .symbol q := by
  unfold expectSymbol
  split
  · exact (yields_pure _).congr (by simp [eq_comm])
  · next h => exact (yields_throw _).congr (by simpa using h)

theorem yields_expectVec (node : Node) :
    Yields ns id (expectVec node) fun items => node = .vec items := by
  unfold expectVec
  split
  · exact (yields_pure _).congr (by simp [eq_comm])
  · next h => exact (yields_throw _).congr (by simpa using h)

end Eval

/-! ## The rules -/

/-- The names of the two forms that unquote. -/
def SpecialForm.IsUnquote (name : String) : Prop :=
  ofName? name = some .unquote ∨ ofName? name = some .unquoteSplicing

section Rules

variable (R : Node → Node → Prop)

mutual

/-- How quoted data are rebuilt, when `R` says how unquoted code is expanded. -/
inductive QuotedBy (rename : QName → QName) : Node → Node → Prop where
  | symbol (q : QName) : QuotedBy rename (.symbol q) (.symbol (rename q))
  | vec {items values : List Node} : QuotedAllBy rename items values →
      QuotedBy rename (.vec items) (.vec values)
  | list {items values : List Node} : Eval.unquoteName? items = none →
      QuotedAllBy rename items values → QuotedBy rename (.list items) (.list values)
  | unquote {head : QName} {arg value : Node} : SpecialForm.IsUnquote head.name → R arg value →
      QuotedBy rename (.list [.symbol head, arg]) (.call (QName.plain head.name) [value])
  | other {node : Node} : (∀ q, node ≠ .symbol q) → (∀ items, node ≠ .vec items) →
      (∀ items, node ≠ .list items) → QuotedBy rename node node

/-- The same for all items of a list. -/
inductive QuotedAllBy (rename : QName → QName) : List Node → List Node → Prop where
  | nil : QuotedAllBy rename [] []
  | cons {item value : Node} {items values : List Node} : QuotedBy rename item value →
      QuotedAllBy rename items values → QuotedAllBy rename (item :: items) (value :: values)

end

/-- How the bindings of a `let` are expanded. -/
inductive BindsBy : List Node → List Node → Prop where
  | nil : BindsBy [] []
  | cons {q : QName} {expr value : Node} {items values : List Node} : R expr value →
      BindsBy items values → BindsBy (.symbol q :: expr :: items) (.symbol q :: value :: values)

/-- How a special form with the head `name` is expanded in the namespace `ns`, when `R` says how its
    parts are expanded. -/
inductive SpecialBy (ns name : String) : SpecialForm → List Node → Node → Prop where
  | define {q : QName} {expr value : Node} : R expr value →
      SpecialBy ns name .define [.symbol q, expr] (.define q.name value)
  | fn {params : List QName} {forms body : List Node} : forms ≠ [] → List.Forall₂ R forms body →
      SpecialBy ns name .fn (.vec (params.map .symbol) :: forms) (.fn (params.map .symbol) body)
  | macroFn {params : List QName} {forms body : List Node} : forms ≠ [] →
      List.Forall₂ R forms body →
      SpecialBy ns name .macroFn (.vec (params.map .symbol) :: forms)
        (.macroFn (params.map .symbol) body)
  | letIn {items bindings forms body : List Node} : BindsBy R items bindings →
      List.Forall₂ R forms body →
      SpecialBy ns name .letIn (.vec items :: forms) (.letIn bindings body)
  | quote {template value : Node} : QuotedBy R (fun q => q) template value →
      SpecialBy ns name .quote [template] (.call (QName.plain "quote") [value])
  | syntaxQuote {template value : Node} : QuotedBy R (QName.qualify ns) template value →
      SpecialBy ns name .syntaxQuote [template] (.call (QName.plain "syntax-quote") [value])
  | unquote {arg value : Node} : R arg value →
      SpecialBy ns name .unquote [arg] (.call (QName.plain name) [value])
  | unquoteSplicing {arg value : Node} : R arg value →
      SpecialBy ns name .unquoteSplicing [arg] (.call (QName.plain name) [value])

/-- How a node is expanded. -/
inductive ExpandsBy (ns : String) : Node → Node → Prop where
  | same {node : Node} : (∀ first rest, node ≠ .list (first :: rest)) → ExpandsBy ns node node
  | special {head : QName} {form : SpecialForm} {args : List Node} {value : Node} :
      SpecialForm.ofName? head.name = some form → SpecialBy R ns head.name form args value →
      ExpandsBy ns (.list (.symbol head :: args)) value
  | call {head : QName} {args values : List Node} : SpecialForm.ofName? head.name = none →
      List.Forall₂ R args values →
      ExpandsBy ns (.list (.symbol head :: args)) (.call head values)

end Rules

/-- How a node is expanded within a budget. -/
def ExpandsTo (ns : String) : Nat → Node → Node → Prop
  | 0 => fun _ _ => False
  | budget + 1 => ExpandsBy (ExpandsTo ns budget) ns

/-- Bindings are expanded pair by pair. -/
theorem bindsBy_iff {R : Node → Node → Prop} {items bindings : List Node}
    (heven : items.length % 2 = 0) :
    (∃ made, List.Forall₂ (fun (binding : Node × Node) made =>
      ∃ q value, binding.1 = .symbol q ∧ R binding.2 value ∧ made = [.symbol q, value])
      (Node.pairs items) made ∧ bindings = made.flatten) ↔ BindsBy R items bindings := by
  induction items using Node.pairs.induct generalizing bindings with
  | case1 first expr rest ih =>
    have hrest : rest.length % 2 = 0 := by
      simp only [List.length_cons] at heven
      omega
    rw [Node.pairs]
    constructor
    · rintro ⟨made, hmade, rfl⟩
      obtain ⟨pair, others, ⟨q, value, rfl, hvalue, rfl⟩, hothers, rfl⟩ :=
        List.forall₂_cons_left_iff.1 hmade
      exact .cons hvalue ((ih hrest).1 ⟨others, hothers, rfl⟩)
    · intro hbinds
      cases hbinds with
      | @cons q _ value _ _ hvalue hvalues =>
        obtain ⟨others, hothers, rfl⟩ := (ih hrest).2 hvalues
        exact ⟨[.symbol q, value] :: others, .cons ⟨q, value, rfl, hvalue, rfl⟩ hothers, rfl⟩
  | case2 items hshort =>
    -- One item alone is ruled out by the even length.
    obtain rfl : items = [] := by
      rcases items with _ | ⟨first, _ | ⟨expr, rest⟩⟩
      · rfl
      · simp at heven
      · exact absurd rfl (hshort first expr rest)
    rw [Node.pairs]
    · constructor
      · rintro ⟨made, ⟨⟩, rfl⟩
        exact .nil
      · rintro ⟨⟩
        exact ⟨[], .nil, rfl⟩
    · exact hshort

theorem BindsBy.even {R : Node → Node → Prop} {items bindings : List Node}
    (h : BindsBy R items bindings) : items.length % 2 = 0 := by
  induction h with
  | nil => rfl
  | cons _ _ ih =>
    simp only [List.length_cons]
    omega

/-! ## Expansion follows the rules -/

namespace Eval

variable {ns : String} {id : ScopeId} {p : Passes} {R : Node → Node → Prop}

theorem unquoteName?_eq_some_iff {items : List Node} {name : String} :
    unquoteName? items = some name ↔
      ∃ head rest, items = .symbol head :: rest ∧ head.name = name ∧
        SpecialForm.IsUnquote head.name := by
  unfold unquoteName? SpecialForm.IsUnquote
  split
  · next q rest =>
    split
    · next hq => simp [hq]
    · next hq => simp [hq]
    · next hunquote hsplicing =>
      constructor
      · nofun
      · rintro ⟨head, _, heq, _, hhead | hhead⟩
        · cases heq
          exact absurd hhead hunquote
        · cases heq
          exact absurd hhead hsplicing
  · next hitems =>
    constructor
    · nofun
    · rintro ⟨head, rest, rfl, _⟩
      exact absurd rfl (hitems head rest)

theorem yields_expandUnquote (h : ∀ node, Yields ns id (p.expand id node) (R node)) (name : String)
    (whole : Node) (args : List Node) :
    Yields ns id (expandUnquote p id name whole args) fun result =>
      ∃ arg value, args = [arg] ∧ R arg value ∧ result = .call (QName.plain name) [value] := by
  refine ((yields_expectOne whole args).bind fun arg => (h arg).bind_pure).congr ?_
  simp

/-- Atoms that are no symbols stay as they are. -/
theorem yields_quotedAtom {node : Node} (rename : QName → QName) (hsymbol : ∀ q, node ≠ .symbol q)
    (hvec : ∀ items, node ≠ .vec items) (hlist : ∀ items, node ≠ .list items) :
    Yields ns id (pure node) (QuotedBy R rename node) := by
  refine (yields_pure node).congr fun value => ⟨?_, ?_⟩
  · rintro rfl
    exact .other hsymbol hvec hlist
  · intro hquoted
    cases hquoted with
    | symbol q => exact absurd rfl (hsymbol q)
    | vec _ => exact absurd rfl (hvec _)
    | list _ _ => exact absurd rfl (hlist _)
    | unquote _ _ => exact absurd rfl (hlist _)
    | other _ _ _ => rfl

mutual

theorem yields_expandQuoted (h : ∀ node, Yields ns id (p.expand id node) (R node))
    (rename : QName → QName) : ∀ template : Node,
      Yields ns id (expandQuoted p id rename template) (QuotedBy R rename template)
  | .symbol q => by
    rw [expandQuoted]
    refine (yields_pure _).congr fun value => ⟨?_, ?_⟩
    · rintro rfl
      exact .symbol q
    · intro hquoted
      cases hquoted with
      | symbol _ => rfl
      | other hsymbol _ _ => exact absurd rfl (hsymbol q)
  | .vec items => by
    rw [expandQuoted]
    refine (yields_expandQuotedAll h rename items).bind_pure.congr fun value => ⟨?_, ?_⟩
    · rintro ⟨values, hvalues, rfl⟩
      exact .vec hvalues
    · intro hquoted
      cases hquoted with
      | vec hvalues => exact ⟨_, hvalues, rfl⟩
      | other _ hvec _ => exact absurd rfl (hvec items)
  | .list items => by
    rw [expandQuoted]
    cases hname : unquoteName? items with
    | some name =>
      obtain ⟨head, rest, rfl, rfl, hunquote⟩ := unquoteName?_eq_some_iff.1 hname
      refine (yields_expandUnquote h head.name _ rest).congr fun value => ⟨?_, ?_⟩
      · rintro ⟨arg, value, rfl, hvalue, rfl⟩
        exact .unquote hunquote hvalue
      · intro hquoted
        cases hquoted with
        | list hnone _ => rw [hname] at hnone; cases hnone
        | unquote _ hvalue => exact ⟨_, _, rfl, hvalue, rfl⟩
        | other _ _ hlist => exact absurd rfl (hlist _)
    | none =>
      refine (yields_expandQuotedAll h rename items).bind_pure.congr fun value => ⟨?_, ?_⟩
      · rintro ⟨values, hvalues, rfl⟩
        exact .list hname hvalues
      · intro hquoted
        cases hquoted with
        | list _ hvalues => exact ⟨_, hvalues, rfl⟩
        | unquote hunquote _ =>
          rw [unquoteName?_eq_some_iff.2 ⟨_, _, rfl, rfl, hunquote⟩] at hname
          cases hname
        | other _ _ hlist => exact absurd rfl (hlist _)
  | .number _ | .bool _ | .string _ | .keyword _ | .letIn _ _ | .fn _ _ | .macroFn _ _
  | .define _ _ | .call _ _ | .aliasTo _ _ => by
    rw [expandQuoted] <;> first | exact yields_quotedAtom rename nofun nofun nofun | nofun

theorem yields_expandQuotedAll (h : ∀ node, Yields ns id (p.expand id node) (R node))
    (rename : QName → QName) : ∀ items : List Node,
      Yields ns id (expandQuotedAll p id rename items) (QuotedAllBy R rename items)
  | [] => by
    rw [expandQuotedAll]
    refine (yields_pure []).congr fun values => ⟨?_, ?_⟩
    · rintro rfl
      exact .nil
    · rintro ⟨⟩
      rfl
  | item :: items => by
    rw [expandQuotedAll]
    refine ((yields_expandQuoted h rename item).bind fun value =>
      (yields_expandQuotedAll h rename items).bind_pure).congr fun values => ⟨?_, ?_⟩
    · rintro ⟨value, hvalue, others, hothers, rfl⟩
      exact .cons hvalue hothers
    · intro hall
      cases hall with
      | cons hvalue hothers => exact ⟨_, hvalue, _, hothers, rfl⟩

end

/-- The parameters and the body of a function or macro. -/
theorem yields_expandAbstraction (h : ∀ node, Yields ns id (p.expand id node) (R node))
    (whole : Node) (args : List Node) :
    Yields ns id (expandAbstraction p id whole args) fun result =>
      ∃ (params : List QName) (forms body : List Node),
        args = .vec (params.map .symbol) :: forms ∧ forms ≠ [] ∧ List.Forall₂ R forms body ∧
          result = (params.map .symbol, body) := by
  unfold expandAbstraction
  split
  · next vector form rest =>
    have hnames (items : List Node) (names : List QName) :
        List.Forall₂ (fun node q => node = Node.symbol q) items names
          ↔ items = names.map Node.symbol := by
      rw [← List.forall₂_map_right_iff, List.forall₂_eq_eq_eq]
    refine ((yields_expectVec vector).bind fun items =>
      (yields_mapM yields_expectSymbol items).bind fun names =>
        (yields_mapM h (form :: rest)).bind_pure).congr ?_
    rintro ⟨params, body⟩
    constructor
    · rintro ⟨items, rfl, names, hitems, values, hvalues, heq⟩
      rw [hnames] at hitems
      subst hitems
      exact ⟨names, _, values, rfl, by simp, hvalues, heq⟩
    · rintro ⟨names, forms, values, heq, _, hvalues, hresult⟩
      obtain ⟨rfl, rfl⟩ := List.cons.inj heq
      exact ⟨_, rfl, names, (hnames _ _).2 rfl, values, hvalues, hresult⟩
  · next hargs =>
    refine (yields_throw _).congr fun result => ⟨nofun, ?_⟩
    rintro ⟨params, forms, body, rfl, hne, _⟩
    obtain ⟨form, rest, rfl⟩ := List.exists_cons_of_ne_nil hne
    exact hargs _ _ _ rfl

theorem yields_expandBinding (h : ∀ node, Yields ns id (p.expand id node) (R node))
    (binding : Node × Node) :
    Yields ns id (expandBinding p id binding) fun made =>
      ∃ q value, binding.1 = .symbol q ∧ R binding.2 value ∧ made = [.symbol q, value] := by
  refine ((yields_expectSymbol binding.1).bind fun q => (h binding.2).bind_pure).congr ?_
  simp

/-- The bindings and the body of a `let`. -/
theorem yields_expandLet (h : ∀ node, Yields ns id (p.expand id node) (R node)) (whole : Node)
    (args : List Node) :
    Yields ns id (expandLet p id whole args) fun result =>
      ∃ items bindings forms body, args = .vec items :: forms ∧ BindsBy R items bindings ∧
        List.Forall₂ R forms body ∧ result = .letIn bindings body := by
  cases args with
  | nil => exact (yields_throw _).congr (by simp)
  | cons vector forms =>
    have hitems (items : List Node) : Yields ns id
        (if items.length % 2 = 0 then do
            let made ← (Node.pairs items).mapM (expandBinding p id)
            let body ← forms.mapM (p.expand id)
            return Node.letIn made.flatten body
          else throw (.wrongCount vector))
        fun result => ∃ bindings body, BindsBy R items bindings ∧ List.Forall₂ R forms body ∧
          result = Node.letIn bindings body := by
      split
      · next heven =>
        refine ((yields_mapM (yields_expandBinding h) (Node.pairs items)).bind fun made =>
          (yields_mapM h forms).bind_pure).congr fun result => ⟨?_, ?_⟩
        · rintro ⟨made, hmade, body, hbody, rfl⟩
          exact ⟨_, body, (bindsBy_iff heven).1 ⟨made, hmade, rfl⟩, hbody, rfl⟩
        · rintro ⟨bindings, body, hbindings, hbody, rfl⟩
          obtain ⟨made, hmade, rfl⟩ := (bindsBy_iff heven).2 hbindings
          exact ⟨made, hmade, body, hbody, rfl⟩
      · next hodd =>
        refine (yields_throw _).congr fun result => ⟨nofun, ?_⟩
        rintro ⟨bindings, body, hbindings, _⟩
        exact hodd hbindings.even
    refine ((yields_expectVec vector).bind hitems).congr fun result => ⟨?_, ?_⟩
    · rintro ⟨items, rfl, bindings, body, hrest⟩
      exact ⟨items, bindings, forms, body, rfl, hrest⟩
    · rintro ⟨items, bindings, _, body, heq, hrest⟩
      obtain ⟨rfl, rfl⟩ := List.cons.inj heq
      exact ⟨items, rfl, bindings, body, hrest⟩

theorem yields_expandSpecial (h : ∀ node, Yields ns id (p.expand id node) (R node))
    (form : SpecialForm) (head : QName) (args : List Node) :
    Yields ns id (expandSpecial p id form head args) (SpecialBy R ns head.name form args) := by
  cases form with
  | define =>
    refine ((yields_expectTwo _ args).bind fun pair =>
      (yields_expectSymbol pair.1).bind fun q => (h pair.2).bind_pure).congr fun result => ⟨?_, ?_⟩
    · rintro ⟨⟨target, expr⟩, rfl, q, rfl, value, hvalue, rfl⟩
      exact .define hvalue
    · intro hspecial
      cases hspecial with
      | define hvalue => exact ⟨(_, _), rfl, _, rfl, _, hvalue, rfl⟩
  | fn =>
    refine (yields_expandAbstraction h _ args).bind_pure.congr fun result => ⟨?_, ?_⟩
    · rintro ⟨_, ⟨params, forms, body, rfl, hne, hbody, rfl⟩, rfl⟩
      exact .fn hne hbody
    · intro hspecial
      cases hspecial with
      | fn hne hbody => exact ⟨_, ⟨_, _, _, rfl, hne, hbody, rfl⟩, rfl⟩
  | macroFn =>
    refine (yields_expandAbstraction h _ args).bind_pure.congr fun result => ⟨?_, ?_⟩
    · rintro ⟨_, ⟨params, forms, body, rfl, hne, hbody, rfl⟩, rfl⟩
      exact .macroFn hne hbody
    · intro hspecial
      cases hspecial with
      | macroFn hne hbody => exact ⟨_, ⟨_, _, _, rfl, hne, hbody, rfl⟩, rfl⟩
  | letIn =>
    refine (yields_expandLet h _ args).congr fun result => ⟨?_, ?_⟩
    · rintro ⟨items, bindings, forms, body, rfl, hbindings, hbody, rfl⟩
      exact .letIn hbindings hbody
    · intro hspecial
      cases hspecial with
      | letIn hbindings hbody => exact ⟨_, _, _, _, rfl, hbindings, hbody, rfl⟩
  | quote =>
    refine ((yields_expectOne _ args).bind fun template =>
      (yields_expandQuoted h _ template).bind_pure).congr fun result => ⟨?_, ?_⟩
    · rintro ⟨template, rfl, value, hvalue, rfl⟩
      exact .quote hvalue
    · intro hspecial
      cases hspecial with
      | quote hvalue => exact ⟨_, rfl, _, hvalue, rfl⟩
  | syntaxQuote =>
    refine (yields_current.bind fun ns => (yields_expectOne _ args).bind fun template =>
      (yields_record (.qualified ns)).bind fun _ =>
        (yields_expandQuoted h (QName.qualify ns) template).bind_pure).congr fun result => ⟨?_, ?_⟩
    · rintro ⟨_, rfl, template, rfl, _, _, value, hvalue, rfl⟩
      exact .syntaxQuote hvalue
    · intro hspecial
      cases hspecial with
      | syntaxQuote hvalue => exact ⟨ns, rfl, _, rfl, (), trivial, _, hvalue, rfl⟩
  | unquote =>
    refine (yields_expandUnquote h head.name _ args).congr fun result => ⟨?_, ?_⟩
    · rintro ⟨arg, value, rfl, hvalue, rfl⟩
      exact .unquote hvalue
    · intro hspecial
      cases hspecial with
      | unquote hvalue => exact ⟨_, _, rfl, hvalue, rfl⟩
  | unquoteSplicing =>
    refine (yields_expandUnquote h head.name _ args).congr fun result => ⟨?_, ?_⟩
    · rintro ⟨arg, value, rfl, hvalue, rfl⟩
      exact .unquoteSplicing hvalue
    · intro hspecial
      cases hspecial with
      | unquoteSplicing hvalue => exact ⟨_, _, rfl, hvalue, rfl⟩

/-- Where there are no macros, a call stays a call. -/
theorem yields_expandCall (h : ∀ node, Yields ns id (p.expand id node) (R node)) (head : QName)
    (args : List Node) :
    Yields ns id (expandCall p id head args) fun result =>
      ∃ values, List.Forall₂ R args values ∧ result = .call head values := by
  refine (yields_mapM h args).bind fun values => ?_
  -- The head is looked up behind the arguments, in scopes that are still without macros.
  refine (yields_pure (Node.call head values)).of_eq fun t ht => ?_
  exact keepCall (ht.not_macro head) p values

theorem yields_expandNode (h : ∀ node, Yields ns id (p.expand id node) (R node)) (node : Node) :
    Yields ns id (expandNode p id node) (ExpandsBy R ns node) := by
  unfold expandNode
  split
  · next head args =>
    cases hform : SpecialForm.ofName? head.name with
    | some form =>
      refine (yields_expandSpecial h form head args).congr fun value => ⟨.special hform, ?_⟩
      intro hvalue
      cases hvalue with
      | same hnot => exact absurd rfl (hnot _ _)
      | special hform' hspecial =>
        rw [hform] at hform'
        cases hform'
        exact hspecial
      | call hnone _ =>
        rw [hform] at hnone
        cases hnone
    | none =>
      refine (yields_expandCall h head args).congr fun value => ⟨?_, ?_⟩
      · rintro ⟨values, hvalues, rfl⟩
        exact .call hform hvalues
      · intro hvalue
        cases hvalue with
        | same hnot => exact absurd rfl (hnot _ _)
        | special hform' _ =>
          rw [hform] at hform'
          cases hform'
        | call _ hvalues => exact ⟨_, hvalues, rfl⟩
  · next other args hother =>
    refine (yields_throw _).congr fun value => ⟨nofun, ?_⟩
    intro hvalue
    cases hvalue with
    | same hnot => exact absurd rfl (hnot _ _)
    | special _ _ => exact absurd rfl (hother _)
    | call _ _ => exact absurd rfl (hother _)
  · next hsymbol hlist =>
    refine (yields_pure node).congr fun value => ⟨?_, ?_⟩
    · rintro rfl
      exact .same hlist
    · intro hvalue
      cases hvalue with
      | same _ => rfl
      | special _ _ => exact absurd rfl (hlist _ _)
      | call _ _ => exact absurd rfl (hlist _ _)

end Eval

/-- Where no name is bound to a macro, expansion gives exactly what the rules allow. -/
theorem Passes.yields_expand (budget : Nat) {ns : String} {id : ScopeId}
    (node : Node) :
    Eval.Yields ns id ((within budget).expand id node) (ExpandsTo ns budget node) := by
  induction budget generalizing node with
  | zero => exact Eval.yields_throw .stackExhausted
  | succ budget ih => exact Eval.yields_expandNode ih node

/-! ## Expansion only takes notes -/

/-- Computations that change nothing but the journal in scopes without macros. -/
def notingOnly (ns : String) (id : ScopeId) : Compositional Unit where
  holds x := ∀ t : ScopeTree, t.MacroFree ns id → t.EqUpToJournal ((x ()).after t)
  inert hx t _ := by
    rw [hx.after_eq]
    exact .refl t
  record event t _ := ⟨rfl, rfl⟩
  bind {_ _ x f} hx hf t ht := by
    have hfirst := hx t ht
    rw [Eval.after_bind]
    cases hrun : x () t with
    | ok value t₁ =>
      rw [Eval.after_of_ok hrun] at hfirst
      exact hfirst.trans (hf value t₁ (ht.of_scopes_eq hfirst.scopes_eq))
    | error fault t₁ =>
      rw [Eval.after_of_error hrun] at hfirst
      exact hfirst

/-- A call that is no call of a macro is put together, and that is all. -/
theorem notingOnly_expandCall {ns : String} {id : ScopeId} {p : Unit → Passes} {args : List Node}
    (h : ∀ arg ∈ args, (notingOnly ns id).holds fun i => (p i).expand id arg) (head : QName) :
    (notingOnly ns id).holds fun i => Eval.expandCall (p i) id head args := by
  refine (notingOnly ns id).bind (Compositional.mapM h) fun values t ht => ?_
  have hafter := Eval.after_of_ok (Eval.keepCall (ht.not_macro head) (p ()) values)
  exact hafter.symm ▸ .refl t

/-- Where no name is bound to a macro, expansion leaves everything but the journal as it is. -/
theorem Passes.eqUpToJournal_expand (budget : Nat) {ns : String} {id : ScopeId}
    {t : ScopeTree} (ht : t.MacroFree ns id) (node : Node) :
    t.EqUpToJournal (((within budget).expand id node).after t) := by
  suffices h : (notingOnly ns id).holds fun _ => (within budget).expand id node from h t ht
  induction budget generalizing node with
  | zero => exact fun t _ => .refl t
  | succ budget ih =>
    have hexpands : (notingOnly ns id).Expands (fun _ => within budget) id fun _ => True :=
      ⟨fun _ _ _ => trivial, fun _ _ _ => trivial, fun _ => ih _⟩
    refine hexpands.expandNode (fun _ _ _ _ => trivial) ?_
    intro head args _ _
    exact notingOnly_expandCall (fun arg _ => ih arg) head

end Lisplet
