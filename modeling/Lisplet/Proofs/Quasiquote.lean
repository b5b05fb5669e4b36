import Lisplet.Proofs.MacroFree

set_option autoImplicit false

/-! # What a template means

A template is data with holes in it. Two passes deal with it: expansion rebuilds the data and expands
the code in the holes, and evaluation walks the outcome to put the values in. Together they are one
substitution (`Passes.run_template`): the code of the holes is evaluated from left to right, and
then each hole is replaced by its value, or by the elements of its value, in the data as they were
written. -/

namespace Lisplet

/-! ## Holes -/

/-- A place in a template that is to be filled. -/
structure Hole where
  /-- Whether the elements of the value are put in, instead of the value. -/
  splices : Bool
  code : Node

namespace Hole

/-- The name of the form that makes the hole. -/
def headName (hole : Hole) : String := if hole.splices then "unquote-splicing" else "unquote"

/-- What is put in the place of the hole among other items. -/
def spread (hole : Hole) (value : Node) : List Node :=
  match hole.splices, value with
  | true, .list items => items
  | _, _ => [value]

/-- The value of the code in the hole. To be spliced, it has to be a list. -/
def value (p : Passes) (id : ScopeId) (hole : Hole) : Eval Node := do
  let value ← p.evaluate id hole.code
  if hole.splices then return .list (← Eval.expectList value) else return value

end Hole

namespace Node

/-- The hole that a node is, if it is one. -/
def hole? : Node → Option Hole
  | .list [.symbol head, code] =>
    if head.name = "unquote" then some ⟨false, code⟩
    else if head.name = "unquote-splicing" then some ⟨true, code⟩
    else none
  | _ => none

/-- What the value of an item becomes among other items. -/
def spread (item value : Node) : List Node :=
  match item.hole? with
  | some hole => hole.spread value
  | none => [value]

mutual

/-- Whether a node is built from atoms, lists and vectors, and all that would be a hole is one. There
    may be anything in a hole. -/
def isTemplate : Node → Bool
  | .number _ | .bool _ | .string _ | .symbol _ | .keyword _ => true
  | .vec items => areTemplates items
  | .list items =>
    (Node.list items).hole?.isSome || (Eval.unquoteName? items).isNone && areTemplates items
  | _ => false

/-- Whether some nodes are templates, all of them. -/
def areTemplates : List Node → Bool
  | [] => true
  | item :: rest => isTemplate item && areTemplates rest

end

mutual

/-- The holes of a template, from left to right. -/
def holes : Node → List Hole
  | .vec items => holesAll items
  | .list items =>
    match (Node.list items).hole? with
    | some hole => [hole]
    | none => holesAll items
  | _ => []

/-- The holes of some templates. -/
def holesAll : List Node → List Hole
  | [] => []
  | item :: rest => holes item ++ holesAll rest

end

mutual

/-- The template with its symbols renamed and its holes replaced by values, which are given in the
    order of the holes. -/
def substitute (rename : QName → QName) : Node → List Node → Node
  | .symbol q, _ => .symbol (rename q)
  | .vec items, values => .vec (substituteAll rename items values)
  | .list items, values =>
    match (Node.list items).hole? with
    | some _ => values.headD .nil
    | none => .list (substituteAll rename items values)
  | other, _ => other

/-- The items of a list or vector with their holes replaced; here a hole may become any number of
    items. -/
def substituteAll (rename : QName → QName) : List Node → List Node → List Node
  | [], _ => []
  | item :: rest, values =>
    let own := values.take item.holes.length
    let others := values.drop item.holes.length
    item.spread (substitute rename item own) ++ substituteAll rename rest others

end

theorem hole?_eq_some_iff {node : Node} {hole : Hole} :
    node.hole? = some hole ↔
      ∃ head, node = .list [.symbol head, hole.code] ∧ head.name = hole.headName := by
  obtain ⟨splices, code⟩ := hole
  constructor
  · intro h
    unfold hole? at h
    split at h
    · next head arg =>
      split at h
      · next hname =>
        cases h
        exact ⟨head, rfl, hname⟩
      · split at h
        · next hname =>
          cases h
          exact ⟨head, rfl, hname⟩
        · cases h
    · cases h
  · rintro ⟨head, rfl, hname⟩
    cases splices <;> simp_all [hole?, Hole.headName]

theorem holes_of_hole? {node : Node} {hole : Hole} (h : node.hole? = some hole) :
    node.holes = [hole] := by
  obtain ⟨head, rfl, _⟩ := hole?_eq_some_iff.1 h
  rw [holes, h]

theorem substitute_of_hole? {node : Node} {hole : Hole} (h : node.hole? = some hole)
    (rename : QName → QName) (value : Node) : node.substitute rename [value] = value := by
  obtain ⟨head, rfl, _⟩ := hole?_eq_some_iff.1 h
  rw [substitute, h]
  rfl

/-- Each item takes as many values as it has holes. -/
theorem substituteAll_append (rename : QName → QName) {item : Node} (rest : List Node)
    {own others : List Node} (h : own.length = item.holes.length) :
    substituteAll rename (item :: rest) (own ++ others)
      = item.spread (item.substitute rename own) ++ substituteAll rename rest others := by
  rw [substituteAll, ← h, List.take_left, List.drop_left]

end Node

/-! ## Filling holes -/

namespace Hole

/-- What expansion makes of a hole. -/
def call (hole : Hole) : Node := .call (QName.plain hole.headName) [hole.code]

theorem isUnquote_headName (hole : Hole) : SpecialForm.IsUnquote hole.headName := by
  obtain ⟨_ | _, _⟩ := hole
  · exact .inl rfl
  · exact .inr rfl

/-- A hole that is the whole template is filled by its value. -/
theorem fill_call (p : Passes) (id : ScopeId) (hole : Hole) :
    Eval.fill p id hole.call = hole.value p id := by
  obtain ⟨_ | _, code⟩ := hole
  · simp [call, headName, QName.plain, Eval.fill, Eval.unquoted, Eval.expectOne, value]
  · simp [call, headName, QName.plain, Eval.fill, Eval.spliced, Eval.unquoted, Eval.expectOne, value]

/-- Among other items, a hole is filled by what its value is spread to. -/
theorem fillAll_call (p : Passes) (id : ScopeId) (hole : Hole) (rest : List Node) :
    Eval.fillAll p id (hole.call :: rest) = do
      let value ← hole.value p id
      return hole.spread value ++ (← Eval.fillAll p id rest) := by
  obtain ⟨_ | _, code⟩ := hole
  · have hargs : Eval.spliceArgs? (call ⟨false, code⟩) = none := rfl
    simp only [Eval.fillAll, hargs, fill_call, spread, bind_map_left]
  · have hargs : Eval.spliceArgs? (call ⟨true, code⟩) = some [code] := rfl
    simp only [Eval.fillAll, hargs, Eval.spliced, Eval.unquoted, Eval.expectOne, value, spread,
      if_true, pure_bind, bind_assoc]

end Hole

/-- An item that is no splice is filled on its own. -/
theorem Eval.fillAll_of_spliceArgs? (p : Passes) (id : ScopeId) {item : Node}
    (h : Eval.spliceArgs? item = none) (rest : List Node) :
    Eval.fillAll p id (item :: rest) = do
      let value ← Eval.fill p id item
      return value :: (← Eval.fillAll p id rest) := by
  simp only [Eval.fillAll, h, bind_map_left, List.singleton_append]

/-- What comes after some results may rely on their number. -/
theorem Eval.mapM_bind_congr {α β γ : Type} {f : α → Eval β} {items : List α}
    {g g' : List β → Eval γ} (h : ∀ values, values.length = items.length → g values = g' values) :
    items.mapM f >>= g = items.mapM f >>= g' := by
  induction items generalizing g g' with
  | nil =>
    rw [List.mapM_nil, pure_bind, pure_bind]
    exact h [] rfl
  | cons item items ih =>
    simp only [List.mapM_cons, bind_assoc, pure_bind]
    congr 1
    funext value
    refine ih fun values hvalues => h (value :: values) ?_
    rw [List.length_cons, List.length_cons, hvalues]

theorem exists_of_forall₂_append {α β : Type} {R : α → β → Prop} {first second : List α} {l : List β}
    (h : List.Forall₂ R (first ++ second) l) :
    ∃ own others, List.Forall₂ R first own ∧ List.Forall₂ R second others ∧ l = own ++ others := by
  refine ⟨l.take first.length, l.drop first.length, ?_, ?_, (List.take_append_drop _ _).symm⟩
  · simpa using List.forall₂_take first.length h
  · simpa using List.forall₂_drop first.length h

/-! ## From templates to what fills them -/

section

variable {R : Node → Node → Prop} {rename : QName → QName}

/-- The hole `made` is the hole `hole` with its code expanded. -/
structure Hole.MadeBy (R : Node → Node → Prop) (hole made : Hole) : Prop where
  splices_eq : made.splices = hole.splices
  code : R hole.code made.code

namespace Hole.MadeBy

variable {hole made : Hole}

theorem headName_eq (h : Hole.MadeBy R hole made) : made.headName = hole.headName := by
  rw [headName, headName, h.splices_eq]

theorem spread_eq (h : Hole.MadeBy R hole made) : made.spread = hole.spread := by
  obtain ⟨_, _⟩ := hole
  obtain ⟨_, _⟩ := made
  cases h.splices_eq
  rfl

/-- A template that is a hole has this one hole. -/
theorem of_hole? {node : Node} {expanded : List Hole} (hnode : node.hole? = some hole)
    (h : List.Forall₂ (Hole.MadeBy R) node.holes expanded) :
    ∃ made, expanded = [made] ∧ Hole.MadeBy R hole made := by
  rw [Node.holes_of_hole? hnode] at h
  obtain ⟨made, others, hmade, hothers, rfl⟩ := List.forall₂_cons_left_iff.1 h
  obtain rfl : others = [] := List.forall₂_nil_left_iff.1 hothers
  exact ⟨made, rfl, hmade⟩

theorem quotedBy {node : Node} (h : Hole.MadeBy R hole made) (hnode : node.hole? = some hole) :
    QuotedBy R rename node made.call := by
  obtain ⟨head, rfl, hhead⟩ := Node.hole?_eq_some_iff.1 hnode
  rw [call, h.headName_eq, ← hhead]
  refine .unquote ?_ h.code
  rw [hhead]
  exact hole.isUnquote_headName

end Hole.MadeBy

/-- Only holes become calls. -/
theorem QuotedBy.spliceArgs?_eq_none {template data : Node} (h : QuotedBy R rename template data)
    (htemplate : template.isTemplate) (hhole : template.hole? = none) :
    Eval.spliceArgs? data = none := by
  cases h with
  | symbol q => rfl
  | vec _ => rfl
  | list _ _ => rfl
  | @unquote head code _ hname _ =>
    rcases hname with hname | hname
    · simp [Node.hole?, SpecialForm.eq_unquote hname] at hhole
    · simp [Node.hole?, SpecialForm.eq_unquoteSplicing hname] at hhole
  | other _ _ _ =>
    cases template with
    | call head args => cases htemplate
    | _ => rfl

mutual

/-- A template is rebuilt to data that can be filled by evaluating the holes and substituting. -/
theorem Node.exists_quotedBy : ∀ {template : Node} {expanded : List Hole}, template.isTemplate →
    List.Forall₂ (Hole.MadeBy R) template.holes expanded →
    ∃ data, QuotedBy R rename template data ∧ ∀ p id, Eval.fill p id data = do
      let values ← expanded.mapM (Hole.value p id)
      return template.substitute rename values
  | .symbol q, expanded, _, hexpanded => by
    obtain rfl : expanded = [] := List.forall₂_nil_left_iff.1 hexpanded
    exact ⟨.symbol (rename q), .symbol q, fun p id => by simp [Eval.fill, substitute]⟩
  | .vec items, expanded, htemplate, hexpanded => by
    rw [Node.holes] at hexpanded
    rw [Node.isTemplate] at htemplate
    obtain ⟨data, hdata, hfill⟩ := Node.exists_quotedAllBy htemplate hexpanded
    refine ⟨.vec data, .vec hdata, fun p id => ?_⟩
    simp only [Eval.fill, hfill, substitute, map_bind, map_pure]
  | .list items, expanded, htemplate, hexpanded => by
    cases hhole : (Node.list items).hole? with
    | some hole =>
      obtain ⟨made, rfl, hmade⟩ := Hole.MadeBy.of_hole? hhole hexpanded
      refine ⟨made.call, hmade.quotedBy hhole, fun p id => ?_⟩
      simp [Hole.fill_call, substitute_of_hole? hhole]
    | none =>
      rw [Node.holes, hhole] at hexpanded
      simp only [Node.isTemplate, hhole, Option.isSome_none, Bool.false_or, Bool.and_eq_true,
        Option.isNone_iff_eq_none] at htemplate
      obtain ⟨data, hdata, hfill⟩ := Node.exists_quotedAllBy htemplate.2 hexpanded
      refine ⟨.list data, .list htemplate.1 hdata, fun p id => ?_⟩
      simp only [Eval.fill, hfill, substitute, hhole, map_bind, map_pure]
  | .number _, expanded, _, hexpanded | .bool _, expanded, _, hexpanded
  | .string _, expanded, _, hexpanded | .keyword _, expanded, _, hexpanded => by
    obtain rfl : expanded = [] := List.forall₂_nil_left_iff.1 hexpanded
    exact ⟨_, .other nofun nofun nofun, fun p id => by simp [Eval.fill, substitute]⟩
  | .letIn _ _, _, h, _ | .fn _ _, _, h, _ | .macroFn _ _, _, h, _ | .define _ _, _, h, _
  | .call _ _, _, h, _ | .aliasTo _ _, _, h, _ => by cases h

/-- The same for all items of a list. -/
theorem Node.exists_quotedAllBy : ∀ {items : List Node} {expanded : List Hole},
    areTemplates items → List.Forall₂ (Hole.MadeBy R) (holesAll items) expanded →
    ∃ data, QuotedAllBy R rename items data ∧ ∀ p id, Eval.fillAll p id data = do
      let values ← expanded.mapM (Hole.value p id)
      return substituteAll rename items values
  | [], expanded, _, hexpanded => by
    obtain rfl : expanded = [] := List.forall₂_nil_left_iff.1 hexpanded
    exact ⟨[], .nil, fun p id => by simp [Eval.fillAll, substituteAll]⟩
  | item :: rest, expanded, htemplates, hexpanded => by
    rw [areTemplates, Bool.and_eq_true] at htemplates
    rw [holesAll] at hexpanded
    obtain ⟨own, others, hown, hothers, rfl⟩ := exists_of_forall₂_append hexpanded
    obtain ⟨data, hdata, hfill⟩ := Node.exists_quotedAllBy htemplates.2 hothers
    have hvalues (p : Passes) (id : ScopeId) :
        (do
          let values ← (own ++ others).mapM (Hole.value p id)
          return substituteAll rename (item :: rest) values)
        = do
          let values ← own.mapM (Hole.value p id)
          return item.spread (item.substitute rename values) ++ (← Eval.fillAll p id data) := by
      rw [List.mapM_append, hfill]
      simp only [bind_assoc, pure_bind]
      -- Whatever the values are, there is one for each hole, and so the first ones are the item's.
      refine Eval.mapM_bind_congr fun values hlength => ?_
      simp only [substituteAll_append rename rest (hlength.trans hown.length_eq.symm)]
    cases hhole : item.hole? with
    | some hole =>
      obtain ⟨made, rfl, hmade⟩ := Hole.MadeBy.of_hole? hhole hown
      refine ⟨made.call :: data, .cons (hmade.quotedBy hhole) hdata, fun p id => ?_⟩
      rw [hvalues, Hole.fillAll_call]
      simp [substitute_of_hole? hhole, spread, hhole, hmade.spread_eq]
    | none =>
      obtain ⟨value, hvalue, hfill'⟩ := Node.exists_quotedBy htemplates.1 hown
      refine ⟨value :: data, .cons hvalue hdata, fun p id => ?_⟩
      rw [hvalues, Eval.fillAll_of_spliceArgs? p id (hvalue.spliceArgs?_eq_none htemplates.1 hhole),
        hfill']
      simp [spread, hhole]

end

end

/-! ## Templates mean substitution -/

namespace Passes

variable {budget : Nat} {id : ScopeId} {t : ScopeTree} {template : Node}
  {expanded : List Hole}

/-- A form that quotes is run by rebuilding its template and filling it. -/
theorem run_quoting {ns : String} {head : QName} {form : SpecialForm} {rename : QName → QName}
    (name : String) (hform : SpecialForm.ofName? head.name = some form)
    (hspecial : ∀ {data}, QuotedBy (ExpandsTo ns budget) rename template data →
      SpecialBy (ExpandsTo ns budget) ns head.name form [template] (.call (QName.plain name) [data]))
    (hbuiltin : Builtin.ofName? name = some .template) (ht : t.MacroFree ns id)
    (htemplate : template.isTemplate)
    (hexpanded : List.Forall₂ (Hole.MadeBy (ExpandsTo ns budget)) template.holes expanded) :
    ∃ t₁, t.EqUpToJournal t₁ ∧
      (within (budget + 1)).run id (.list [.symbol head, template]) t
        = (do
            let values ← expanded.mapM (Hole.value (within budget) id)
            return template.substitute rename values : Eval Node) t₁ := by
  obtain ⟨data, hdata, hfill⟩ := Node.exists_quotedBy htemplate hexpanded
  have hexpands : ExpandsTo ns (budget + 1) (.list [.symbol head, template])
      (.call (QName.plain name) [data]) := .special hform (hspecial hdata)
  obtain ⟨t₁, hrun, _⟩ := (yields_expand (budget + 1) _ t ht).2 _ hexpands
  have hjournal := eqUpToJournal_expand (budget + 1) ht (.list [.symbol head, template])
  rw [Eval.after_of_ok hrun] at hjournal
  refine ⟨t₁, hjournal, ?_⟩
  have hevaluate : (within (budget + 1)).evaluate id (.call (QName.plain name) [data]) t₁
      = Eval.fill (within budget) id data t₁ := by
    show Eval.evaluateNode (within budget) id (.call (QName.plain name) [data]) t₁ = _
    rw [Eval.evaluateNode, QName.plain, hbuiltin]
    rfl
  have hthen : (within (budget + 1)).run id (.list [.symbol head, template]) t
      = (within (budget + 1)).evaluate id (.call (QName.plain name) [data]) t₁ := by
    simp only [run, Bind.bind, EStateM.bind, hrun]
  rw [hthen, hevaluate, hfill]

/-- Quoting is substitution. In a scope from which no name is bound to a macro, let a template be
    given and the code of all its holes be expanded. Then running the quoted template evaluates the
    expanded code of the holes in this scope, which expansion has left as it was, once each and from
    left to right; it ends with the first fault, or where a value that is to be spliced is no list.
    Otherwise the value is the template with its holes replaced, and nothing else in it is changed
    but for the plain symbols outside of the holes, which `syntax-quote` qualifies by the current
    namespace. -/
theorem run_template
    (hmacros : ∀ q params body, t.find? id q ≠ some (.macroFn params body))
    (htemplate : template.isTemplate)
    (hexpanded : List.Forall₂
      (Hole.MadeBy fun code made => ∃ t', (within budget).expand id code t = .ok made t')
      template.holes expanded)
    (head : QName) :
    (head.name = "quote" → ∃ t₁, t.EqUpToJournal t₁ ∧
      (within (budget + 1)).run id (.list [.symbol head, template]) t
        = (do
            let values ← expanded.mapM (Hole.value (within budget) id)
            return template.substitute (fun q => q) values : Eval Node) t₁) ∧
    (head.name = "syntax-quote" → ∃ t₁, t.EqUpToJournal t₁ ∧
      (within (budget + 1)).run id (.list [.symbol head, template]) t
        = (do
            let values ← expanded.mapM (Hole.value (within budget) id)
            return template.substitute (QName.qualify (t.scope id).current) values : Eval Node)
            t₁) := by
  have ht : t.MacroFree (t.scope id).current id := ⟨rfl, hmacros⟩
  have hmade : List.Forall₂ (Hole.MadeBy (ExpandsTo (t.scope id).current budget)) template.holes
      expanded := by
    refine hexpanded.imp fun hole made h => ⟨h.splices_eq, ?_⟩
    obtain ⟨t', hrun⟩ := h.code
    exact ((yields_expand budget hole.code t ht).1 _ _ hrun).1
  constructor
  · intro hhead
    refine run_quoting "quote" ?_ .quote rfl ht htemplate hmade
    rw [hhead]
    rfl
  · intro hhead
    refine run_quoting "syntax-quote" ?_ .syntaxQuote rfl ht htemplate hmade
    rw [hhead]
    rfl

/-- The template `(a ~true ~@(quote (b c)) [~@nil])` in a fresh root. -/
theorem run_template_splicing :
    let setup : Setup := ⟨1, fun _ => .missing⟩
    let word (name : String) : Node := .symbol (QName.plain name)
    let list : Node := .list [word "b", word "c"]
    let template : Node := .list [word "a", .list [word "unquote", word "true"],
      .list [word "unquote-splicing", .list [word "quote", list]],
      .vec [.list [word "unquote-splicing", word "nil"]]]
    let expanded : List Hole :=
      [⟨false, word "true"⟩, ⟨true, .call (QName.plain "quote") [list]⟩, ⟨true, word "nil"⟩]
    let t := ScopeTree.root setup "user"
    let form : Node := .list [word "syntax-quote", template]
    (∃ t₁, t.EqUpToJournal t₁ ∧
      (within 4).run ScopeTree.rootId form t
        = (do
            let values ← expanded.mapM (Hole.value (within 3) ScopeTree.rootId)
            return template.substitute (QName.qualify "user") values : Eval Node) t₁) ∧
    ∃ t', (within 4).run ScopeTree.rootId form t
      = .ok (.list [.symbol ⟨some "user", "a"⟩, .bool true, word "b", word "c", .vec []]) t' := by
  intro setup word list template expanded t form
  have hexpanded : List.Forall₂ (Hole.MadeBy fun code made =>
      ∃ t', (within 3).expand ScopeTree.rootId code t = .ok made t')
      template.holes expanded :=
    .cons ⟨rfl, _, rfl⟩ (.cons ⟨rfl, _, rfl⟩ (.cons ⟨rfl, _, rfl⟩ .nil))
  have hfree : t.MacroFree "user" ScopeTree.rootId := ScopeTree.macroFree_root setup "user"
  have hrun := run_template hfree.not_macro rfl hexpanded (QName.plain "syntax-quote")
  exact ⟨hrun.2 rfl, _, rfl⟩

end Passes

end Lisplet
