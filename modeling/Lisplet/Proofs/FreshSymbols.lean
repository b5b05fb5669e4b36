import Lisplet.Proofs.Representation

set_option autoImplicit false

/-! # Fresh symbols

A fresh symbol is a stem with a number written after it. The number comes from a counter that all
scopes share and that never goes back, so no two symbols of a run have the same number. Still they
can have the same name, since nothing marks where the stem ends and the number begins: `a1` with `1`
reads as `a` with `11` does. This is the only way (`Issue.symbol_eq_iff`), and stems that do not end
in a digit are safe from it (`Reachable.freshSymbols_numbered`). -/

namespace Lisplet

/-! ## Stems and numbers -/

/-- What a fresh symbol is made from. -/
structure Issue where
  stem : String
  number : Nat

namespace Issue

def symbol (issue : Issue) : QName := QName.plain (issue.stem ++ toString issue.number)

/-- The symbol of an earlier issue is made again by a later one: the stem of the earlier one has
    some of the digits of the later one at its end, and its number is the rest of them. -/
def Clash (earlier later : Issue) : Prop :=
  ∃ digits, earlier.stem = later.stem ++ digits ∧
    toString later.number = digits ++ toString earlier.number

/-- Digits in front of a number do not make it smaller. -/
theorem le_of_toString_eq_append {m n : Nat} (digits : String)
    (h : toString m = digits ++ toString n) : n ≤ m := by
  have hdigits : Nat.toDigits 10 m = digits.toList ++ Nat.toDigits 10 n := by
    have hchars := congrArg String.toList h
    simpa [Nat.toString_eq_ofList_toDigits] using hchars
  have hvalue := congrArg (fun chars => Nat.ofDigitChars 10 chars 0) hdigits
  simp only [Nat.ofDigitChars_append, Nat.ofDigitChars_ten_toDigits] at hvalue
  rw [Nat.ofDigitChars_eq_ofDigitChars_zero, Nat.ofDigitChars_ten_toDigits] at hvalue
  omega

/-- The symbols of two issues are the same exactly if they clash. -/
theorem symbol_eq_iff {earlier later : Issue} (h : earlier.number < later.number) :
    earlier.symbol = later.symbol ↔ earlier.Clash later := by
  constructor
  · intro hsymbol
    have hname : earlier.stem ++ toString earlier.number = later.stem ++ toString later.number :=
      congrArg QName.name hsymbol
    rw [← String.toList_inj, String.toList_append, String.toList_append,
      List.append_eq_append_iff] at hname
    -- The digits between the two stems belong to the number of the shorter stem, which is thus the
    -- greater one.
    obtain ⟨digits, _, hnumber⟩ | ⟨digits, hstem, hnumber⟩ := hname
    · have hle : later.number ≤ earlier.number := by
        apply le_of_toString_eq_append (String.ofList digits)
        rw [← String.toList_inj, String.toList_append, String.toList_ofList, hnumber]
      omega
    · refine ⟨String.ofList digits, ?_, ?_⟩
      · rw [← String.toList_inj, String.toList_append, String.toList_ofList, hstem]
      · rw [← String.toList_inj, String.toList_append, String.toList_ofList, hnumber]
  · rintro ⟨digits, hstem, hnumber⟩
    rw [symbol, symbol, hstem, hnumber, String.append_assoc]

/-- Whether the end of the stem could be taken for a part of the number. -/
def endsInDigit (issue : Issue) : Bool := issue.stem.toList.getLast?.any Char.isDigit

theorem Clash.stem_ne {earlier later : Issue} (h : earlier.Clash later)
    (hlt : earlier.number < later.number) : earlier.stem ≠ later.stem := by
  obtain ⟨digits, hstem, hnumber⟩ := h
  intro heq
  have hempty : digits = "" := by
    have hlength := congrArg String.length (hstem.symm.trans heq)
    rw [String.length_append] at hlength
    exact String.length_eq_zero_iff.1 (by omega)
  rw [hempty] at hnumber
  have hle := le_of_toString_eq_append "" hnumber.symm
  omega

theorem Clash.endsInDigit {earlier later : Issue} (h : earlier.Clash later)
    (hlt : earlier.number < later.number) : earlier.endsInDigit := by
  have hne := h.stem_ne hlt
  obtain ⟨digits, hstem, hnumber⟩ := h
  have hdigit : ∀ c ∈ digits.toList, c.isDigit := by
    intro c hc
    refine Nat.isDigit_of_mem_toDigits (b := 10) (n := later.number) (by decide) (by decide) ?_
    rw [← String.toList_ofList (l := Nat.toDigits 10 later.number),
      ← Nat.toString_eq_ofList_toDigits, hnumber, String.toList_append]
    exact List.mem_append_left _ hc
  cases hlast : digits.toList.getLast? with
  | none =>
    have hempty : digits = "" := String.toList_inj.1 (List.getLast?_eq_none_iff.1 hlast)
    rw [hempty, String.append_empty] at hstem
    exact absurd hstem hne
  | some c =>
    rw [Issue.endsInDigit, hstem, String.toList_append, List.getLast?_append, hlast]
    exact hdigit c (List.mem_of_getLast? hlast)

end Issue

/-! ## The journal of fresh symbols -/

/-- The symbol that was made, if the event is of this kind. -/
def Event.issued? : Event → Option QName
  | .issued q => some q
  | _ => none

namespace ScopeTree

/-- All fresh symbols so far, oldest first. -/
def freshSymbols (t : ScopeTree) : List QName := t.events.filterMap Event.issued?

theorem freshSymbols_record (t : ScopeTree) (event : Event) :
    (t.record event).freshSymbols = t.freshSymbols ++ event.issued?.toList := by
  simp only [freshSymbols, events, record, List.reverse_cons, List.filterMap_append]
  cases h : event.issued? <;> simp [h]

/-- Making a fresh symbol adds it to the journal. -/
theorem freshSymbols_issue (t : ScopeTree) (stem : String) :
    (t.issue stem).freshSymbols = t.freshSymbols ++ [t.freshSymbol stem] :=
  freshSymbols_record _ _

theorem freshSymbols_record_of_ne (t : ScopeTree) {event : Event} (h : ∀ q, event ≠ .issued q) :
    (t.record event).freshSymbols = t.freshSymbols := by
  rw [freshSymbols_record]
  cases event with
  | issued q => exact absurd rfl (h q)
  | _ => exact List.append_nil _

end ScopeTree

/-! ## What runs do to the journal -/

/-- What is true of the fresh symbols and the counter, and stays true when a symbol is made, is kept
    by all runs: nothing else in a run touches either of them. -/
def issuingInvariant (P : List QName → Nat → Prop)
    (hissue : ∀ {symbols number} (stem : String), P symbols number →
      P (symbols ++ [Issue.symbol ⟨stem, number⟩]) (number + 1)) : Invariant where
  toDiscipline := .free
  holds _ t := P t.freshSymbols t.counter
  record event hevent h := by
    rw [ScopeTree.freshSymbols_record_of_ne _ hevent]
    exact h
  enter _ _ _ h := h
  switchTo _ h := h
  issue stem h := by
    refine ⟨?_, trivial⟩
    rw [ScopeTree.freshSymbols_issue]
    exact hissue stem h
  inside _ h := h
  outside _ h _ := h
  find _ _ := trivial
  current _ := trivial

theorem lasting_issuingInvariant {P : List QName → Nat → Prop}
    (hissue : ∀ {symbols number} (stem : String), P symbols number →
      P (symbols ++ [Issue.symbol ⟨stem, number⟩]) (number + 1))
    (hcount : ∀ {symbols number}, P symbols number → P symbols (number + 1)) :
    (issuingInvariant P hissue).Lasting where
  node _ := trivial
  every h _ := h
  enter _ _ h := h
  count h := hcount h

/-- No operation takes a fresh symbol out of the journal. -/
theorem Operation.freshSymbols_prefix (budget : Nat) (op : Operation)
    {id : ScopeId} {t : ScopeTree} (hid : id < t.scopes.size) :
    t.freshSymbols <+: ((op.perform (Passes.within budget) id).after t).freshSymbols := by
  have hlasting := lasting_issuingInvariant (P := fun symbols _ => t.freshSymbols <+: symbols)
    (fun _ h => h.trans (List.prefix_append _ _)) fun h => h
  exact hlasting.perform budget hid (List.prefix_refl _) op

/-- The symbols come from issues with increasing numbers, all of them below the counter. -/
structure Numbered (issues : List Issue) (symbols : List QName) (counter : Nat) : Prop where
  symbols_eq : symbols = issues.map Issue.symbol
  increasing : issues.Pairwise fun earlier later => earlier.number < later.number
  lt_counter : ∀ issue ∈ issues, issue.number < counter

namespace Numbered

variable {issues : List Issue} {symbols : List QName} {counter : Nat}

theorem count (h : Numbered issues symbols counter) : Numbered issues symbols (counter + 1) :=
  ⟨h.symbols_eq, h.increasing, fun issue hissue => Nat.lt_succ_of_lt (h.lt_counter issue hissue)⟩

theorem issue (h : Numbered issues symbols counter) (stem : String) :
    Numbered (issues ++ [⟨stem, counter⟩]) (symbols ++ [Issue.symbol ⟨stem, counter⟩])
      (counter + 1) where
  symbols_eq := by
    rw [h.symbols_eq, List.map_append, List.map_singleton]
  increasing := by
    refine List.pairwise_append.2 ⟨h.increasing, List.pairwise_singleton _ _, ?_⟩
    intro earlier hearlier later hlater
    rw [List.mem_singleton.1 hlater]
    exact h.lt_counter earlier hearlier
  lt_counter := by
    intro issue hissue
    rcases List.mem_append.1 hissue with hold | hnew
    · exact h.count.lt_counter issue hold
    · rw [List.mem_singleton.1 hnew]
      exact Nat.lt_succ_self counter

/-- Stems that do not end in a digit give symbols that are all different. -/
theorem nodup (h : Numbered issues symbols counter)
    (hstems : ∀ issue ∈ issues, !issue.endsInDigit) : symbols.Nodup := by
  rw [h.symbols_eq]
  refine List.pairwise_map.2 (h.increasing.imp_of_mem ?_)
  intro earlier later hearlier _ hlt hsymbol
  have hdigit := ((Issue.symbol_eq_iff hlt).1 hsymbol).endsInDigit hlt
  exact absurd hdigit (by simpa using hstems earlier hearlier)

end Numbered

theorem Reachable.numbered {setup : Setup} {ns : String} {t : ScopeTree}
    (h : Reachable setup ns t) : ∃ issues, Numbered issues t.freshSymbols t.counter := by
  have hlasting := lasting_issuingInvariant
    (P := fun symbols counter => ∃ issues, Numbered issues symbols counter)
    (fun stem ⟨_, hissues⟩ => ⟨_, hissues.issue stem⟩) fun ⟨_, hissues⟩ => ⟨_, hissues.count⟩
  exact hlasting.holds ⟨[], rfl, .nil, nofun⟩ h h.isSound.linked.root_lt

/-! ## Calls for a fresh symbol -/

theorem Eval.expectOne_eq_ok_iff {whole arg : Node} {args : List Node} {t t' : ScopeTree} :
    Eval.expectOne whole args t = .ok arg t' ↔ args = [arg] ∧ t' = t := by
  unfold Eval.expectOne
  split
  · simp [pure, EStateM.pure, eq_comm]
  · next h =>
    refine ⟨nofun, ?_⟩
    rintro ⟨rfl, _⟩
    exact absurd rfl (h arg)

theorem Eval.expectString_eq_ok_iff {node : Node} {stem : String} {t t' : ScopeTree} :
    Eval.expectString node t = .ok stem t' ↔ node = .string stem ∧ t' = t := by
  unfold Eval.expectString
  split
  · simp [pure, EStateM.pure, eq_comm]
  · next h =>
    refine ⟨nofun, ?_⟩
    rintro ⟨rfl, _⟩
    exact absurd rfl (h stem)

/-- A call for a fresh symbol succeeds exactly if its one argument has a string as its value; this
    is the stem. The symbol is made and entered in the journal as the last thing. -/
theorem Eval.runBuiltin_gensym_eq_ok_iff {p : Passes} {id : ScopeId} {head : QName}
    {args : List Node} {value : Node} {t t' : ScopeTree} :
    Eval.runBuiltin p id .gensym head args t = .ok value t' ↔
      ∃ arg stem t₁, args = [arg] ∧ p.evaluate id arg t = .ok (.string stem) t₁ ∧
        value = .symbol (t₁.freshSymbol stem) ∧ t' = t₁.issue stem := by
  unfold Eval.runBuiltin
  constructor
  · intro hcall
    obtain ⟨arg, _, hone, hrest⟩ := Eval.bind_eq_ok_iff.1 hcall
    obtain ⟨rfl, rfl⟩ := Eval.expectOne_eq_ok_iff.1 hone
    obtain ⟨_, t₁, hvalue, hstring⟩ := Eval.bind_eq_ok_iff.1 hrest
    obtain ⟨stem, _, hstem, hissue⟩ := Eval.bind_eq_ok_iff.1 hstring
    obtain ⟨rfl, rfl⟩ := Eval.expectString_eq_ok_iff.1 hstem
    cases hissue
    exact ⟨arg, stem, _, rfl, hvalue, rfl, rfl⟩
  · rintro ⟨arg, stem, t₁, rfl, hvalue, rfl, rfl⟩
    refine Eval.bind_eq_ok_iff.2 ⟨arg, t, rfl, ?_⟩
    exact Eval.bind_eq_ok_iff.2 ⟨.string stem, t₁, hvalue, rfl⟩

/-! ## Fresh symbols of whole runs -/

/-- Every successful call for a fresh symbol adds the symbol it gives back to the journal, and no
    operation takes one out again. In a tree that operations have made of a fresh root, these symbols
    have increasing numbers. So two of them are different unless they clash, which they do not if
    the stems are the same or the stem of the earlier one does not end in a digit. -/
theorem Reachable.freshSymbols_numbered {setup : Setup} {ns : String} {t : ScopeTree}
    (h : Reachable setup ns t) :
    (∀ (budget : Nat) (u u' : ScopeTree) (id : ScopeId) (head : QName) (args : List Node)
        (value : Node), head.name = "gensym" →
      ((Passes.within (budget + 1)).evaluate id (.call head args) u = .ok value u' ↔
        ∃ arg stem u₁, args = [arg] ∧
          (Passes.within budget).evaluate id arg u = .ok (.string stem) u₁ ∧
          value = .symbol (u₁.freshSymbol stem) ∧ u' = u₁.issue stem)) ∧
    (∀ (u : ScopeTree) (stem : String),
      (u.issue stem).freshSymbols = u.freshSymbols ++ [u.freshSymbol stem]) ∧
    (∀ (budget : Nat) (op : Operation) (u : ScopeTree), ∀ id < u.scopes.size,
      u.freshSymbols <+: ((op.perform (Passes.within budget) id).after u).freshSymbols) ∧
    ∃ issues : List Issue,
      t.freshSymbols = issues.map Issue.symbol ∧
      (issues.Pairwise fun earlier later =>
        earlier.number < later.number ∧
        (earlier.symbol = later.symbol ↔ earlier.Clash later) ∧
        (earlier.stem = later.stem ∨ !earlier.endsInDigit → earlier.symbol ≠ later.symbol)) ∧
      ((∀ issue ∈ issues, !issue.endsInDigit) → t.freshSymbols.Nodup) := by
  refine ⟨?_, ScopeTree.freshSymbols_issue, ?_, ?_⟩
  · intro budget u u' id head args value hhead
    show Eval.evaluateNode (Passes.within budget) id (.call head args) u = _ ↔ _
    have hbuiltin : Builtin.ofName? head.name = some .gensym := by
      rw [hhead]
      rfl
    rw [Eval.evaluateNode, hbuiltin]
    exact Eval.runBuiltin_gensym_eq_ok_iff
  · intro budget op u id hid
    exact op.freshSymbols_prefix budget hid
  · obtain ⟨issues, hissues⟩ := h.numbered
    refine ⟨issues, hissues.symbols_eq, hissues.increasing.imp ?_, hissues.nodup⟩
    intro earlier later hlt
    refine ⟨hlt, Issue.symbol_eq_iff hlt, ?_⟩
    intro hstem hsymbol
    have hclash := (Issue.symbol_eq_iff hlt).1 hsymbol
    rcases hstem with hstem | hdigit
    · exact hclash.stem_ne hlt hstem
    · exact absurd (hclash.endsInDigit hlt) (by simpa using hdigit)

/-- The form `(let [] (gensym "…") …)`, which asks for a fresh symbol with each of the stems. -/
def gensyms (stems : List String) : Node :=
  let word (name : String) : Node := .symbol (QName.plain name)
  .list (word "let" :: .vec [] :: stems.map fun stem => .list [word "gensym", .string stem])

/-- Three symbols of one run, asked for in the scope of a `let`. -/
theorem Reachable.freshSymbols_numbered_let :
    let setup : Setup := ⟨1, fun _ => .missing⟩
    let t := ((Operation.run (gensyms ["a", "b", "a"])).perform (Passes.within 5)
      ScopeTree.rootId).after (ScopeTree.root setup "user")
    t.freshSymbols = [QName.plain "a0", QName.plain "b1", QName.plain "a2"] ∧
    ∃ issues : List Issue, t.freshSymbols = issues.map Issue.symbol ∧
      issues.Pairwise fun earlier later => earlier.number < later.number := by
  intro setup t
  have hreachable : Reachable setup "user" t :=
    Reachable.root.after Nat.one_pos 5 (.run (gensyms ["a", "b", "a"]))
  obtain ⟨_, _, _, issues, hsymbols, hnumbers, _⟩ := hreachable.freshSymbols_numbered
  exact ⟨by decide +kernel, issues, hsymbols, hnumbers.imp And.left⟩

/-- The second and the last symbol of this run clash: one is `a1` with the number `1`, the other is
    `a` with the number `11`. -/
theorem Reachable.freshSymbols_clash :
    let setup : Setup := ⟨1, fun _ => .missing⟩
    let form := gensyms ["z", "a1", "z", "z", "z", "z", "z", "z", "z", "z", "z", "a"]
    let t := ((Operation.run form).perform (Passes.within 5) ScopeTree.rootId).after
      (ScopeTree.root setup "user")
    Reachable setup "user" t ∧ t.freshSymbols.length = 12 ∧
      t.freshSymbols[1]? = some (QName.plain "a11") ∧
      t.freshSymbols[11]? = some (QName.plain "a11") := by
  intro setup form t
  exact ⟨Reachable.root.after Nat.one_pos 5 (.run form), by decide +kernel⟩

end Lisplet
