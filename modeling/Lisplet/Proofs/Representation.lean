import Lisplet.Proofs.Expansion
import Lisplet.Proofs.Operations

set_option autoImplicit false

/-! # The shape of a tree of scopes

Whatever is done with the scopes of a tree, from outside or by evaluation, and whether it succeeds
or fails, the tree stays `ScopeTree.Sound`: every chain of links to the scope around ends at the
root, every scope has its current namespace in its table and the setup of the root, and none is
deeper than the limit of this setup allows (`Reachable.sound`).

A scope at the limit cannot be left for a scope inside of it. There every `let` and every call of a
function or macro ends in a fault, and under a limit of zero or less this is so for the root. -/

namespace Lisplet

/-! ## Namespaces of a scope -/

theorem Table.contains_insert {α : Type} (table : Table α) (name other : String) (value : α) :
    (table.insert name value).contains other = (name = other || table.contains other) := by
  rw [contains, get?_insert, contains]
  by_cases h : name = other <;> simp [h]

namespace Scope

/-- The current namespace is in the table. -/
def HasCurrent (s : Scope) : Prop := s.namespaces.contains s.current

/-- No entry takes a namespace away. -/
theorem contains_enter {s : Scope} {ns : String} (h : s.namespaces.contains ns) (q : QName)
    (value : Node) : (s.enter q value).namespaces.contains ns := by
  simp [enter, Table.contains_insert, h]

theorem contains_switchTo {s : Scope} {ns : String} (h : s.namespaces.contains ns)
    (next : String) : (s.switchTo next).namespaces.contains ns := by
  simp only [switchTo]
  split
  · exact h
  · simp [Table.contains_insert, h]

theorem HasCurrent.enter {s : Scope} (h : s.HasCurrent) (q : QName) (value : Node) :
    (s.enter q value).HasCurrent :=
  contains_enter h q value

/-- A namespace that becomes the current one is made if need be. -/
theorem hasCurrent_switchTo (s : Scope) (ns : String) : (s.switchTo ns).HasCurrent := by
  simp only [HasCurrent, switchTo]
  split
  · next h => exact h
  · simp [Table.contains_insert]

theorem hasCurrent_inside (around : Scope) (id : ScopeId) : (around.inside id).HasCurrent := by
  simp [HasCurrent, inside, Table.singleton, Table.contains, Table.get?, Table.lookup]

theorem hasCurrent_root (setup : Setup) (ns : String) : (root setup ns).HasCurrent := by
  simp [HasCurrent, root, Table.singleton, Table.contains, Table.get?, Table.lookup]

/-! ## Sound scopes -/

/-- The scope has its current namespace in its table and the given setup, and it is not deeper than
    this allows. A limit below zero does not keep the root from being there. -/
structure IsSound (setup : Setup) (s : Scope) : Prop where
  hasCurrent : s.HasCurrent
  setup_eq : s.setup = setup
  depth_le : (s.depth : Int) ≤ max 0 setup.depthLimit

theorem isSound_root (setup : Setup) (ns : String) : (root setup ns).IsSound setup :=
  ⟨hasCurrent_root setup ns, rfl, Int.le_max_left 0 setup.depthLimit⟩

variable {setup : Setup} {s : Scope}

theorem IsSound.enter (h : s.IsSound setup) (q : QName) (value : Node) :
    (s.enter q value).IsSound setup :=
  ⟨h.hasCurrent.enter q value, h.setup_eq, h.depth_le⟩

theorem IsSound.switchTo (h : s.IsSound setup) (ns : String) : (s.switchTo ns).IsSound setup :=
  ⟨s.hasCurrent_switchTo ns, h.setup_eq, h.depth_le⟩

theorem IsSound.atLimit_iff (h : s.IsSound setup) : s.AtLimit ↔ setup.depthLimit ≤ s.depth := by
  rw [AtLimit, h.setup_eq]

theorem IsSound.inside (h : s.IsSound setup) (id : ScopeId) (hlimit : ¬ s.AtLimit) :
    (s.inside id).IsSound setup := by
  rw [h.atLimit_iff] at hlimit
  have hdepth : (s.inside id).depth = s.depth + 1 := rfl
  exact ⟨hasCurrent_inside s id, h.setup_eq, by omega⟩

end Scope

/-! ## Links -/

namespace ScopeTree

/-- The scope around a scope. -/
def parent? (t : ScopeTree) (id : ScopeId) : Option ScopeId := (t.scope id).outer.head?

/-- From a scope, this number of links to the scope around leads to the scope `top`, which no scope
    is around. -/
inductive LeadsTo (t : ScopeTree) (top : ScopeId) : ScopeId → Nat → Prop where
  | top : t.parent? top = none → LeadsTo t top top 0
  | link {id parent : ScopeId} {links : Nat} : t.parent? id = some parent →
      LeadsTo t top parent links → LeadsTo t top id (links + 1)

variable {t t' : ScopeTree} {id : ScopeId} {setup : Setup}

theorem LeadsTo.unique {top top' : ScopeId} {links links' : Nat} (h : t.LeadsTo top id links)
    (h' : t.LeadsTo top' id links') : top = top' ∧ links = links' := by
  induction h generalizing links' with
  | top hnone =>
    cases h' with
    | top _ => exact ⟨rfl, rfl⟩
    | link hsome _ =>
      rw [hnone] at hsome
      cases hsome
  | link hsome _ ih =>
    cases h' with
    | top hnone =>
      rw [hnone] at hsome
      cases hsome
    | link hsome' hrest =>
      rw [hsome] at hsome'
      cases hsome'
      obtain ⟨htop, hlinks⟩ := ih hrest
      exact ⟨htop, congrArg (· + 1) hlinks⟩

/-- In a linked tree, the links from a scope lead to the root, and the depth counts them. -/
theorem Linked.leadsTo (h : t.Linked) (hid : id < t.scopes.size) :
    t.LeadsTo rootId id (t.scope id).depth := by
  induction id using Nat.strongRecOn with
  | ind id ih =>
    rcases Nat.eq_zero_or_pos id with rfl | hpos
    · have hnone : t.parent? rootId = none := by rw [parent?, h.outer_root, List.head?_nil]
      have hdepth : (t.scope rootId).depth = 0 := by rw [Scope.depth, h.outer_root, List.length_nil]
      show t.LeadsTo rootId rootId (t.scope rootId).depth
      rw [hdepth]
      exact .top hnone
    · obtain ⟨parent, hparent, houter⟩ := h.outer_eq id hpos hid
      have hsome : t.parent? id = some parent := by rw [parent?, houter, List.head?_cons]
      have hdepth : (t.scope id).depth = (t.scope parent).depth + 1 := by
        rw [Scope.depth, houter, List.length_cons, Scope.depth]
      rw [hdepth]
      exact .link hsome (ih parent hparent (Nat.lt_trans hparent hid))

/-! ## Sound trees -/

/-- The tree is linked, and all of its scopes are sound. -/
structure Sound (setup : Setup) (t : ScopeTree) : Prop where
  linked : t.Linked
  scopes : ∀ id < t.scopes.size, (t.scope id).IsSound setup

theorem sound_root (setup : Setup) (ns : String) : (ScopeTree.root setup ns).Sound setup := by
  refine ⟨linked_root setup ns, ?_⟩
  intro id hid
  rw [Nat.lt_one_iff.1 hid]
  exact Scope.isSound_root setup ns

theorem Sound.of_scopes_eq (h : t.Sound setup) (hscopes : t'.scopes = t.scopes) :
    t'.Sound setup := by
  obtain ⟨_, _, _⟩ := t'
  cases hscopes
  exact ⟨h.linked.of_scopes_eq rfl, h.scopes⟩

/-- What a change keeps in every scope stays true of every scope. -/
theorem update_keeps {P : Scope → Prop} {change : Scope → Scope} (hP : ∀ s, P s → P (change s))
    {other : ScopeId} (hother : other < t.scopes.size) (h : P (t.scope other)) :
    P ((t.update id change).scope other) := by
  by_cases hne : other = id
  · subst hne
    rw [t.scope_update_self change hother]
    exact hP _ h
  · rw [t.scope_update_of_ne change hne]
    exact h

theorem Sound.update (h : t.Sound setup) (id : ScopeId) {change : Scope → Scope}
    (houter : ∀ s, (change s).outer = s.outer)
    (hsound : ∀ s : Scope, s.IsSound setup → (change s).IsSound setup) :
    (t.update id change).Sound setup := by
  refine ⟨h.linked.update id houter, ?_⟩
  intro other hother
  rw [size_update] at hother
  exact update_keeps hsound hother (h.scopes other hother)

/-- A scope that is nested in one that is not at its limit is sound, too. -/
theorem Sound.addInside (h : t.Sound setup) (hid : id < t.scopes.size)
    (hlimit : ¬ (t.scope id).AtLimit) : (t.addInside id).Sound setup := by
  refine ⟨h.linked.addInside hid, ?_⟩
  intro other hother
  rw [size_addInside] at hother
  rcases Nat.lt_or_eq_of_le (Nat.le_of_lt_succ hother) with hlt | rfl
  · rw [t.scope_addInside_of_lt id hlt]
    exact h.scopes other hlt
  · rw [scope_addInside_self]
    exact (h.scopes id hid).inside id hlimit

/-- Under a limit of zero or less there is the root and nothing else. -/
theorem Sound.size_eq_one (h : t.Sound setup) (hlimit : setup.depthLimit ≤ 0) :
    t.scopes.size = 1 := by
  refine Nat.le_antisymm (Nat.le_of_not_lt fun hid => ?_) h.linked.root_lt
  obtain ⟨parent, _, houter⟩ := h.linked.outer_eq 1 Nat.one_pos hid
  have hdepth := (h.scopes 1 hid).depth_le
  rw [Scope.depth, houter, List.length_cons] at hdepth
  omega

end ScopeTree

/-! ## The invariant of sound trees -/

/-- All runs keep a tree sound. -/
def soundInvariant (setup : Setup) : Invariant where
  toDiscipline := .free
  holds id t := t.Sound setup ∧ id < t.scopes.size
  record _ _ h := ⟨h.1.of_scopes_eq rfl, h.2⟩
  enter name value _ h :=
    ⟨h.1.update _ (fun _ => rfl) fun _ hs => hs.enter (QName.plain name) value, by simpa using h.2⟩
  switchTo {_ _ q} _ h :=
    ⟨h.1.update _ (fun _ => rfl) fun _ hs => hs.switchTo q.name, by simpa using h.2⟩
  issue _ h := ⟨⟨h.1.of_scopes_eq rfl, h.2⟩, trivial⟩
  inside hlimit h := ⟨h.1.addInside h.2 hlimit, by simp⟩
  outside h hinner _ := ⟨hinner.1, Nat.lt_trans h.2 hinner.2⟩
  find _ _ := trivial
  current _ := trivial

theorem lasting_soundInvariant (setup : Setup) : (soundInvariant setup).Lasting where
  node _ := trivial
  every h hother := ⟨h.1, hother⟩
  enter q value h := ⟨h.1.update _ (fun _ => rfl) fun _ hs => hs.enter q value, by simpa using h.2⟩
  count h := ⟨h.1.of_scopes_eq rfl, h.2⟩

open Classical in
/-- The watch that expects a sound tree, and in it the scope in which a pass is started. Files are
    functions, so there is no way to compute whether two setups are the same. -/
noncomputable def soundWatch (setup : Setup) : Watch where
  expand id _ t := decide (t.Sound setup ∧ id < t.scopes.size)
  evaluate id _ t := decide (t.Sound setup ∧ id < t.scopes.size)

open Classical in
theorem meets_soundWatch (setup : Setup) : (soundInvariant setup).Meets (soundWatch setup) :=
  fun _ _ _ _ h => ⟨decide_eq_true h, decide_eq_true h⟩

/-! ## At the limit -/

namespace Passes

variable {id : ScopeId} {t : ScopeTree}

theorem nest_of_atLimit (hlimit : (t.scope id).AtLimit) {α : Type} (cause : Node)
    (f : ScopeId → Eval α) : (Eval.nest id cause >>= f) t = .error (.tooDeep cause) t := by
  rw [Eval.nest_bind, if_pos hlimit]

/-- What is carried out in a scope of its own ends in a fault if it is started at the limit: every
    `let`, and every call of a function or macro that got so far. -/
structure StopsAt (id : ScopeId) (t : ScopeTree) : Prop where
  letIn : ∀ budget bindings body,
    (within (budget + 1)).evaluate id (.letIn bindings body) t
      = .error (.tooDeep (.letIn bindings body)) t
  /-- The arguments of a function are evaluated first. -/
  callFn : ∀ budget {head : QName} {params body args values : List Node} {t₁ : ScopeTree},
    Builtin.ofName? head.name = none → t.find? id head = some (.fn params body) →
    args.length = params.length →
    args.mapM ((within budget).evaluate id) t = .ok values t₁ →
    (within (budget + 1)).evaluate id (.call head args) t
      = .error (.tooDeep (.call head args)) t₁
  callMacro : ∀ budget {head : QName} {params body args : List Node},
    Builtin.ofName? head.name = none → t.find? id head = some (.macroFn params body) →
    args.length = params.length →
    (within (budget + 1)).evaluate id (.call head args) t
      = .error (.tooDeep (.call head args)) t

theorem evaluate_fnCall (budget : Nat) {head : QName} {params body args : List Node}
    (hbuiltin : Builtin.ofName? head.name = none)
    (hfound : t.find? id head = some (.fn params body)) (hlength : args.length = params.length) :
    (within (budget + 1)).evaluate id (.call head args) t
      = Eval.callFn (within budget) id params body head args t := by
  show Eval.evaluateNode (within budget) id (.call head args) t = _
  rw [Eval.evaluateNode, hbuiltin]
  simp only [Eval.callNamed, Bind.bind, EStateM.bind, Eval.resolve_of_find? hfound, if_pos hlength]

theorem evaluate_macroCall (budget : Nat) {head : QName} {params body args : List Node}
    (hbuiltin : Builtin.ofName? head.name = none)
    (hfound : t.find? id head = some (.macroFn params body))
    (hlength : args.length = params.length) :
    (within (budget + 1)).evaluate id (.call head args) t
      = Eval.callMacro (within budget) id params body head args t := by
  show Eval.evaluateNode (within budget) id (.call head args) t = _
  rw [Eval.evaluateNode, hbuiltin]
  simp only [Eval.callNamed, Bind.bind, EStateM.bind, Eval.resolve_of_find? hfound, if_pos hlength]

/-- Evaluating arguments does not take a scope away from its limit. -/
theorem atLimit_of_mapM_evaluate (budget : Nat) (hid : id < t.scopes.size)
    (hlimit : (t.scope id).AtLimit) {args values : List Node} {t₁ : ScopeTree}
    (h : args.mapM ((within budget).evaluate id) t = .ok values t₁) : (t₁.scope id).AtLimit := by
  have hagree := Invariant.free.agree_within budget
  have hobeys : Invariant.free.law.Obeys id id _ (args.mapM ((within budget).evaluate id))
      (args.mapM ((within budget).evaluate id)) :=
    Law.obeys_mapM fun _ _ => hagree.evaluate trivial
  have hframe := Invariant.frame_of_obeys hobeys t
  rw [Eval.after_of_ok h] at hframe
  unfold Scope.AtLimit
  rw [hframe.setup_eq hid, hframe.depth_eq hid]
  exact hlimit

theorem stopsAt_of_atLimit (hid : id < t.scopes.size) (hlimit : (t.scope id).AtLimit) :
    StopsAt id t where
  letIn budget bindings body := nest_of_atLimit hlimit (.letIn bindings body) _
  callFn budget head params body args values t₁ hbuiltin hfound hlength hargs := by
    rw [evaluate_fnCall budget hbuiltin hfound hlength]
    simp only [Eval.callFn, Bind.bind, EStateM.bind, hargs]
    exact nest_of_atLimit (atLimit_of_mapM_evaluate budget hid hlimit hargs) (.call head args) _
  callMacro budget head params body args hbuiltin hfound hlength := by
    rw [evaluate_macroCall budget hbuiltin hfound hlength]
    exact nest_of_atLimit hlimit (.call head args) _

end Passes

/-- A scope can be nested in those that are not at their limit; in others nothing happens. -/
theorem Eval.nest_eq_tooDeep_iff (id : ScopeId) (cause : Node) (t : ScopeTree) :
    (Eval.nest id cause t = .error (.tooDeep cause) t ↔ (t.scope id).AtLimit) ∧
    (Eval.nest id cause t = .ok t.scopes.size (t.addInside id) ↔ ¬ (t.scope id).AtLimit) := by
  rw [Eval.nest_eq]
  by_cases hlimit : (t.scope id).AtLimit
  · simp [hlimit]
  · simp [hlimit]

/-! ## Reachable trees are sound -/

theorem Reachable.holds_soundInvariant {setup : Setup} {ns : String} {t : ScopeTree} {id : ScopeId}
    (h : Reachable setup ns t) (hid : id < t.scopes.size) : (soundInvariant setup).holds id t :=
  (lasting_soundInvariant setup).holds ⟨ScopeTree.sound_root _ ns, Nat.one_pos⟩ h hid

theorem Reachable.isSound {setup : Setup} {ns : String} {t : ScopeTree}
    (h : Reachable setup ns t) : t.Sound setup := by
  cases h with
  | root => exact ScopeTree.sound_root setup ns
  | after h hid budget op =>
    exact ((lasting_soundInvariant setup).perform budget hid (h.holds_soundInvariant hid) op).1

/-- The shape of a tree is kept by everything. A tree that operations have made of a fresh root is
    sound, and so are all trees in between, at every start of a pass. In a sound tree every scope
    has its current namespace in its table and is not deeper than the limit or zero; following its
    links leads to the root and nowhere else, in as many steps as its depth says; and its setup is
    the one that the root was given. A scope can be nested in it exactly if it is not at the limit
    of this setup; at the limit everything that needs a scope of its own ends in this fault. The
    files that it loads are those of the setup. Under a limit of zero or less there is never a scope
    but the root. -/
theorem Reachable.sound {setup : Setup} {ns : String} {t : ScopeTree} (h : Reachable setup ns t) :
    t.Sound setup ∧
    (∀ (budget : Nat) (alarm : Fault) (op : Operation), ∀ id < t.scopes.size,
      op.perform (Passes.watchedWithin (soundWatch setup) alarm budget) id t
        = op.perform (Passes.within budget) id t) ∧
    ∀ u : ScopeTree, u.Sound setup →
      (setup.depthLimit ≤ 0 → u.scopes.size = 1) ∧
      ∀ id < u.scopes.size,
        (u.scope id).namespaces.contains (u.scope id).current ∧
        ((u.scope id).depth : Int) ≤ max 0 setup.depthLimit ∧
        (u.scope id).setup = setup ∧ (u.scope id).setup = (u.scope ScopeTree.rootId).setup ∧
        (∀ top links, u.LeadsTo top id links ↔
          top = ScopeTree.rootId ∧ links = (u.scope id).depth) ∧
        (∀ cause,
          (Eval.nest id cause u = .error (.tooDeep cause) u ↔
            setup.depthLimit ≤ (u.scope id).depth) ∧
          (Eval.nest id cause u = .ok u.scopes.size (u.addInside id) ↔
            (u.scope id).depth < setup.depthLimit)) ∧
        (setup.depthLimit ≤ (u.scope id).depth → Passes.StopsAt id u) ∧
        ∀ budget path,
          (Passes.within (budget + 2)).evaluate id (.call (QName.plain "load") [.string path]) u
            = match setup.files path with
              | .missing => .error (.wrongType (.string path)) (u.record (.asked path))
              | .unreadable reason => .error (.unreadable path reason) (u.record (.asked path))
              | .content text =>
                (Passes.within (budget + 1)).runReadings id .misreadFile .nil (Form.readAll text)
                  ((u.record (.asked path)).record (.loading path (u.scope id).current)) := by
  refine ⟨h.isSound, ?_, ?_⟩
  · intro budget alarm op id hid
    exact (lasting_soundInvariant setup).perform_watched (meets_soundWatch setup)
      (h.holds_soundInvariant hid) budget alarm op
  · intro u hu
    refine ⟨hu.size_eq_one, ?_⟩
    intro id hid
    have hsound := hu.scopes id hid
    have hroot := (hu.scopes ScopeTree.rootId hu.linked.root_lt).setup_eq
    refine ⟨hsound.hasCurrent, hsound.depth_le, hsound.setup_eq, hsound.setup_eq.trans hroot.symm,
      ?_, ?_, ?_, ?_⟩
    · intro top links
      constructor
      · exact fun hleads => hleads.unique (hu.linked.leadsTo hid)
      · rintro ⟨rfl, rfl⟩
        exact hu.linked.leadsTo hid
    · intro cause
      have hnest := Eval.nest_eq_tooDeep_iff id cause u
      rw [hsound.atLimit_iff, Int.not_le] at hnest
      exact hnest
    · intro hlimit
      exact Passes.stopsAt_of_atLimit hid (hsound.atLimit_iff.2 hlimit)
    · intro budget path
      rw [← hsound.setup_eq]
      exact Eval.loadFile_eq (Passes.within (budget + 1)) id path u

/-- A scope that was nested in the root under a limit of one. -/
theorem Reachable.sound_atLimit :
    let setup : Setup := ⟨1, fun _ => .missing⟩
    let t := (ScopeTree.root setup "user").addInside ScopeTree.rootId
    t.LeadsTo ScopeTree.rootId 1 1 ∧ (t.scope 1).setup = setup ∧
      Eval.nest 1 .nil t = .error (.tooDeep .nil) t ∧ Passes.StopsAt 1 t := by
  intro setup t
  have hreachable : Reachable setup "user" t :=
    Reachable.root.after (show ScopeTree.rootId < 1 from Nat.one_pos) 0 (.nest .nil)
  obtain ⟨hsound, _, hshape⟩ := hreachable.sound
  obtain ⟨_, _, hsetup, _, hleads, hnest, hstops, _⟩ := (hshape t hsound).2 1 (by decide)
  exact ⟨(hleads _ _).2 ⟨rfl, rfl⟩, hsetup, (hnest .nil).1.2 (by decide), hstops (by decide)⟩

end Lisplet
