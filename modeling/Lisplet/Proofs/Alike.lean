import Lisplet.Proofs.Chain

set_option autoImplicit false

/-! # Trees that look alike

Scopes that were left are never seen again, and neither is the journal. So what a run does in a
scope depends on the contents of the chain, on the counter and on the setup only, and runs in trees
that are alike in this go the same way. If the depth limits are not the same, they do so until the
lower one is reached (`alikeLaw`). -/

namespace Lisplet

/-! ## Alike chains -/

/-- What a scope holds, without its place in the tree and its setup. -/
def Scope.contents (s : Scope) : String × Table (Table Node) := (s.current, s.namespaces)

namespace ScopeTree

/-- Two trees that look the same from the scopes `id` and `id'`, except that the depth limit of the
    first one may be lower. -/
structure Alike (id id' : ScopeId) (t t' : ScopeTree) : Prop where
  linked : t.Linked
  linked' : t'.Linked
  id_lt : id < t.scopes.size
  id_lt' : id' < t'.scopes.size
  counter_eq : t'.counter = t.counter
  chain_eq : (t'.chain id').map Scope.contents = (t.chain id).map Scope.contents
  files_eq : (t'.scope id').setup.files = (t.scope id).setup.files
  limit_le : (t.scope id).setup.depthLimit ≤ (t'.scope id').setup.depthLimit

variable {t t' t₁ t₁' : ScopeTree} {id id' : ScopeId}

theorem Alike.contents_eq (h : Alike id id' t t') :
    (t'.scope id').contents = (t.scope id).contents := by
  have hhead := congrArg List.head? h.chain_eq
  simpa [ScopeTree.chain] using hhead

theorem Alike.contents_root_eq (h : Alike id id' t t') :
    (t'.scope rootId).contents = (t.scope rootId).contents := by
  have hlast := congrArg List.getLast? h.chain_eq
  rw [List.getLast?_map, List.getLast?_map, h.linked.getLast?_chain h.id_lt,
    h.linked'.getLast?_chain h.id_lt'] at hlast
  simpa using hlast

theorem Alike.depth_eq (h : Alike id id' t t') : (t'.scope id').depth = (t.scope id).depth := by
  have hlength := congrArg List.length h.chain_eq
  simpa [ScopeTree.chain, Scope.depth] using hlength

/-- A look-up in a scope goes by its contents. -/
theorem lookup_eq_of_contents_eq {s s' : Scope} (h : s'.contents = s.contents) (q : QName) :
    s'.lookup q = s.lookup q := by
  obtain ⟨hcurrent, hnamespaces⟩ := Prod.mk.inj h
  unfold Scope.lookup
  rw [hcurrent, hnamespaces]

/-- Along chains with the same contents, look-ups find the same. -/
theorem findSome?_lookup_eq {chain chain' : List Scope} (q : QName)
    (h : chain'.map Scope.contents = chain.map Scope.contents) :
    chain'.findSome? (·.lookup q) = chain.findSome? (·.lookup q) := by
  induction chain generalizing chain' with
  | nil => rw [List.map_eq_nil_iff.1 h]
  | cons s chain ih =>
    obtain ⟨s', rest, rfl, hs, hrest⟩ := List.map_eq_cons_iff.1 h
    rw [List.findSome?_cons, List.findSome?_cons, lookup_eq_of_contents_eq hs q, ih hrest]

theorem Alike.find?_eq (h : Alike id id' t t') (q : QName) : t'.find? id' q = t.find? id q := by
  unfold ScopeTree.find? innermost?
  rw [findSome?_lookup_eq q h.chain_eq]
  split
  · exact lookup_eq_of_contents_eq h.contents_root_eq _
  · rfl

/-- A change that goes by the contents of a scope. -/
theorem Alike.update (h : Alike id id' t t') {change : Scope → Scope}
    (houter : ∀ s, (change s).outer = s.outer) (hsetup : ∀ s, (change s).setup = s.setup)
    (hcontents : ∀ s s', s'.contents = s.contents →
      (change s').contents = (change s).contents) :
    Alike id id' (t.update id change) (t'.update id' change) := by
  have hscope := t.scope_update_self change h.id_lt
  have hscope' := t'.scope_update_self change h.id_lt'
  refine ⟨h.linked.update id houter, h.linked'.update id' houter, ?_, ?_, h.counter_eq, ?_, ?_, ?_⟩
  · rw [size_update]
    exact h.id_lt
  · rw [size_update]
    exact h.id_lt'
  · rw [chain_update h.linked h.id_lt houter, chain_update h.linked' h.id_lt' houter, List.map_cons,
      List.map_cons, hcontents _ _ h.contents_eq, List.map_tail, List.map_tail, h.chain_eq]
  · rw [hscope, hscope', hsetup, hsetup]
    exact h.files_eq
  · rw [hscope, hscope', hsetup, hsetup]
    exact h.limit_le

theorem Alike.of_scopes_eq (h : Alike id id' t t') (hscopes : t₁.scopes = t.scopes)
    (hscopes' : t₁'.scopes = t'.scopes) (hcounter : t₁'.counter = t₁.counter) :
    Alike id id' t₁ t₁' := by
  obtain ⟨_, _, _⟩ := t₁
  obtain ⟨_, _, _⟩ := t₁'
  cases hscopes
  cases hscopes'
  exact ⟨h.linked.of_scopes_eq rfl, h.linked'.of_scopes_eq rfl, h.id_lt, h.id_lt', hcounter,
    h.chain_eq, h.files_eq, h.limit_le⟩

theorem Alike.addInside (h : Alike id id' t t') :
    Alike t.scopes.size t'.scopes.size (t.addInside id) (t'.addInside id') := by
  have hscope := t.scope_addInside_self id
  have hscope' := t'.scope_addInside_self id'
  refine ⟨h.linked.addInside h.id_lt, h.linked'.addInside h.id_lt', by simp, by simp,
    h.counter_eq, ?_, by rw [hscope, hscope']; exact h.files_eq,
    by rw [hscope, hscope']; exact h.limit_le⟩
  have hcurrent : (t'.scope id').current = (t.scope id).current :=
    congrArg Prod.fst h.contents_eq
  have hnew : ((t'.scope id').inside id').contents = ((t.scope id).inside id).contents := by
    unfold Scope.contents Scope.inside
    rw [hcurrent]
  rw [chain_addInside h.linked h.id_lt, chain_addInside h.linked' h.id_lt', List.map_cons,
    List.map_cons, hnew, h.chain_eq]

theorem Alike.outside (h : Alike id id' t t')
    (hinner : Alike t.scopes.size t'.scopes.size t₁ t₁')
    (hframe : Frame t.scopes.size (t.addInside id) t₁)
    (hframe' : Frame t'.scopes.size (t'.addInside id') t₁') : Alike id id' t₁ t₁' := by
  have hscope := hframe.intact_of_addInside.scope_eq id h.id_lt
  have hscope' := hframe'.intact_of_addInside.scope_eq id' h.id_lt'
  refine ⟨hinner.linked, hinner.linked', Nat.lt_trans h.id_lt hinner.id_lt,
    Nat.lt_trans h.id_lt' hinner.id_lt', hinner.counter_eq, ?_,
    by rw [hscope, hscope']; exact h.files_eq, by rw [hscope, hscope']; exact h.limit_le⟩
  have hchain := hinner.chain_eq
  rw [chain_outside h.id_lt hframe, chain_outside h.id_lt' hframe'] at hchain
  exact (List.cons.inj hchain).2

end ScopeTree

/-! ## The law of alike trees -/

/-- A fault at the depth limit. -/
def Fault.isTooDeep : Fault → Bool
  | .tooDeep _ => true
  | _ => false

/-- Runs in trees that look alike do the same, unless the first one reaches its limit. -/
def alikeLaw : Law where
  toDiscipline := .free
  inv := ScopeTree.Alike
  escape fault := fault.isTooDeep
  files_eq h := h.files_eq
  limit_le h := h.limit_le
  limit_ge _ := .inr fun _ => rfl
  record _ _ h := h.of_scopes_eq rfl rfl h.counter_eq
  enter name value _ h := by
    refine h.update (fun _ => rfl) (fun _ => rfl) ?_
    intro s s' hs
    obtain ⟨hcurrent, hnamespaces⟩ := Prod.mk.inj hs
    simp only [Scope.contents, Scope.enter, hcurrent, hnamespaces]
  switchTo {_ _ _ _ q} _ h := by
    refine h.update (fun _ => rfl) (fun _ => rfl) ?_
    intro s s' hs
    obtain ⟨_, hnamespaces⟩ := Prod.mk.inj hs
    simp only [Scope.contents, Scope.switchTo, hnamespaces]
  issue stem h := ⟨h.of_scopes_eq rfl rfl (congrArg (· + 1) h.counter_eq), trivial⟩
  inside _ h := h.addInside
  outside h hinner hframe hframe' := h.outside hinner hframe hframe'
  find q h := ⟨h.find?_eq q, fun _ _ => trivial⟩
  current h := ⟨congrArg Prod.fst h.contents_eq, trivial⟩
  depth h := h.depth_eq
  counter h := h.counter_eq

end Lisplet
