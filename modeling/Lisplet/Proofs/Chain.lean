import Lisplet.Proofs.Law.Invariant

set_option autoImplicit false

/-! # Chains of scopes

Names are looked up along the chain of a scope, and an alias goes to the root. In a linked tree
every chain ends at the root, so what the tables of a chain hold decides what a look-up can find.
That trees stay linked and their tables stay good is an invariant of all runs (`chainInvariant`). -/

namespace Lisplet

variable {good : Node → Prop}

/-! ## What the tables of a scope hold -/

/-- All nodes in the tables of a scope are good. -/
def Scope.Holds (good : Node → Prop) (s : Scope) : Prop :=
  ∀ ns table, s.namespaces.get? ns = some table →
    ∀ name value, table.get? name = some value → good value

namespace Scope

theorem Holds.lookup {s : Scope} (h : s.Holds good) {q : QName} {value : Node}
    (hvalue : s.lookup q = some value) : good value := by
  unfold Scope.lookup at hvalue
  rw [Option.bind_eq_some_iff] at hvalue
  obtain ⟨table, htable, hvalue⟩ := hvalue
  exact h _ table htable q.name value hvalue

/-- An entry replaces one node of one table, which may be new. -/
theorem Holds.enter {s : Scope} (h : s.Holds good) (q : QName) {value : Node}
    (hvalue : good value) : (s.enter q value).Holds good := by
  intro ns table htable name found hfound
  simp only [Scope.enter, Table.get?_insert] at htable
  by_cases hns : q.ns.getD s.current = ns
  · rw [if_pos hns] at htable
    cases htable
    rw [Table.get?_insert] at hfound
    by_cases hname : q.name = name
    · rw [if_pos hname] at hfound
      exact Option.some.inj hfound ▸ hvalue
    · rw [if_neg hname] at hfound
      cases hold : s.namespaces.get? (q.ns.getD s.current) with
      | none => simp [hold] at hfound
      | some old =>
        rw [hold, Option.getD_some] at hfound
        exact h _ old hold name found hfound
  · rw [if_neg hns] at htable
    exact h ns table htable name found hfound

theorem Holds.switchTo {s : Scope} (h : s.Holds good) (ns : String) :
    (s.switchTo ns).Holds good := by
  intro other table htable name found hfound
  simp only [Scope.switchTo] at htable
  split at htable
  · exact h other table htable name found hfound
  · rw [Table.get?_insert] at htable
    split at htable
    · cases htable
      simp at hfound
    · exact h other table htable name found hfound

/-- A new scope has nothing in its one table. -/
theorem holds_inside (around : Scope) (id : ScopeId) : (around.inside id).Holds good := by
  intro ns table htable name value hvalue
  simp only [inside, Table.singleton, Table.get?, Table.lookup] at htable
  split at htable
  · cases htable
    simp [Table.empty, Table.get?, Table.lookup] at hvalue
  · simp at htable

theorem holds_root (setup : Setup) (ns : String) (hnil : good .nil) (hbool : ∀ b, good (.bool b)) :
    (root setup ns).Holds good := by
  intro other table htable name value hvalue
  simp only [root, Table.singleton, Table.get?, Table.lookup] at htable
  split at htable
  · cases htable
    simp only [Table.get?_insert, Table.get?_empty] at hvalue
    split at hvalue
    · exact Option.some.inj hvalue ▸ hbool false
    · split at hvalue
      · exact Option.some.inj hvalue ▸ hbool true
      · split at hvalue
        · exact Option.some.inj hvalue ▸ hnil
        · simp at hvalue
  · simp at htable

end Scope

/-! ## Linked trees -/

namespace ScopeTree

/-- The root has no scopes around it, and every other scope stands inside an older one: around it
    are that one and the scopes around that one. -/
structure Linked (t : ScopeTree) : Prop where
  root_lt : rootId < t.scopes.size
  outer_root : (t.scope rootId).outer = []
  outer_eq : ∀ id, rootId < id → id < t.scopes.size →
    ∃ parent, parent < id ∧ (t.scope id).outer = parent :: (t.scope parent).outer

theorem linked_root (setup : Setup) (ns : String) : (ScopeTree.root setup ns).Linked := by
  refine ⟨Nat.one_pos, rfl, ?_⟩
  intro id hpos hsize
  exact absurd hpos (Nat.not_lt.2 (Nat.le_of_lt_succ hsize))

variable {t t' : ScopeTree} {id : ScopeId}

/-- Around a scope are older ones only. -/
theorem Linked.outer_lt (h : t.Linked) (hid : id < t.scopes.size) :
    ∀ other ∈ (t.scope id).outer, other < id := by
  induction id using Nat.strongRecOn with
  | ind id ih =>
    intro other hother
    rcases Nat.eq_zero_or_pos id with rfl | hpos
    · rw [show t.scope 0 = t.scope rootId from rfl, h.outer_root] at hother
      simp at hother
    · obtain ⟨parent, hparent, houter⟩ := h.outer_eq id hpos hid
      rw [houter] at hother
      rcases List.mem_cons.1 hother with rfl | hother
      · exact hparent
      · exact Nat.lt_trans (ih parent hparent (Nat.lt_trans hparent hid) other hother) hparent

/-- Trees with the same scopes around each scope are linked alike. -/
theorem Linked.of_outer_eq (h : t.Linked) (hsize : t'.scopes.size = t.scopes.size)
    (houter : ∀ id < t.scopes.size, (t'.scope id).outer = (t.scope id).outer) : t'.Linked := by
  refine ⟨by rw [hsize]; exact h.root_lt, ?_, ?_⟩
  · rw [houter rootId h.root_lt]
    exact h.outer_root
  · intro id hpos hid
    rw [hsize] at hid
    obtain ⟨parent, hparent, heq⟩ := h.outer_eq id hpos hid
    refine ⟨parent, hparent, ?_⟩
    rw [houter id hid, houter parent (Nat.lt_trans hparent hid), heq]

theorem Linked.of_scopes_eq (h : t.Linked) (hscopes : t'.scopes = t.scopes) : t'.Linked := by
  refine h.of_outer_eq (by rw [hscopes]) ?_
  intro id _
  unfold scope
  rw [hscopes]

theorem Linked.update (h : t.Linked) (id : ScopeId) {change : Scope → Scope}
    (hchange : ∀ s, (change s).outer = s.outer) : (t.update id change).Linked := by
  refine h.of_outer_eq (by simp) ?_
  intro other hother
  by_cases hne : other = id
  · subst hne
    rw [t.scope_update_self change hother, hchange]
  · rw [t.scope_update_of_ne change hne]

theorem Linked.addInside (h : t.Linked) (hid : id < t.scopes.size) : (t.addInside id).Linked := by
  refine ⟨by rw [size_addInside]; exact Nat.succ_pos _, ?_, ?_⟩
  · rw [t.scope_addInside_of_lt id h.root_lt]
    exact h.outer_root
  · intro other hpos hother
    rw [size_addInside] at hother
    rcases Nat.lt_or_eq_of_le (Nat.le_of_lt_succ hother) with hold | rfl
    · obtain ⟨parent, hparent, heq⟩ := h.outer_eq other hpos hold
      refine ⟨parent, hparent, ?_⟩
      rw [t.scope_addInside_of_lt id hold, t.scope_addInside_of_lt id (Nat.lt_trans hparent hold),
        heq]
    · refine ⟨id, hid, ?_⟩
      rw [scope_addInside_self, t.scope_addInside_of_lt id hid]
      rfl

/-! ## How operations change chains -/

theorem chain_update (h : t.Linked) (hid : id < t.scopes.size) {change : Scope → Scope}
    (houter : ∀ s, (change s).outer = s.outer) :
    (t.update id change).chain id = change (t.scope id) :: (t.chain id).tail := by
  unfold chain
  rw [t.scope_update_self change hid, houter, List.tail_cons, List.cons_inj_right]
  refine List.map_congr_left ?_
  intro other hother
  exact t.scope_update_of_ne change (Nat.ne_of_lt (h.outer_lt hid other hother))

/-- The chain of a new scope is that of the scope it was opened in, with a link in front. -/
theorem chain_addInside (h : t.Linked) (hid : id < t.scopes.size) :
    (t.addInside id).chain t.scopes.size = (t.scope id).inside id :: t.chain id := by
  unfold chain
  rw [scope_addInside_self, List.cons_inj_right]
  show (id :: (t.scope id).outer).map (t.addInside id).scope = _
  rw [List.map_cons, t.scope_addInside_of_lt id hid, List.cons_inj_right]
  refine List.map_congr_left ?_
  intro other hother
  exact t.scope_addInside_of_lt id (Nat.lt_trans (h.outer_lt hid other hother) hid)

/-- After a computation in a scope of its own, the inner chain still goes on with the outer one. -/
theorem chain_outside (hid : id < t.scopes.size)
    (hframe : Frame t.scopes.size (t.addInside id) t') :
    t'.chain t.scopes.size = t'.scope t.scopes.size :: t'.chain id := by
  have houter : (t'.scope t.scopes.size).outer = id :: (t.scope id).outer := by
    rw [hframe.outer_eq (by simp), scope_addInside_self]
    rfl
  unfold chain
  rw [houter, hframe.intact_of_addInside.scope_eq id hid, List.map_cons,
    hframe.intact_of_addInside.scope_eq id hid]

/-- The last link of a chain is the root. -/
theorem Linked.getLast?_chain (h : t.Linked) (hid : id < t.scopes.size) :
    (t.chain id).getLast? = some (t.scope rootId) := by
  induction id using Nat.strongRecOn with
  | ind id ih =>
    rcases Nat.eq_zero_or_pos id with rfl | hpos
    · unfold chain
      rw [show t.scope 0 = t.scope rootId from rfl, h.outer_root]
      rfl
    · obtain ⟨parent, hparent, houter⟩ := h.outer_eq id hpos hid
      have hchain : t.chain id = t.scope id :: t.chain parent := by
        unfold chain
        rw [houter, List.map_cons]
      rw [hchain, List.getLast?_cons, ih parent hparent (Nat.lt_trans hparent hid),
        Option.getD_some]

/-! ## What the tables of a chain hold -/

/-- All nodes in the tables of a scope and of the scopes around it are good. -/
def ChainHolds (good : Node → Prop) (t : ScopeTree) (id : ScopeId) : Prop :=
  ∀ s ∈ t.chain id, s.Holds good

/-- A name has a good value if the chain holds good nodes only, also by way of an alias. -/
theorem ChainHolds.find? (h : t.ChainHolds good id) (hlinked : t.Linked)
    (hid : id < t.scopes.size) {q : QName} {value : Node} (hvalue : t.find? id q = some value) :
    good value := by
  unfold ScopeTree.find? at hvalue
  split at hvalue
  · refine (h (t.scope rootId) ?_).lookup hvalue
    exact List.mem_of_getLast? (hlinked.getLast?_chain hid)
  · obtain ⟨s, hs, hfound⟩ := List.exists_of_findSome?_eq_some hvalue
    exact (h s hs).lookup hfound

/-- The tree is linked, and good nodes only are in the chain of the scope `id` and in all scopes
    that were opened after the first `base` ones. -/
structure InOrder (good : Node → Prop) (base : Nat) (id : ScopeId) (t : ScopeTree) : Prop where
  linked : t.Linked
  id_lt : id < t.scopes.size
  chain : t.ChainHolds good id
  opened : ∀ other, base ≤ other → other < t.scopes.size → (t.scope other).Holds good

variable {base : Nat}

theorem inOrder_root (setup : Setup) (ns : String) (hnil : good .nil)
    (hbool : ∀ b, good (.bool b)) : (ScopeTree.root setup ns).InOrder good base rootId := by
  have hroot := Scope.holds_root setup ns hnil hbool
  refine ⟨linked_root setup ns, Nat.one_pos, ?_, ?_⟩
  · intro s hs
    rw [List.mem_singleton.1 hs]
    exact hroot
  · intro other _ hother
    rw [Nat.lt_one_iff.1 hother]
    exact hroot

/-- The counter and the journal do not matter. -/
theorem InOrder.of_scopes_eq (h : t.InOrder good base id) (hscopes : t'.scopes = t.scopes) :
    t'.InOrder good base id := by
  obtain ⟨_, _, _⟩ := t'
  cases hscopes
  exact ⟨h.linked.of_scopes_eq rfl, h.id_lt, h.chain, h.opened⟩

theorem InOrder.update (h : t.InOrder good base id) {change : Scope → Scope}
    (houter : ∀ s, (change s).outer = s.outer)
    (hchange : ∀ s : Scope, s.Holds good → (change s).Holds good) :
    (t.update id change).InOrder good base id := by
  have hself : (change (t.scope id)).Holds good := hchange _ (h.chain _ List.mem_cons_self)
  refine ⟨h.linked.update id houter, by rw [size_update]; exact h.id_lt, ?_, ?_⟩
  · intro s hs
    rw [chain_update h.linked h.id_lt houter] at hs
    rcases List.mem_cons.1 hs with rfl | hs
    · exact hself
    · exact h.chain s (List.mem_of_mem_tail hs)
  · intro other hbase hother
    rw [size_update] at hother
    by_cases hne : other = id
    · rw [hne, t.scope_update_self change h.id_lt]
      exact hself
    · rw [t.scope_update_of_ne change hne]
      exact h.opened other hbase hother

theorem InOrder.addInside (h : t.InOrder good base id) :
    (t.addInside id).InOrder good base t.scopes.size := by
  refine ⟨h.linked.addInside h.id_lt, by simp, ?_, ?_⟩
  · intro s hs
    rw [chain_addInside h.linked h.id_lt] at hs
    rcases List.mem_cons.1 hs with rfl | hs
    · exact Scope.holds_inside _ _
    · exact h.chain s hs
  · intro other hbase hother
    rw [size_addInside] at hother
    rcases Nat.lt_or_eq_of_le (Nat.le_of_lt_succ hother) with hold | rfl
    · rw [t.scope_addInside_of_lt id hold]
      exact h.opened other hbase hold
    · rw [scope_addInside_self]
      exact Scope.holds_inside _ _

theorem InOrder.outside (hid : id < t.scopes.size) (h : t'.InOrder good base t.scopes.size)
    (hframe : Frame t.scopes.size (t.addInside id) t') : t'.InOrder good base id := by
  refine ⟨h.linked, Nat.lt_trans hid h.id_lt, ?_, h.opened⟩
  intro s hs
  refine h.chain s ?_
  rw [chain_outside hid hframe]
  exact List.mem_cons_of_mem _ hs

/-- If all scopes hold good nodes, then so does every chain. -/
theorem InOrder.every (h : t.InOrder good 0 id) {other : ScopeId} (hother : other < t.scopes.size) :
    t.InOrder good 0 other := by
  refine ⟨h.linked, hother, ?_, h.opened⟩
  intro s hs
  rcases List.mem_cons.1 hs with rfl | hs
  · exact h.opened other (Nat.zero_le _) hother
  · obtain ⟨around, haround, rfl⟩ := List.mem_map.1 hs
    have hlt := Nat.lt_trans (h.linked.outer_lt hother around haround) hother
    exact h.opened around (Nat.zero_le _) hlt

end ScopeTree

/-! ## The invariant of chains -/

/-- All runs keep a tree in order, for a discipline that leaves symbols alone. -/
def chainInvariant (D : Discipline) (hsymbol : ∀ q, D.node (.symbol q)) (base : Nat) :
    Invariant where
  toDiscipline := D
  holds := ScopeTree.InOrder D.node base
  record _ _ h := h.of_scopes_eq rfl
  enter name _ hvalue h := h.update (fun _ => rfl) fun _ hs => hs.enter (QName.plain name) hvalue
  switchTo {_ _ q} _ h := h.update (fun _ => rfl) fun _ hs => hs.switchTo q.name
  issue _ h := ⟨h.of_scopes_eq rfl, hsymbol _⟩
  inside _ h := h.addInside
  outside h hinner hframe := hinner.outside h.id_lt hframe
  find h hvalue := h.chain.find? h.linked h.id_lt hvalue
  current _ := hsymbol _

end Lisplet
