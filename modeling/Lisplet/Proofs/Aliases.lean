import Lisplet.Proofs.Expansion

set_option autoImplicit false

/-! # Aliases

`refer` binds a name in the scope that it runs in, and an unqualified target is taken from the
current namespace of that scope. The alias is followed through the root scope, and once only. So it
stands for what the root has under the qualified target (`ScopeTree.find?_referred`), and this is
the value of the target if the root decides it: not if a scope inside the root has the target, and
not if the target is an alias, too. -/

namespace Lisplet

theorem QName.ns_qualify (ns : String) (q : QName) :
    (qualify ns q).ns = some (q.ns.getD ns) := by
  unfold qualify
  cases hns : q.ns with
  | none => rfl
  | some other => rw [hns, Option.getD_some]

@[simp]
theorem QName.name_qualify (ns : String) (q : QName) : (qualify ns q).name = q.name := by
  unfold qualify
  split <;> rfl

/-- A name is looked up where it says, or in the current namespace. -/
theorem Scope.lookup_qualify (s : Scope) {ns : String} {q : QName}
    (h : q.ns = none → ns = s.current) : s.lookup (QName.qualify ns q) = s.lookup q := by
  unfold lookup
  rw [QName.ns_qualify, QName.name_qualify, Option.getD_some]
  cases hns : q.ns with
  | none => rw [h hns]
  | some other => rfl

namespace ScopeTree

variable {t : ScopeTree} {id : ScopeId}

/-- The tree after `name` was made an alias of the target in the scope `id`. -/
def referred (t : ScopeTree) (id : ScopeId) (name : String) (target : QName) : ScopeTree :=
  let ns := (t.scope id).current
  let key := QName.qualify ns target
  (t.update id (·.enter (QName.plain name) (.aliasTo (key.ns.getD ns) key.name))).record
    (.referred ns name key)

/-- No other name gets another value in any scope. -/
theorem lookup_referred_of_ne (hid : id < t.scopes.size) {name : String} (target : QName)
    {q : QName} (hq : q.name ≠ name) (other : ScopeId) :
    ((t.referred id name target).scope other).lookup q = (t.scope other).lookup q := by
  by_cases hother : other = id
  · subst hother
    show ((t.update other _).scope other).lookup q = _
    rw [scope_update_self t _ hid]
    exact Scope.lookup_enter_of_ne _ _ hq
  · show ((t.update id _).scope other).lookup q = _
    rw [scope_update_of_ne t _ hother]

/-- An alias stands for what the root has under its target. -/
theorem find?_referred (hid : id < t.scopes.size) {name : String} {target : QName}
    (hname : name ≠ target.name) :
    (t.referred id name target).find? id (QName.plain name)
      = (t.scope rootId).lookup (QName.qualify (t.scope id).current target) := by
  let ns := (t.scope id).current
  let key := QName.qualify ns target
  have hinnermost : (t.referred id name target).innermost? id (QName.plain name)
      = some (.aliasTo (key.ns.getD ns) key.name) := by
    have hself : ((t.referred id name target).scope id).lookup (QName.plain name)
        = some (.aliasTo (key.ns.getD ns) key.name) := by
      show ((t.update id _).scope id).lookup _ = _
      rw [scope_update_self t _ hid]
      exact Scope.lookup_enter_self _ _ _
    unfold innermost? chain
    rw [List.findSome?_cons, hself]
  have hkey : (⟨some (key.ns.getD ns), key.name⟩ : QName) = key := by
    show (⟨some ((QName.qualify ns target).ns.getD ns), _⟩ : QName) = _
    rw [QName.ns_qualify, Option.getD_some, ← QName.ns_qualify]
  unfold find?
  rw [hinnermost]
  show ((t.referred id name target).scope rootId).lookup ⟨some (key.ns.getD ns), key.name⟩ = _
  rw [hkey]
  exact lookup_referred_of_ne hid target (by simpa [key] using hname.symm) rootId

/-- A name that no scope inside the root has is decided by the root. -/
theorem innermost?_eq_lookup {inner : List Scope} (hchain : t.chain id = inner ++ [t.scope rootId])
    {q : QName} (hinner : ∀ s ∈ inner, s.lookup q = none) :
    t.innermost? id q = (t.scope rootId).lookup q := by
  have hnone : inner.findSome? (·.lookup q) = none := List.findSome?_eq_none_iff.2 hinner
  rw [innermost?, hchain, List.findSome?_append, hnone, Option.none_or, List.findSome?_singleton]

theorem lookup_of_find? {q : QName} {value : Node}
    (h : t.innermost? id q = (t.scope rootId).lookup q)
    (halias : ∀ ns name, (t.scope rootId).lookup q ≠ some (.aliasTo ns name))
    (hvalue : t.find? id q = some value) : (t.scope rootId).lookup q = some value := by
  unfold find? at hvalue
  rw [h] at hvalue
  split at hvalue
  · next ns name hentry => exact absurd hentry (halias ns name)
  · exact hvalue

end ScopeTree

namespace Eval

theorem resolve_eq (id : ScopeId) (q : QName) (t : ScopeTree) :
    resolve id q t
      = match t.find? id q with
        | some value => .ok value t
        | none => .error (.unresolved q.name) t := by
  cases hfind : t.find? id q with
  | some value => exact resolve_of_find? hfind
  | none =>
    have hnone : find? id q t = .ok none t := congrArg (EStateM.Result.ok · t) hfind
    simp only [resolve, Bind.bind, EStateM.bind, hnone]
    rfl

end Eval

namespace Passes

open ScopeTree (rootId)

variable {id : ScopeId} {t : ScopeTree}

theorem evaluate_symbol (budget : Nat) (q : QName) :
    (within (budget + 1)).evaluate id (.symbol q) = Eval.resolve id q := rfl

/-- `refer` asks for nothing but two symbols. -/
theorem evaluate_refer (budget : Nat) (ns : Option String) (name target : QName) :
    (within (budget + 1)).evaluate id (.call ⟨ns, "refer"⟩ [.symbol name, .symbol target]) t
      = .ok (.symbol (QName.qualify (t.scope id).current target))
          (t.referred id name.name target) := rfl

/-- Suppose that a target has a value in some scope, and a name other than its own is made an alias
    of it there. This succeeds, and afterwards the name stands for the entry that the root has under
    the qualified target, as it is; if the root has none, the name cannot be resolved. So the value
    is that of the target exactly if the root has this value there. That is the case if no scope
    inside the root has the target, an unqualified target means the same in the scope and in the
    root, and the entry of the root is not an alias itself. -/
theorem evaluate_alias (budget : Nat) (hid : id < t.scopes.size) (ns : Option String)
    {name target : QName} (hname : name.name ≠ target.name) {value : Node} {t₁ : ScopeTree}
    (htarget : (within budget).evaluate id (.symbol target) t = .ok value t₁) :
    let p := within budget
    let root := t.scope rootId
    let key := QName.qualify (t.scope id).current target
    ∃ t', p.evaluate id (.call ⟨ns, "refer"⟩ [.symbol name, .symbol target]) t
        = .ok (.symbol key) t' ∧
      (p.evaluate id (.symbol (QName.plain name.name)) t'
        = match root.lookup key with
          | some entry => .ok entry t'
          | none => .error (.unresolved name.name) t') ∧
      (p.evaluate id (.symbol (QName.plain name.name)) t' = .ok value t' ↔
        root.lookup key = some value) ∧
      ∀ inner, t.chain id = inner ++ [root] → (∀ s ∈ inner, s.lookup target = none) →
        (target.ns = none → (t.scope id).current = root.current) →
        (∀ ns name, root.lookup target ≠ some (.aliasTo ns name)) →
        p.evaluate id (.symbol (QName.plain name.name)) t' = .ok value t' := by
  intro p root key
  cases budget with
  | zero => cases htarget
  | succ budget =>
    have hentry : p.evaluate id (.symbol (QName.plain name.name)) (t.referred id name.name target)
        = match root.lookup key with
          | some entry => .ok entry (t.referred id name.name target)
          | none => .error (.unresolved name.name) (t.referred id name.name target) := by
      rw [evaluate_symbol, Eval.resolve_eq, ScopeTree.find?_referred hid hname]
      rfl
    have hiff : p.evaluate id (.symbol (QName.plain name.name)) (t.referred id name.name target)
          = .ok value (t.referred id name.name target) ↔
        root.lookup key = some value := by
      rw [hentry]
      cases root.lookup key <;> simp
    refine ⟨_, evaluate_refer budget ns name target, hentry, hiff, ?_⟩
    intro inner hchain hinner hcurrent halias
    have hfind : t.find? id target = some value := by
      rw [evaluate_symbol, Eval.resolve_eq] at htarget
      split at htarget
      · next found hfound =>
        cases htarget
        exact hfound
      · cases htarget
    rw [hiff, Scope.lookup_qualify root hcurrent]
    exact ScopeTree.lookup_of_find? (ScopeTree.innermost?_eq_lookup hchain hinner) halias hfind

/-- From inside the root, an alias of a qualified target that only the root has. -/
theorem evaluate_alias_qualified :
    let setup : Setup := ⟨1, fun _ => .missing⟩
    let p := within 9
    let root := (ScopeTree.root setup "user").update rootId
      (·.enter (QName.plain "a") (.string "x"))
    let t := root.addInside rootId
    let target : QName := ⟨some "user", "a"⟩
    p.evaluate 1 (.symbol target) t = .ok (.string "x") t ∧
      ∃ t', p.evaluate 1 (.call (QName.plain "refer") [.symbol (QName.plain "b"), .symbol target]) t
          = .ok (.symbol target) t' ∧
        p.evaluate 1 (.symbol (QName.plain "b")) t' = .ok (.string "x") t' := by
  intro setup p root t target
  have htarget : p.evaluate 1 (.symbol target) t = .ok (.string "x") t := rfl
  have hid : 1 < t.scopes.size := by decide
  have hname : (QName.plain "b").name ≠ target.name := by decide
  obtain ⟨t', hrefer, _, _, halias⟩ := evaluate_alias _ hid none hname htarget
  have hentry : (t.scope rootId).lookup target = some (.string "x") := rfl
  refine ⟨htarget, t', hrefer, halias [t.scope 1] rfl ?_ ?_ ?_⟩
  · intro s hs
    rw [List.mem_singleton.1 hs]
    rfl
  · intro hnone
    cases hnone
  · intro ns name hsame
    rw [hentry] at hsame
    cases hsame

/-- Inside a `let` that binds the target, the alias has no value; and an alias of an alias stands
    for that alias instead of its value. -/
theorem evaluate_alias_once :
    let setup : Setup := ⟨1, fun _ => .missing⟩
    let p := within 9
    let one : Node := .number ⟨0x3ff0000000000000⟩
    let refer (name target : String) : Node :=
      .call (QName.plain "refer") [.symbol (QName.plain name), .symbol (QName.plain target)]
    let inLet := ((ScopeTree.root setup "user").addInside rootId).update 1
      (·.enter (QName.plain "a") one)
    let defined := (ScopeTree.root setup "user").update rootId (·.enter (QName.plain "a") one)
    let aliased := defined.update rootId (·.enter (QName.plain "b") (.aliasTo "user" "a"))
    (p.evaluate 1 (.symbol (QName.plain "a")) inLet = .ok one inLet ∧
      ∃ t', p.evaluate 1 (refer "b" "a") inLet = .ok (.symbol ⟨some "user_chained", "a"⟩) t' ∧
        p.evaluate 1 (.symbol (QName.plain "b")) t' = .error (.unresolved "b") t') ∧
    p.evaluate rootId (.symbol (QName.plain "b")) aliased = .ok one aliased ∧
      ∃ t', p.evaluate rootId (refer "c" "b") aliased = .ok (.symbol ⟨some "user", "b"⟩) t' ∧
        p.evaluate rootId (.symbol (QName.plain "c")) t' = .ok (.aliasTo "user" "a") t' :=
  ⟨⟨rfl, _, rfl, rfl⟩, rfl, _, rfl, rfl⟩

end Passes

end Lisplet
