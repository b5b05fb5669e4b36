import Lisplet.Eval.Evaluate

set_option autoImplicit false

/-! # Frames

A computation in a scope writes to that scope and to scopes that it opens itself. `Frame` says this
of the trees before and after it, and has one lemma for each operation that changes a tree. -/

namespace Lisplet

/-! ## Operations on trees -/

/-- The tree that a computation leaves behind, whatever its outcome is. -/
def Eval.after {α : Type} (x : Eval α) (t : ScopeTree) : ScopeTree :=
  match x t with
  | .ok _ t' => t'
  | .error _ t' => t'

/-- The symbol that is made next from a stem. -/
def ScopeTree.freshSymbol (t : ScopeTree) (stem : String) : QName :=
  QName.plain (stem ++ toString t.counter)

/-- The tree after a fresh symbol was made. -/
def ScopeTree.issue (t : ScopeTree) (stem : String) : ScopeTree :=
  ({ t with counter := t.counter + 1 } : ScopeTree).record (.issued (t.freshSymbol stem))

theorem Eval.after_of_ok {α : Type} {x : Eval α} {value : α} {t t' : ScopeTree}
    (h : x t = .ok value t') : x.after t = t' := by
  unfold Eval.after
  rw [h]

theorem Eval.after_of_error {α : Type} {x : Eval α} {fault : Fault} {t t' : ScopeTree}
    (h : x t = .error fault t') : x.after t = t' := by
  unfold Eval.after
  rw [h]

/-- After two computations in sequence, the tree is as the last one that was started has left it. -/
theorem Eval.after_bind {α β : Type} (x : Eval α) (f : α → Eval β) (t : ScopeTree) :
    (x >>= f).after t
      = match x t with
        | .ok value t₁ => (f value).after t₁
        | .error _ t₁ => t₁ := by
  unfold Eval.after
  simp only [Bind.bind, EStateM.bind]
  cases x t <;> rfl

theorem Eval.bind_eq_ok_iff {α β : Type} {x : Eval α} {f : α → Eval β} {t t' : ScopeTree}
    {value : β} :
    (x >>= f) t = .ok value t' ↔ ∃ a t₁, x t = .ok a t₁ ∧ f a t₁ = .ok value t' := by
  simp only [Bind.bind, EStateM.bind]
  cases x t with
  | ok a t₁ => simp only [EStateM.Result.ok.injEq, and_assoc, exists_and_left, exists_eq_left']
  | error fault t₁ => simp only [reduceCtorEq, false_and, exists_false]

/-- A scope that is as deep as its setup allows: no scope can be nested in it. -/
def Scope.AtLimit (s : Scope) : Prop := s.setup.depthLimit ≤ s.depth

instance (s : Scope) : Decidable s.AtLimit := inferInstanceAs (Decidable (_ ≤ _))

/-- A scope is nested in another one unless that one is at its limit. -/
theorem Eval.nest_eq (id : ScopeId) (cause : Node) (t : ScopeTree) :
    Eval.nest id cause t
      = if (t.scope id).AtLimit then .error (.tooDeep cause) t
        else .ok t.scopes.size (t.addInside id) := by
  have hiff : (t.scope id).AtLimit ↔ (t.scope id).setup.depthLimit < (t.scope id).depth + 1 :=
    Int.lt_add_one_iff.symm
  simp only [hiff]
  show (if (t.scope id).setup.depthLimit < (t.scope id).depth + 1 then throw (.tooDeep cause)
    else (do set (t.addInside id); return t.scopes.size) : Eval ScopeId) t = _
  split <;> rfl

/-- What comes after a scope was nested runs in the new scope. -/
theorem Eval.nest_bind {α : Type} (id : ScopeId) (cause : Node) (f : ScopeId → Eval α)
    (t : ScopeTree) :
    (Eval.nest id cause >>= f) t
      = if (t.scope id).AtLimit then .error (.tooDeep cause) t
        else f t.scopes.size (t.addInside id) := by
  simp only [Bind.bind, EStateM.bind, Eval.nest_eq]
  by_cases hlimit : (t.scope id).AtLimit
  · rw [if_pos hlimit, if_pos hlimit]
  · rw [if_neg hlimit, if_neg hlimit]

/-- A file is asked for and, if there is one, run form by form. -/
theorem Eval.loadFile_eq (p : Passes) (id : ScopeId) (path : String) (t : ScopeTree) :
    Eval.loadFile p id path t
      = match (t.scope id).setup.files path with
        | .missing => .error (.wrongType (.string path)) (t.record (.asked path))
        | .unreadable reason => .error (.unreadable path reason) (t.record (.asked path))
        | .content text =>
          p.runReadings id .misreadFile .nil (Form.readAll text)
            ((t.record (.asked path)).record (.loading path (t.scope id).current)) := by
  have hasked : Eval.reply id path (t.record (.asked path))
      = .ok ((t.scope id).setup.files path) (t.record (.asked path)) := rfl
  have hrecord : Eval.record (.asked path) t = .ok () (t.record (.asked path)) := rfl
  simp only [Eval.loadFile, Eval.readFile, Bind.bind, EStateM.bind, hrecord, hasked]
  cases (t.scope id).setup.files path <;> rfl

/-! ## Frames -/

/-- Between two trees, at most the scope `own` was written to: none was lost, all others are as they
    were, and no number for a fresh symbol was given back. -/
structure Frame (own : ScopeId) (t t' : ScopeTree) : Prop where
  size_le : t.scopes.size ≤ t'.scopes.size
  counter_le : t.counter ≤ t'.counter
  scope_eq : ∀ other < t.scopes.size, other ≠ own → t'.scope other = t.scope other
  /-- Even the scope itself stays at its place in the tree … -/
  outer_eq : own < t.scopes.size → (t'.scope own).outer = (t.scope own).outer
  /-- … and keeps its setup. -/
  setup_eq : own < t.scopes.size → (t'.scope own).setup = (t.scope own).setup

/-- Between two trees, no scope was written to. -/
structure Intact (t t' : ScopeTree) : Prop where
  size_le : t.scopes.size ≤ t'.scopes.size
  counter_le : t.counter ≤ t'.counter
  scope_eq : ∀ other < t.scopes.size, t'.scope other = t.scope other

variable {id : ScopeId} {t t' : ScopeTree}

theorem Intact.refl (t : ScopeTree) : Intact t t :=
  ⟨Nat.le_refl _, Nat.le_refl _, fun _ _ => rfl⟩

theorem Intact.frame (h : Intact t t') (own : ScopeId) : Frame own t t' where
  size_le := h.size_le
  counter_le := h.counter_le
  scope_eq other hother _ := h.scope_eq other hother
  outer_eq hown := by rw [h.scope_eq own hown]
  setup_eq hown := by rw [h.scope_eq own hown]

theorem Intact.trans {t₁ t₂ t₃ : ScopeTree} (h : Intact t₁ t₂) (h' : Intact t₂ t₃) :
    Intact t₁ t₃ := by
  have hsize := h.size_le
  refine ⟨Nat.le_trans hsize h'.size_le, Nat.le_trans h.counter_le h'.counter_le, ?_⟩
  intro other hother
  rw [h'.scope_eq other (Nat.lt_of_lt_of_le hother hsize), h.scope_eq other hother]

theorem Frame.refl (id : ScopeId) (t : ScopeTree) : Frame id t t := (Intact.refl t).frame id

theorem Frame.trans {t₁ t₂ t₃ : ScopeTree} (h : Frame id t₁ t₂) (h' : Frame id t₂ t₃) :
    Frame id t₁ t₃ := by
  have hsize := h.size_le
  refine ⟨Nat.le_trans hsize h'.size_le, Nat.le_trans h.counter_le h'.counter_le, ?_, ?_, ?_⟩
  · intro other hother hne
    rw [h'.scope_eq other (by omega) hne, h.scope_eq other hother hne]
  · intro hown
    rw [h'.outer_eq (Nat.lt_of_lt_of_le hown hsize), h.outer_eq hown]
  · intro hown
    rw [h'.setup_eq (Nat.lt_of_lt_of_le hown hsize), h.setup_eq hown]

theorem Frame.depth_eq (h : Frame id t t') (hid : id < t.scopes.size) :
    (t'.scope id).depth = (t.scope id).depth :=
  congrArg List.length (h.outer_eq hid)

/-- The journal is no part of a scope. -/
theorem intact_record (t : ScopeTree) (event : Event) : Intact t (t.record event) :=
  ⟨Nat.le_refl _, Nat.le_refl _, fun _ _ => rfl⟩

theorem intact_issue (t : ScopeTree) (stem : String) : Intact t (t.issue stem) :=
  ⟨Nat.le_refl _, Nat.le_succ _, fun _ _ => rfl⟩

theorem frame_update (t : ScopeTree) (id : ScopeId) {change : Scope → Scope}
    (houter : ∀ s, (change s).outer = s.outer) (hsetup : ∀ s, (change s).setup = s.setup) :
    Frame id t (t.update id change) := by
  refine ⟨by simp, Nat.le_refl _, ?_, ?_, ?_⟩
  · intro other _ hne
    exact t.scope_update_of_ne change hne
  · intro hown
    rw [t.scope_update_self change hown, houter]
  · intro hown
    rw [t.scope_update_self change hown, hsetup]

/-- Seen from around, a computation in a scope of its own writes to nothing: the scope it writes to
    was not there before. -/
theorem Frame.intact_of_addInside (h : Frame t.scopes.size (t.addInside id) t') : Intact t t' := by
  have hsize := h.size_le
  simp only [ScopeTree.size_addInside] at hsize
  refine ⟨by omega, h.counter_le, ?_⟩
  intro other hother
  rw [h.scope_eq other (by simp; omega) (by omega), t.scope_addInside_of_lt id hother]

/-- A computation that nests a scope and keeps to its frame there leaves every scope as it was. -/
theorem intact_nest {α : Type} (cause : Node) {f : ScopeId → Eval α}
    (h : ∀ inner t, Frame inner t ((f inner).after t)) (t : ScopeTree) :
    Intact t ((Eval.nest id cause >>= f).after t) := by
  by_cases hlimit : (t.scope id).AtLimit
  · have hrun : (Eval.nest id cause >>= f).after t = t := by
      unfold Eval.after
      rw [Eval.nest_bind, if_pos hlimit]
    rw [hrun]
    exact Intact.refl t
  · have hrun : (Eval.nest id cause >>= f).after t
        = (f t.scopes.size).after (t.addInside id) := by
      unfold Eval.after
      rw [Eval.nest_bind, if_neg hlimit]
    rw [hrun]
    exact (h t.scopes.size (t.addInside id)).intact_of_addInside

/-! ## Trees up to their journals -/

/-- The trees differ in their journals at most. -/
structure ScopeTree.EqUpToJournal (t t' : ScopeTree) : Prop where
  scopes_eq : t'.scopes = t.scopes
  counter_eq : t'.counter = t.counter

theorem ScopeTree.EqUpToJournal.scope_eq {t t' : ScopeTree} (h : t.EqUpToJournal t')
    (id : ScopeId) : t'.scope id = t.scope id := by
  unfold scope
  rw [h.scopes_eq]

theorem ScopeTree.EqUpToJournal.refl (t : ScopeTree) : t.EqUpToJournal t := ⟨rfl, rfl⟩

theorem ScopeTree.EqUpToJournal.trans {t₁ t₂ t₃ : ScopeTree} (h : t₁.EqUpToJournal t₂)
    (h' : t₂.EqUpToJournal t₃) : t₁.EqUpToJournal t₃ :=
  ⟨h'.scopes_eq.trans h.scopes_eq, h'.counter_eq.trans h.counter_eq⟩

end Lisplet
