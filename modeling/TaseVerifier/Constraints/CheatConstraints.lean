import TaseVerifier.Constraints.Manager
import TaseVerifier.Constraints.UnionFind

/-! The constraints of an execution state in training. Next to its constraint manager a state
has a second one, for facts that only training knows; both work on the same two
union-find stores. What goes into the second manager stays apart from the first one and
its store. -/

namespace TaseVerifier

/-- The two vectors of a `ConstraintManager`. -/
structure ConstraintVectors where
  constraints : List Expr
  cheatConstraints : List Expr
  deriving DecidableEq

/-- The two managers of an execution state, with `ufmanager` and `ufmanager_cheat`. -/
structure ExecutionState (U : Type) where
  constraints : ConstraintVectors
  cheatConstraints : ConstraintVectors
  ufmanager : U
  ufmanagerCheat : U
  deriving DecidableEq

namespace ExecutionState

variable {U : Type} (updateUFStructures : List KleeArray → Expr → U → U)

/-- No constraint was added; the stores may have elements of arrays that were made before. -/
def fresh (ufmanager ufmanagerCheat : U) : ExecutionState U :=
  ⟨⟨[], []⟩, ⟨[], []⟩, ufmanager, ufmanagerCheat⟩

def addCheatConstraint (e : Expr) (s : ExecutionState U) : Except Abort (ExecutionState U) := do
  let t ← ConstraintManager.addCheatConstraint updateUFStructures e
    ⟨s.cheatConstraints.constraints, s.cheatConstraints.cheatConstraints, s.ufmanager,
      s.ufmanagerCheat⟩
  return ⟨s.constraints, ⟨t.constraints, t.cheatConstraints⟩, t.ufmanager, t.ufmanagerCheat⟩

def addConstraint (useCheatCons : Bool) (e : Expr) (s : ExecutionState U) :
    Except Abort (ExecutionState U) := do
  let t ← ConstraintManager.addConstraint updateUFStructures e
    ⟨s.constraints.constraints, s.constraints.cheatConstraints, s.ufmanager, s.ufmanagerCheat⟩
  let s : ExecutionState U :=
    ⟨⟨t.constraints, t.cheatConstraints⟩, s.cheatConstraints, t.ufmanager, t.ufmanagerCheat⟩
  if useCheatCons then addCheatConstraint updateUFStructures e s else pure s

inductive Call where
  | addConstraint (e : Expr)
  | addCheatConstraint (e : Expr)

def Call.isReal : Call → Bool
  | .addConstraint _ => true
  | .addCheatConstraint _ => false

def step (useCheatCons : Bool) (s : ExecutionState U) : Call → Except Abort (ExecutionState U)
  | .addConstraint e => s.addConstraint updateUFStructures useCheatCons e
  | .addCheatConstraint e => s.addCheatConstraint updateUFStructures e

def run (useCheatCons : Bool) (calls : List Call) (s : ExecutionState U) :
    Except Abort (ExecutionState U) :=
  calls.foldlM (step updateUFStructures useCheatCons) s

end ExecutionState

/-- A relation that each step of a loop keeps is kept by the loop. -/
theorem foldlM_related {ε α S T : Type} {R : S → T → Prop} {g : S → α → Except ε S}
    {h : T → α → Except ε T}
    (hstep : ∀ s t a s', R s t → g s a = .ok s' → ∃ t', h t a = .ok t' ∧ R s' t') {as : List α}
    {s s' : S} {t : T} (hR : R s t) (hs : as.foldlM g s = .ok s') :
    ∃ t', as.foldlM h t = .ok t' ∧ R s' t' := by
  induction as generalizing s t with
  | nil =>
    obtain rfl := Except.ok.inj hs
    exact ⟨t, rfl, hR⟩
  | cons a as ih =>
    rw [List.foldlM_cons] at hs ⊢
    cases hg : g s a with
    | error err =>
      rw [hg] at hs
      cases hs
    | ok s₁ =>
      rw [hg] at hs
      obtain ⟨t₁, ht₁, hR₁⟩ := hstep s t a s₁ hR hg
      rw [ht₁]
      exact ih hR₁ hs

namespace ConstraintManager

open ExprReplaceVisitor (bind_eq_ok)

variable {U : Type} {updateUFStructures : List KleeArray → Expr → U → U}

/-- The vector and the store of the real constraints are the same. -/
def SameReal (s t : ConstraintState U) : Prop :=
  s.constraints = t.constraints ∧ s.ufmanager = t.ufmanager

theorem SameReal.push {s t : ConstraintState U} (h : SameReal s t) (e : Expr)
    (symNames : Option (List KleeArray)) :
    SameReal (push updateUFStructures e symNames false s)
      (push updateUFStructures e symNames false t) := by
  simp only [ConstraintManager.push, SameReal, Bool.false_eq_true, if_false, h.1, h.2, true_and]

theorem rewriteStep_sameReal
    {add : Expr → ConstraintState U → Except Abort (ConstraintState U)}
    (hadd : ∀ e s t s', SameReal s t → add e s = .ok s' → ∃ t', add e t = .ok t' ∧ SameReal s' t')
    (src dst : Expr) {s t s' : ConstraintState U} {c : Expr} (h : SameReal s t)
    (hs : rewriteStep add src dst s c = .ok s') :
    ∃ t', rewriteStep add src dst t c = .ok t' ∧ SameReal s' t' := by
  obtain ⟨e, hv, hs⟩ := bind_eq_ok.mp hs
  unfold rewriteStep
  rw [hv]
  dsimp only [bind, Except.bind]
  split_ifs at hs ⊢
  · obtain rfl := Except.ok.inj hs
    exact ⟨_, rfl, by rw [h.1], h.2⟩
  · exact hadd e s t s' h hs

/-- A call for a real constraint does not look at the cheat ones. -/
theorem addConstraintInternal_sameReal (n : ℕ) {e : Expr} {symNames : Option (List KleeArray)}
    {s t s' : ConstraintState U} (h : SameReal s t)
    (hs : addConstraintInternal updateUFStructures n e symNames false s = .ok s') :
    ∃ t', addConstraintInternal updateUFStructures n e symNames false t = .ok t' ∧
      SameReal s' t' := by
  induction n generalizing e symNames s t s' with
  | zero => cases hs
  | succ n ih =>
    unfold addConstraintInternal at hs ⊢
    split at hs
    next c =>
      split_ifs at hs ⊢
      obtain rfl := Except.ok.inj hs
      exact ⟨t, rfl, h⟩
    next l r =>
      obtain ⟨s₁, hs₁, hs₂⟩ := bind_eq_ok.mp hs
      obtain ⟨t₁, ht₁, h₁⟩ := ih h hs₁
      obtain ⟨t₂, ht₂, h₂⟩ := ih h₁ hs₂
      exact ⟨t₂, bind_eq_ok.mpr ⟨t₁, ht₁, ht₂⟩, h₂⟩
    next l r =>
      simp only at hs ⊢
      split_ifs at hs ⊢
      · obtain ⟨s₁, hs₁, hs₂⟩ := bind_eq_ok.mp hs
        obtain rfl := Except.ok.inj hs₂
        have hstart : SameReal { s with constraints := [] } { t with constraints := [] } :=
          ⟨rfl, h.2⟩
        rw [rewriteConstraints, h.1] at hs₁
        obtain ⟨t₁, ht₁, h₁⟩ := foldlM_related (fun s t c s' h hs => by
          refine rewriteStep_sameReal ?_ r l h hs
          exact fun e s t s' => ih) hstart hs₁
        exact ⟨_, bind_eq_ok.mpr ⟨t₁, ht₁, rfl⟩, h₁.push _ symNames⟩
      · obtain rfl := Except.ok.inj hs
        exact ⟨_, rfl, h.push _ symNames⟩
    next =>
      obtain rfl := Except.ok.inj hs
      exact ⟨_, rfl, h.push _ symNames⟩

/-- In a manager whose own vector is empty a cheat constraint leaves that vector and the store of
the real constraints as they are: there is nothing to rewrite, and so nothing is added again. -/
theorem addConstraintInternal_cheat (n : ℕ) {e : Expr} {symNames : Option (List KleeArray)}
    {s s' : ConstraintState U} (h : s.constraints = [])
    (hs : addConstraintInternal updateUFStructures n e symNames true s = .ok s') :
    SameReal s s' := by
  induction n generalizing e symNames s s' with
  | zero => cases hs
  | succ n ih =>
    unfold addConstraintInternal at hs
    split at hs
    next c =>
      split_ifs at hs
      obtain rfl := Except.ok.inj hs
      exact ⟨rfl, rfl⟩
    next l r =>
      obtain ⟨s₁, hs₁, hs₂⟩ := bind_eq_ok.mp hs
      have h₁ := ih h hs₁
      have h₂ := ih (h₁.1 ▸ h) hs₂
      exact ⟨h₁.1.trans h₂.1, h₁.2.trans h₂.2⟩
    next l r =>
      simp only at hs
      split_ifs at hs
      · obtain ⟨s₁, hs₁, hs₂⟩ := bind_eq_ok.mp hs
        rw [rewriteConstraints, h] at hs₁
        obtain rfl := Except.ok.inj hs₁
        obtain rfl := Except.ok.inj hs₂
        exact ⟨h, rfl⟩
      · obtain rfl := Except.ok.inj hs
        exact ⟨rfl, rfl⟩
    next =>
      obtain rfl := Except.ok.inj hs
      exact ⟨rfl, rfl⟩

/-- Whether such a call returns depends on the constraint only. -/
theorem addConstraintInternal_cheat_ok (n : ℕ) {e : Expr} {symNames : Option (List KleeArray)}
    {s t s' : ConstraintState U} (hs : s.constraints = []) (ht : t.constraints = [])
    (h : addConstraintInternal updateUFStructures n e symNames true s = .ok s') :
    ∃ t', addConstraintInternal updateUFStructures n e symNames true t = .ok t' := by
  induction n generalizing e symNames s t s' with
  | zero => cases h
  | succ n ih =>
    unfold addConstraintInternal at h ⊢
    split at h
    next c =>
      split_ifs at h ⊢
      exact ⟨t, rfl⟩
    next l r =>
      obtain ⟨s₁, hs₁, hs₂⟩ := bind_eq_ok.mp h
      obtain ⟨t₁, ht₁⟩ := ih hs ht hs₁
      have hs₁' := (addConstraintInternal_cheat n hs hs₁).1
      have ht₁' := (addConstraintInternal_cheat n ht ht₁).1
      obtain ⟨t₂, ht₂⟩ := ih (hs₁' ▸ hs) (ht₁' ▸ ht) hs₂
      exact ⟨t₂, bind_eq_ok.mpr ⟨t₁, ht₁, ht₂⟩⟩
    next l r =>
      simp only
      split_ifs
      · rw [rewriteConstraints, ht]
        exact ⟨_, rfl⟩
      · exact ⟨_, rfl⟩
    next => exact ⟨_, rfl⟩

end ConstraintManager

namespace ExecutionState

open ExprReplaceVisitor (bind_eq_ok)

variable {U : Type} {updateUFStructures : List KleeArray → Expr → U → U} {useCheatCons : Bool}

/-- The real constraints are the same, and no manager of cheat constraints has real ones. -/
structure SameReal (s t : ExecutionState U) : Prop where
  constraints : s.constraints.constraints = t.constraints.constraints
  ufmanager : s.ufmanager = t.ufmanager
  left : s.cheatConstraints.constraints = []
  right : t.cheatConstraints.constraints = []

theorem addCheatConstraint_eq_ok {e : Expr} {s s' : ExecutionState U}
    (h : s.cheatConstraints.constraints = [])
    (hs : s.addCheatConstraint updateUFStructures e = .ok s') :
    s'.constraints = s.constraints ∧ s'.ufmanager = s.ufmanager ∧
      s'.cheatConstraints.constraints = [] := by
  obtain ⟨t, ht, hs⟩ := bind_eq_ok.mp hs
  obtain rfl := Except.ok.inj hs
  have hreal := ConstraintManager.addConstraintInternal_cheat _ h ht
  exact ⟨rfl, hreal.2.symm, hreal.1.symm.trans h⟩

/-- A cheat constraint is not seen. -/
theorem SameReal.addCheatConstraint {e : Expr} {s t s' : ExecutionState U} (h : SameReal s t)
    (hs : s.addCheatConstraint updateUFStructures e = .ok s') : SameReal s' t := by
  obtain ⟨hcons, hstore, hempty⟩ := addCheatConstraint_eq_ok h.left hs
  exact ⟨hcons ▸ h.constraints, hstore.trans h.ufmanager, hempty, h.right⟩

theorem addCheatConstraint_ok {e : Expr} {s t s' : ExecutionState U}
    (hleft : s.cheatConstraints.constraints = []) (hright : t.cheatConstraints.constraints = [])
    (hs : s.addCheatConstraint updateUFStructures e = .ok s') :
    ∃ t', t.addCheatConstraint updateUFStructures e = .ok t' := by
  obtain ⟨m, hm, -⟩ := bind_eq_ok.mp hs
  unfold ConstraintManager.addCheatConstraint ConstraintManager.depth at hm
  obtain ⟨m', hm'⟩ := ConstraintManager.addConstraintInternal_cheat_ok _ hleft
    (t := ⟨t.cheatConstraints.constraints, t.cheatConstraints.cheatConstraints, t.ufmanager,
      t.ufmanagerCheat⟩) hright hm
  have hdepth : weights t.cheatConstraints.constraints = weights s.cheatConstraints.constraints := by
    rw [hleft, hright]
  refine ⟨_, bind_eq_ok.mpr ⟨m', ?_, rfl⟩⟩
  rw [ConstraintManager.addCheatConstraint, ConstraintManager.depth, ← hm']
  dsimp only
  rw [hdepth]

/-- A real constraint has the same effect on both. -/
theorem SameReal.addConstraint {e : Expr} {s t s' : ExecutionState U} (h : SameReal s t)
    (hs : s.addConstraint updateUFStructures useCheatCons e = .ok s') :
    ∃ t', t.addConstraint updateUFStructures useCheatCons e = .ok t' ∧ SameReal s' t' := by
  obtain ⟨m, hm, hs⟩ := bind_eq_ok.mp hs
  have hreal : ConstraintManager.SameReal
      ⟨s.constraints.constraints, s.constraints.cheatConstraints, s.ufmanager, s.ufmanagerCheat⟩
      ⟨t.constraints.constraints, t.constraints.cheatConstraints, t.ufmanager, t.ufmanagerCheat⟩ :=
    ⟨h.constraints, h.ufmanager⟩
  unfold ConstraintManager.addConstraint ConstraintManager.depth at hm
  obtain ⟨m', hm', hsame⟩ := ConstraintManager.addConstraintInternal_sameReal _ hreal hm
  have hm'' : ConstraintManager.addConstraint updateUFStructures e
      ⟨t.constraints.constraints, t.constraints.cheatConstraints, t.ufmanager,
        t.ufmanagerCheat⟩ = .ok m' := by
    rw [ConstraintManager.addConstraint, ConstraintManager.depth, ← hm']
    dsimp only
    rw [h.constraints]
  have hafter : SameReal
      ⟨⟨m.constraints, m.cheatConstraints⟩, s.cheatConstraints, m.ufmanager, m.ufmanagerCheat⟩
      ⟨⟨m'.constraints, m'.cheatConstraints⟩, t.cheatConstraints, m'.ufmanager,
        m'.ufmanagerCheat⟩ :=
    ⟨hsame.1, hsame.2, h.left, h.right⟩
  cases useCheatCons with
  | false =>
    obtain rfl := Except.ok.inj hs
    exact ⟨_, bind_eq_ok.mpr ⟨m', hm'', rfl⟩, hafter⟩
  | true =>
    obtain ⟨t', ht'⟩ := addCheatConstraint_ok hafter.left hafter.right hs
    have hcheat := hafter.addCheatConstraint hs
    obtain ⟨hcons, hstore, hempty⟩ := addCheatConstraint_eq_ok hafter.right ht'
    refine ⟨t', bind_eq_ok.mpr ⟨m', hm'', ht'⟩, ?_, ?_, hcheat.left, hempty⟩
    · exact hcons ▸ hcheat.constraints
    · exact hcheat.ufmanager.trans hstore.symm

theorem SameReal.run {calls : List Call} {s t s' : ExecutionState U} (h : SameReal s t)
    (hs : s.run updateUFStructures useCheatCons calls = .ok s') :
    ∃ t', t.run updateUFStructures useCheatCons (calls.filter Call.isReal) = .ok t' ∧
      SameReal s' t' := by
  induction calls generalizing s t with
  | nil =>
    obtain rfl := Except.ok.inj hs
    exact ⟨t, rfl, h⟩
  | cons call calls ih =>
    obtain ⟨s₁, hs₁, hs₂⟩ := bind_eq_ok.mp hs
    cases call with
    | addConstraint e =>
      obtain ⟨t₁, ht₁, h₁⟩ := h.addConstraint hs₁
      obtain ⟨t', ht', h'⟩ := ih h₁ hs₂
      exact ⟨t', bind_eq_ok.mpr ⟨t₁, ht₁, ht'⟩, h'⟩
    | addCheatConstraint e => exact ih (h.addCheatConstraint hs₁) hs₂

/-- Cheat constraints do not leak: without the calls that add them a run ends with the same real
constraints in the vector and with the same store of them. -/
theorem run_without_cheat (updateUFStructures : List KleeArray → Expr → U → U) (useCheatCons : Bool)
    (calls : List Call) (ufmanager ufmanagerCheat : U) (s : ExecutionState U)
    (hs : (fresh ufmanager ufmanagerCheat).run updateUFStructures useCheatCons calls = .ok s) :
    ∃ t, (fresh ufmanager ufmanagerCheat).run updateUFStructures useCheatCons
        (calls.filter Call.isReal) = .ok t ∧
      t.constraints.constraints = s.constraints.constraints ∧ t.ufmanager = s.ufmanager := by
  have hfresh : SameReal (fresh ufmanager ufmanagerCheat) (fresh ufmanager ufmanagerCheat) :=
    ⟨rfl, rfl, rfl, rfl⟩
  obtain ⟨t, ht, hsame⟩ := hfresh.run hs
  exact ⟨t, ht, hsame.constraints.symm, hsame.ufmanager.symm⟩

/-- A logged byte between two constraints on it. -/
theorem run_without_cheat_byte :
    let a : KleeArray := ⟨"a", 1, 0, []⟩
    let byte := Expr.read (.root a) (.alloc 0 32)
    let calls : List Call := [.addConstraint (.binary .Ult byte (.alloc 7 8)),
      .addCheatConstraint (.binary .Eq (.alloc 5 8) byte),
      .addConstraint (.binary .Ult (.alloc 2 8) byte)]
    let store := (UFManager.create a ⟨[]⟩).2
    ∃ s, (fresh store store).run UFManager.updateUFStructures true calls = .ok s ∧
      ∃ t, (fresh store store).run UFManager.updateUFStructures true (calls.filter Call.isReal) =
        .ok t ∧ t.constraints.constraints = s.constraints.constraints ∧
          t.ufmanager = s.ufmanager := by
  intro a byte calls store
  obtain ⟨s, hs⟩ : ∃ s, (fresh store store).run UFManager.updateUFStructures true calls = .ok s :=
    ⟨_, rfl⟩
  exact ⟨s, hs, run_without_cheat UFManager.updateUFStructures true calls store store s hs⟩

end ExecutionState

end TaseVerifier
