import Mathlib.Algebra.BigOperators.Group.List.Basic
import Mathlib.Algebra.Group.Pi.Basic
import Mathlib.Tactic.Abel
import TaseVerifier.Expr.Kids

/-! Constraint features: how many nodes of each kind the path constraints have. A constraint is
added and taken out again by two recursions over the expression. -/

namespace TaseVerifier

namespace ConstraintBOW

/-- The size of 32 is asserted. The counts are whole numbers. -/
abbrev Features := Fin 32 → ℤ

def bump (i : Fin 32) (d : ℤ) (features : Features) : Features :=
  Function.update features i (features i + d)

/-! ### The source -/

def addConstraintBOW : Expr → Features → Features
  | .constant _, features => bump 0 1 features
  | .notOptimized src, features => addConstraintBOW src (bump 1 1 features)
  | .read _ index, features => addConstraintBOW index (bump 2 1 features)
  | .select cond trueExpr falseExpr, features =>
    addConstraintBOW falseExpr (addConstraintBOW trueExpr
      (addConstraintBOW cond (bump 3 1 features)))
  | .concat left right, features =>
    addConstraintBOW right (addConstraintBOW left (bump 4 1 features))
  | .extract expr _ _, features => addConstraintBOW expr (bump 5 1 features)
  | .cast .ZExt src _, features => addConstraintBOW src (bump 6 1 features)
  | .cast .SExt src _, features => addConstraintBOW src (bump 7 1 features)
  | .not expr, features => addConstraintBOW expr (bump 8 1 features)
  | .binary .Add left right, features =>
    addConstraintBOW right (addConstraintBOW left (bump 9 1 features))
  | .binary .Sub left right, features =>
    addConstraintBOW right (addConstraintBOW left (bump 10 1 features))
  | .binary .Mul left right, features =>
    addConstraintBOW right (addConstraintBOW left (bump 11 1 features))
  | .binary .UDiv left right, features =>
    addConstraintBOW right (addConstraintBOW left (bump 12 1 features))
  | .binary .SDiv left right, features =>
    addConstraintBOW right (addConstraintBOW left (bump 13 1 features))
  | .binary .URem left right, features =>
    addConstraintBOW right (addConstraintBOW left (bump 14 1 features))
  | .binary .SRem left right, features =>
    addConstraintBOW right (addConstraintBOW left (bump 15 1 features))
  | .binary .And left right, features =>
    addConstraintBOW right (addConstraintBOW left (bump 16 1 features))
  | .binary .Or left right, features =>
    addConstraintBOW right (addConstraintBOW left (bump 17 1 features))
  | .binary .Xor left right, features =>
    addConstraintBOW right (addConstraintBOW left (bump 18 1 features))
  | .binary .Shl left right, features =>
    addConstraintBOW right (addConstraintBOW left (bump 19 1 features))
  | .binary .LShr left right, features =>
    addConstraintBOW right (addConstraintBOW left (bump 20 1 features))
  | .binary .AShr left right, features =>
    addConstraintBOW right (addConstraintBOW left (bump 21 1 features))
  | .binary .Eq left right, features =>
    addConstraintBOW right (addConstraintBOW left (bump 22 1 features))
  | .binary .Ne left right, features =>
    addConstraintBOW right (addConstraintBOW left (bump 23 1 features))
  | .binary .Ult left right, features =>
    addConstraintBOW right (addConstraintBOW left (bump 24 1 features))
  | .binary .Ule left right, features =>
    addConstraintBOW right (addConstraintBOW left (bump 25 1 features))
  | .binary .Ugt left right, features =>
    addConstraintBOW right (addConstraintBOW left (bump 26 1 features))
  | .binary .Uge left right, features =>
    addConstraintBOW right (addConstraintBOW left (bump 27 1 features))
  | .binary .Slt left right, features =>
    addConstraintBOW right (addConstraintBOW left (bump 28 1 features))
  | .binary .Sle left right, features =>
    addConstraintBOW right (addConstraintBOW left (bump 29 1 features))
  | .binary .Sgt left right, features =>
    addConstraintBOW right (addConstraintBOW left (bump 30 1 features))
  | .binary .Sge left right, features =>
    addConstraintBOW right (addConstraintBOW left (bump 31 1 features))

def remConstraintBOW : Expr → Features → Features
  | .constant _, features => bump 0 (-1) features
  | .notOptimized src, features => remConstraintBOW src (bump 1 (-1) features)
  | .read _ index, features => remConstraintBOW index (bump 2 (-1) features)
  | .select cond trueExpr falseExpr, features =>
    remConstraintBOW falseExpr (remConstraintBOW trueExpr
      (remConstraintBOW cond (bump 3 (-1) features)))
  | .concat left right, features =>
    remConstraintBOW right (remConstraintBOW left (bump 4 (-1) features))
  | .extract expr _ _, features => remConstraintBOW expr (bump 5 (-1) features)
  | .cast .ZExt src _, features => remConstraintBOW src (bump 6 (-1) features)
  | .cast .SExt src _, features => remConstraintBOW src (bump 7 (-1) features)
  | .not expr, features => remConstraintBOW expr (bump 8 (-1) features)
  | .binary .Add left right, features =>
    remConstraintBOW right (remConstraintBOW left (bump 9 (-1) features))
  | .binary .Sub left right, features =>
    remConstraintBOW right (remConstraintBOW left (bump 10 (-1) features))
  | .binary .Mul left right, features =>
    remConstraintBOW right (remConstraintBOW left (bump 11 (-1) features))
  | .binary .UDiv left right, features =>
    remConstraintBOW right (remConstraintBOW left (bump 12 (-1) features))
  | .binary .SDiv left right, features =>
    remConstraintBOW right (remConstraintBOW left (bump 13 (-1) features))
  | .binary .URem left right, features =>
    remConstraintBOW right (remConstraintBOW left (bump 14 (-1) features))
  | .binary .SRem left right, features =>
    remConstraintBOW right (remConstraintBOW left (bump 15 (-1) features))
  | .binary .And left right, features =>
    remConstraintBOW right (remConstraintBOW left (bump 16 (-1) features))
  | .binary .Or left right, features =>
    remConstraintBOW right (remConstraintBOW left (bump 17 (-1) features))
  | .binary .Xor left right, features =>
    remConstraintBOW right (remConstraintBOW left (bump 18 (-1) features))
  | .binary .Shl left right, features =>
    remConstraintBOW right (remConstraintBOW left (bump 19 (-1) features))
  | .binary .LShr left right, features =>
    remConstraintBOW right (remConstraintBOW left (bump 20 (-1) features))
  | .binary .AShr left right, features =>
    remConstraintBOW right (remConstraintBOW left (bump 21 (-1) features))
  | .binary .Eq left right, features =>
    remConstraintBOW right (remConstraintBOW left (bump 22 (-1) features))
  | .binary .Ne left right, features =>
    remConstraintBOW right (remConstraintBOW left (bump 23 (-1) features))
  | .binary .Ult left right, features =>
    remConstraintBOW right (remConstraintBOW left (bump 24 (-1) features))
  | .binary .Ule left right, features =>
    remConstraintBOW right (remConstraintBOW left (bump 25 (-1) features))
  | .binary .Ugt left right, features =>
    remConstraintBOW right (remConstraintBOW left (bump 26 (-1) features))
  | .binary .Uge left right, features =>
    remConstraintBOW right (remConstraintBOW left (bump 27 (-1) features))
  | .binary .Slt left right, features =>
    remConstraintBOW right (remConstraintBOW left (bump 28 (-1) features))
  | .binary .Sle left right, features =>
    remConstraintBOW right (remConstraintBOW left (bump 29 (-1) features))
  | .binary .Sgt left right, features =>
    remConstraintBOW right (remConstraintBOW left (bump 30 (-1) features))
  | .binary .Sge left right, features =>
    remConstraintBOW right (remConstraintBOW left (bump 31 (-1) features))

/-- All constraints since the beginning, and those of the current message. -/
@[ext] structure State where
  constraint_features : Features
  round_constraint_features : Features

namespace State

def addConstraintFeature (e : Expr) (s : State) : State :=
  ⟨addConstraintBOW e s.constraint_features, addConstraintBOW e s.round_constraint_features⟩

def remConstraintFeature (e : Expr) (s : State) : State :=
  ⟨remConstraintBOW e s.constraint_features, remConstraintBOW e s.round_constraint_features⟩

section

variable {F : Type} (float : ℤ → F)

/-- The round's features as `float` numbers. -/
def currBOW (s : State) : List F := List.ofFn fun j => float (s.round_constraint_features j)

def getRIPConstraintBOWs (inputExpr : Expr) : List Expr → State → List (List F) × State
  | [], s => ([], s)
  | destExpr :: destExprs, s =>
    let added := s.addConstraintFeature (EqExpr.create inputExpr destExpr)
    let (res, s) := getRIPConstraintBOWs inputExpr destExprs
      (added.remConstraintFeature (EqExpr.create inputExpr destExpr))
    (added.currBOW float :: res, s)

end

end State

inductive Call
  | addConstraintFeature (e : Expr)
  | remConstraintFeature (e : Expr)

def Call.apply : Call → State → State
  | .addConstraintFeature e, s => s.addConstraintFeature e
  | .remConstraintFeature e, s => s.remConstraintFeature e

def run (calls : List Call) (s : State) : State := calls.foldl (fun s c => c.apply s) s

/-! ### The histogram -/

/-- The place of each kind among the features. -/
def slot : Expr → Fin 32
  | .constant _ => 0
  | .notOptimized _ => 1
  | .read _ _ => 2
  | .select _ _ _ => 3
  | .concat _ _ => 4
  | .extract _ _ _ => 5
  | .cast .ZExt _ _ => 6
  | .cast .SExt _ _ => 7
  | .not _ => 8
  | .binary .Add _ _ => 9
  | .binary .Sub _ _ => 10
  | .binary .Mul _ _ => 11
  | .binary .UDiv _ _ => 12
  | .binary .SDiv _ _ => 13
  | .binary .URem _ _ => 14
  | .binary .SRem _ _ => 15
  | .binary .And _ _ => 16
  | .binary .Or _ _ => 17
  | .binary .Xor _ _ => 18
  | .binary .Shl _ _ => 19
  | .binary .LShr _ _ => 20
  | .binary .AShr _ _ => 21
  | .binary .Eq _ _ => 22
  | .binary .Ne _ _ => 23
  | .binary .Ult _ _ => 24
  | .binary .Ule _ _ => 25
  | .binary .Ugt _ _ => 26
  | .binary .Uge _ _ => 27
  | .binary .Slt _ _ => 28
  | .binary .Sle _ _ => 29
  | .binary .Sgt _ _ => 30
  | .binary .Sge _ _ => 31

/-- The expression and what is below it, without the update lists. -/
def nodes : Expr → List Expr
  | .constant c => [.constant c]
  | .notOptimized s => .notOptimized s :: nodes s
  | .read u i => .read u i :: nodes i
  | .select c t f => .select c t f :: (nodes c ++ nodes t ++ nodes f)
  | .concat l r => .concat l r :: (nodes l ++ nodes r)
  | .extract e off w => .extract e off w :: nodes e
  | .not e => .not e :: nodes e
  | .cast k e w => .cast k e w :: nodes e
  | .binary k l r => .binary k l r :: (nodes l ++ nodes r)

/-- The number of nodes of each kind. -/
def histogram (e : Expr) : Features := fun i => (nodes e).countP fun n => slot n = i

theorem nodes_eq (e : Expr) : nodes e = e :: e.kids.flatMap nodes := by
  cases e <;> simp [nodes, Expr.kids]

/-- A node counts itself and what its kids count. -/
theorem histogram_eq (e : Expr) :
    histogram e = Pi.single (slot e) 1 + (e.kids.map histogram).sum := by
  have hkids : ∀ (ks : List Expr) (i : Fin 32), (ks.map histogram).sum i =
      ((ks.flatMap nodes).countP fun n => slot n = i : ℕ) := by
    intro ks i
    induction ks with
    | nil => rfl
    | cons k ks ih =>
      rw [List.map_cons, List.sum_cons, Pi.add_apply, ih, List.flatMap_cons, List.countP_append,
        Nat.cast_add]
      rfl
  funext i
  rw [Pi.add_apply, hkids, histogram, nodes_eq, List.countP_cons, Nat.cast_add, Int.add_comm]
  congr 1
  by_cases hi : slot e = i
  · subst hi
    simp
  · simp [hi]

theorem bump_eq (i : Fin 32) (d : ℤ) (features : Features) :
    bump i d features = features + d • Pi.single i 1 := by
  funext j
  by_cases hj : j = i
  · subst hj
    simp [bump]
  · simp [bump, hj]

/-! ### The recursions -/

/-- A recursion that counts a node and then its kids adds its multiple of the histogram. -/
theorem features_of_kids {walk : Expr → Features → Features} {d : ℤ}
    (hwalk : ∀ e features, walk e features =
      e.kids.foldl (fun features k => walk k features) (bump (slot e) d features)) (e : Expr) :
    ∀ features, walk e features = features + d • histogram e := by
  have hstep : ∀ e : Expr, (∀ k ∈ e.kids, ∀ features, walk k features =
      features + d • histogram k) → ∀ features, walk e features = features + d • histogram e := by
    intro e ih features
    have hfold : ∀ ks : List Expr, (∀ k ∈ ks, k ∈ e.kids) → ∀ features : Features,
        ks.foldl (fun features k => walk k features) features =
          features + d • (ks.map histogram).sum := by
      intro ks hks
      induction ks with
      | nil =>
        intro features
        rw [List.foldl_nil, List.map_nil, List.sum_nil, zsmul_zero, add_zero]
      | cons k ks ihks =>
        intro features
        rw [List.foldl_cons, ih k (hks k List.mem_cons_self),
          ihks fun k' hk' => hks k' (List.mem_cons_of_mem k hk'), List.map_cons, List.sum_cons,
          zsmul_add, add_assoc]
    rw [hwalk, hfold e.kids fun k hk => hk, bump_eq, histogram_eq, zsmul_add, add_assoc]
  refine (Expr.kids_induction (P := fun e => ∀ features, walk e features =
    features + d • histogram e) (Q := fun _ => True) ?_ ?_ ?_ ?_).1 e
  · intro u i _ hi
    exact hstep _ fun k hk => List.mem_singleton.1 hk ▸ hi
  · exact fun e _ ih => hstep e ih
  · exact fun _ => trivial
  · exact fun _ _ _ _ _ _ => trivial

theorem addConstraintBOW_eq (e : Expr) (features : Features) :
    addConstraintBOW e features = features + histogram e := by
  have hkids : ∀ e features, addConstraintBOW e features = e.kids.foldl
      (fun features k => addConstraintBOW k features) (bump (slot e) 1 features) := by
    intro e features
    cases e with
    | cast k => cases k <;> rfl
    | binary k => cases k <;> rfl
    | _ => rfl
  rw [features_of_kids hkids, one_zsmul]

theorem remConstraintBOW_eq (e : Expr) (features : Features) :
    remConstraintBOW e features = features - histogram e := by
  have hkids : ∀ e features, remConstraintBOW e features = e.kids.foldl
      (fun features k => remConstraintBOW k features) (bump (slot e) (-1) features) := by
    intro e features
    cases e with
    | cast k => cases k <;> rfl
    | binary k => cases k <;> rfl
    | _ => rfl
  rw [features_of_kids hkids, neg_zsmul, one_zsmul, sub_eq_add_neg]

namespace State

/-- What was added can be taken out again. -/
theorem remConstraintFeature_addConstraintFeature (e : Expr) (s : State) :
    (s.addConstraintFeature e).remConstraintFeature e = s := by
  ext1 <;> simp only [remConstraintFeature, addConstraintFeature, addConstraintBOW_eq,
    remConstraintBOW_eq, add_sub_cancel_right]

variable {F : Type} (float : ℤ → F)

/-- The round's features with those of one more constraint. -/
def withConstraint (s : State) (e : Expr) : List F :=
  List.ofFn fun j => float (s.round_constraint_features j + histogram e j)

theorem currBOW_addConstraintFeature (e : Expr) (s : State) :
    (s.addConstraintFeature e).currBOW float = s.withConstraint float e := by
  unfold currBOW addConstraintFeature
  simp only [addConstraintBOW_eq]
  rfl

theorem getRIPConstraintBOWs_eq (inputExpr : Expr) (destExprs : List Expr) (s : State) :
    getRIPConstraintBOWs float inputExpr destExprs s =
      (destExprs.map fun dest => s.withConstraint float (EqExpr.create inputExpr dest), s) := by
  induction destExprs with
  | nil => rfl
  | cons dest dests ih =>
    rw [getRIPConstraintBOWs, remConstraintFeature_addConstraintFeature, ih]
    simp only [currBOW_addConstraintFeature, List.map_cons]

end State

/-! ### Runs -/

/-- The expressions added in a run. -/
def added (calls : List Call) : List Expr :=
  calls.filterMap fun
    | .addConstraintFeature e => some e
    | .remConstraintFeature _ => none

/-- The expressions taken out in a run. -/
def removed (calls : List Call) : List Expr :=
  calls.filterMap fun
    | .addConstraintFeature _ => none
    | .remConstraintFeature e => some e

/-- The histogram of all that was added less that of all that was taken out. -/
def balance (calls : List Call) : Features :=
  ((added calls).map histogram).sum - ((removed calls).map histogram).sum

theorem run_eq (calls : List Call) (s : State) :
    run calls s = ⟨s.constraint_features + balance calls,
      s.round_constraint_features + balance calls⟩ := by
  induction calls generalizing s with
  | nil => ext1 <;> simp [run, balance, added, removed]
  | cons c calls ih =>
    rw [show run (c :: calls) s = run calls (c.apply s) from rfl, ih]
    cases c with
    | addConstraintFeature e =>
      have hb : balance (.addConstraintFeature e :: calls) = histogram e + balance calls := by
        simp only [balance, added, removed, List.filterMap_cons, List.map_cons, List.sum_cons]
        abel
      simp only [Call.apply, State.addConstraintFeature, addConstraintBOW_eq, hb, add_assoc]
    | remConstraintFeature e =>
      have hb : balance (.remConstraintFeature e :: calls) = -histogram e + balance calls := by
        simp only [balance, added, removed, List.filterMap_cons, List.map_cons, List.sum_cons]
        abel
      simp only [Call.apply, State.remConstraintFeature, remConstraintBOW_eq, hb, sub_eq_add_neg,
        add_assoc]

/-- After any calls both vectors hold their start values and the balance of the histograms, and
the features of the destinations are those of the round with one more constraint each. -/
theorem features_exact {F : Type} (float : ℤ → F) (calls : List Call) (s : State)
    (inputExpr : Expr) (destExprs : List Expr) :
    run calls s = ⟨s.constraint_features + balance calls,
        s.round_constraint_features + balance calls⟩ ∧
      (run calls s).getRIPConstraintBOWs float inputExpr destExprs =
        (destExprs.map fun dest =>
          (run calls s).withConstraint float (EqExpr.create inputExpr dest), run calls s) :=
  ⟨run_eq calls s, State.getRIPConstraintBOWs_eq float inputExpr destExprs (run calls s)⟩

end ConstraintBOW

end TaseVerifier
