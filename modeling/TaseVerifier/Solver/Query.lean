import TaseVerifier.Expr.CreateSound
import TaseVerifier.Solver.Ideal

/-! The queries that the layers of the solver chain pass down, and the interface of a
layer. A layer may keep a state of its own from one call to the next, so that two calls
on one query need not give the same answer. -/

namespace TaseVerifier

/-- `klee::Query`: is the expression true under the constraints? -/
structure Query where
  constraints : List Expr
  expr : Expr
  deriving DecidableEq

namespace Query

def negateExpr (q : Query) : Query := { q with expr := q.expr.createIsZero }

/-- The expression holds wherever the constraints do. -/
def Valid (q : Query) : Prop := ∀ σ, Satisfies σ q.constraints → Holds σ q.expr

/-- The assignment meets the constraints and falsifies the expression. -/
def Refutes (σ : Assignment) (q : Query) : Prop :=
  Satisfies σ q.constraints ∧ ¬ Holds σ q.expr

/-- What callers guarantee of a query about validity: a boolean expression under
constraints that can be met. -/
structure Proper (q : Query) : Prop where
  isBool : q.expr.isBool = true
  satisfiable : Satisfiable q.constraints

theorem not_valid_iff (q : Query) : ¬ q.Valid ↔ ∃ σ, q.Refutes σ := by
  simp [Valid, Refutes]

end Query

theorem Query.Proper.negateExpr {q : Query} (h : q.Proper) : q.negateExpr.Proper :=
  ⟨Expr.isBool_createIsZero h.isBool, h.satisfiable⟩

/-- A layer of the solver chain with its state. `none` is a call that failed; initial
values are `some none` for a query without solution. -/
structure SolverImpl (S : Type) where
  computeValidity : Query → StateM S (Option Validity)
  computeTruth : Query → StateM S (Option Bool)
  computeValue : Query → StateM S (Option APInt)
  computeInitialValues : Query → List KleeArray → StateM S (Option (Option (List (List (BitVec 8)))))

/-- The answers about validity are the true ones, in every state of the layer. -/
structure SolverImpl.Truthful {S : Type} (impl : SolverImpl S) : Prop where
  computeValidity : ∀ q s v, q.Proper → (impl.computeValidity q s).1 = some v →
    v = validity q.constraints q.expr
  computeTruth : ∀ q s b, q.Proper → (impl.computeTruth q s).1 = some b → (b = true ↔ q.Valid)

/-- No call about validity fails. -/
structure SolverImpl.Decides {S : Type} (impl : SolverImpl S) : Prop where
  computeValidity : ∀ q s, q.Proper → (impl.computeValidity q s).1.isSome = true
  computeTruth : ∀ q s, q.Proper → (impl.computeTruth q s).1.isSome = true

/-- Boolean constraints and a boolean expression. -/
structure Query.IsBool (q : Query) : Prop where
  constraints : ∀ c ∈ q.constraints, c.isBool = true
  expr : q.expr.isBool = true

/-- The initial values are those of a counterexample, and there is none if it says so. -/
structure SolverImpl.Solves {S : Type} (impl : SolverImpl S) : Prop where
  solution : ∀ q objects s values, q.IsBool →
    (impl.computeInitialValues q objects s).1 = some (some values) →
      ∃ σ, q.Refutes σ ∧ values = objects.map fun a => (List.range a.size).map (σ a)
  noSolution : ∀ q objects s, q.IsBool →
    (impl.computeInitialValues q objects s).1 = some none → q.Valid

/-- No call for initial values fails. -/
def SolverImpl.Responds {S : Type} (impl : SolverImpl S) : Prop :=
  ∀ q objects s, q.IsBool → (impl.computeInitialValues q objects s).1.isSome = true

open Classical in
/-- The layer that decides each query by its meaning. -/
noncomputable def idealImpl : SolverImpl Unit where
  computeValidity q := pure (some (validity q.constraints q.expr))
  computeTruth q := pure (some (decide q.Valid))
  computeValue q :=
    pure (if h : Satisfiable q.constraints then some (q.expr.eval h.choose) else none)
  computeInitialValues q objects :=
    pure (some (if h : ∃ σ, q.Refutes σ then
      some (objects.map fun a => (List.range a.size).map (h.choose a)) else none))

theorem idealImpl_truthful : idealImpl.Truthful where
  computeValidity _ _ _ _ hv := (Option.some.inj hv).symm
  computeTruth q _ b _ hb := by
    obtain rfl := Option.some.inj hb
    simp

theorem idealImpl_decides : idealImpl.Decides where
  computeValidity _ _ _ := rfl
  computeTruth _ _ _ := rfl

theorem idealImpl_solves : idealImpl.Solves where
  solution q objects _ values _ h := by
    have h := Option.some.inj h
    split at h
    next hσ => exact ⟨hσ.choose, hσ.choose_spec, (Option.some.inj h).symm⟩
    next => cases h
  noSolution q objects _ _ h := by
    have h := Option.some.inj h
    split at h
    next => cases h
    next hσ => exact not_not.mp fun hv => hσ ((q.not_valid_iff).mp hv)

theorem idealImpl_responds : idealImpl.Responds := fun _ _ _ _ => rfl

end TaseVerifier
