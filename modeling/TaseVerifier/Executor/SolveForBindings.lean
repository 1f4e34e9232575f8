import TaseVerifier.Solver.Copies
import TaseVerifier.Solver.Query

/-! Values for the symbolic variables of a write condition. `solveForBindings` takes one
assignment from the solver and means to keep it only if it is forced: a second query asks
whether some byte can be different. -/

namespace TaseVerifier

open ConstraintManager

/-! ### The names a caller passes -/

namespace ConstraintManager

variable {U : Type}

/-- The state without what its stores hold. -/
def forget (s : ConstraintState U) : ConstraintState Unit := s.map (fun _ => ()) fun _ => ()

theorem constraints_forget (x : Except Abort (ConstraintState U)) :
    (x.map forget).map ConstraintState.constraints = x.map ConstraintState.constraints := by
  cases x <;> rfl

/-- Where nothing is stored the names do not matter. -/
theorem addConstraintInternal_forget (upd : List KleeArray → Expr → U → U) (n : ℕ) (e : Expr)
    (symNames : Option (List KleeArray)) (s : ConstraintState U) :
    (addConstraintInternal upd n e symNames false s).map forget =
      addConstraintInternal (fun _ _ u => u) n e none false (forget s) := by
  have hmap : addConstraintInternal (fun _ _ u => u) n e symNames false (forget s) =
      (addConstraintInternal upd n e symNames false s).map forget :=
    addConstraintInternal_map (U := U) (V := Unit) (fun _ _ _ => rfl) (fun _ _ _ => rfl) n e
      symNames false s
  rw [← hmap]
  cases n with
  | zero => rfl
  | succ n => rfl

/-- The vector after a call depends neither on the names passed nor on the store. -/
theorem addConstraintNamed_constraints (upd : List KleeArray → Expr → U → U) (e : Expr)
    (symNames : Option (List KleeArray)) (s : ConstraintState U) :
    (addConstraintNamed upd e symNames s).map ConstraintState.constraints =
      (addConstraint logUpdate e (logged s)).map ConstraintState.constraints := by
  have hnamed := addConstraintInternal_forget upd (depth e s) e symNames s
  have hlogged := addConstraintInternal_forget logUpdate (depth e s) e none (logged s)
  have hsame : (addConstraintNamed upd e symNames s).map forget =
      (addConstraint logUpdate e (logged s)).map forget := hnamed.trans hlogged.symm
  rw [← constraints_forget, hsame, constraints_forget]

/-- What is added to the vector is the meaning of the constraint. -/
theorem addConstraintNamed_meaning {upd : List KleeArray → Expr → U → U} {e : Expr}
    {symNames : Option (List KleeArray)} {s s' : ConstraintState U} (hs : BoolAll s.constraints)
    (he : e.isBool = true) (h : addConstraintNamed upd e symNames s = .ok s') :
    BoolAll s'.constraints ∧
      ∀ σ, Satisfies σ s'.constraints ↔ Satisfies σ s.constraints ∧ Holds σ e := by
  have hspec := addConstraint_spec 0 (s := logged s) hs he
  have hvector := addConstraintNamed_constraints upd e symNames s
  rw [h] at hvector
  cases ht : addConstraint logUpdate e (logged s) with
  | error a =>
    rw [ht] at hvector
    cases hvector
  | ok t =>
    rw [ht] at hvector hspec
    have hvector : s'.constraints = t.constraints := Except.ok.inj hvector
    have hgrown : Grown _ _ _ _ _ (logged s) t := hspec
    rw [hvector]
    exact ⟨hgrown.bool, fun σ => hgrown.meaning σ trivial⟩

end ConstraintManager

/-! ### The solver's front -/

namespace SolverImpl

variable {S : Type} (impl : SolverImpl S)

def mustBeTrue (q : Query) : StateM S (Option Bool) :=
  match q.expr with
  | .constant c => pure (some c.isTrue)
  | _ => impl.computeTruth q

def mustBeFalse (q : Query) : StateM S (Option Bool) := mustBeTrue impl q.negateExpr

def mayBeTrue (q : Query) : StateM S (Option Bool) := do
  return (← mustBeFalse impl q).map not

/-- A call that fails and a query without solution give no values. -/
def getInitialValues (q : Query) (objects : List KleeArray) :
    StateM S (Option (List (List (BitVec 8)))) := do
  return (← impl.computeInitialValues q objects).join

/-- A query about a constant does not reach the solver: under any constraints the false
expression must be false. -/
theorem mayBeTrue_false (cs : List Expr) (st : S) :
    (mayBeTrue impl ⟨cs, Expr.alloc 0 1⟩ st).1 = some false := rfl

end SolverImpl

namespace CVAssignment

/-! ### The code -/

/-- The symbolic arrays of the condition, and from round three on those of the round whose names
are not among theirs. -/
def listedArrays (round_count : ℕ) (round_symbolics : List KleeArray) (expr : Expr) :
    List KleeArray :=
  let arrays := findSymbolicObjects expr
  let symObjNames := arrays.map KleeArray.name
  if 3 ≤ round_count then
    arrays ++ round_symbolics.filter fun a => !symObjNames.contains a.name
  else arrays

def neqExpr (a : KleeArray) (j : ℕ) (v : BitVec 8) : Expr :=
  NotExpr.create (EqExpr.create (ReadExpr.create (.root a) (.alloc j 32)) (.constant ⟨8, v⟩))

/-- Some byte is not the one that was found. -/
def valueDisjunction (arrays : List KleeArray) (initial_values : List (List (BitVec 8))) : Expr :=
  (arrays.zip initial_values).foldl (fun d p =>
    p.2.zipIdx.foldl (fun d v => OrExpr.create d (neqExpr p.1 v.2 v.1)) d) (.alloc 0 1)

/-- How a call ends: without values and with "INVALID solver concretization!" the process exits,
else the values are bound to the arrays. -/
inductive Ending where
  | failed
  | invalid
  | bound (initial_values : List (List (BitVec 8)))
  deriving DecidableEq

variable {U S : Type}

def solveForBindings (updateUFStructures : List KleeArray → Expr → U → U) (solver : SolverImpl S)
    (round_count : ℕ) (round_symbolics : List KleeArray) (expr : Expr) (s : ConstraintState U)
    (st : S) : Except Abort Ending := do
  let arrays := listedArrays round_count round_symbolics expr
  let cm ← addConstraintNamed updateUFStructures expr (some arrays) (copy s)
  let found := solver.getInitialValues ⟨cm.constraints, .alloc 0 1⟩ arrays st
  match found.1 with
  | none => return .failed
  | some initial_values =>
    let value_disjunction := valueDisjunction arrays initial_values
    if value_disjunction.isFalse then return .bound initial_values
    else
      let cm ← addConstraintNamed updateUFStructures value_disjunction (some arrays) cm
      match (solver.mayBeTrue ⟨cm.constraints, .alloc 0 1⟩ found.2).1 with
      | some true => return .invalid
      | _ => return .bound initial_values

/-! ### What it should do -/

/-- The bytes of the arrays. -/
def valuesOf (arrays : List KleeArray) (σ : Assignment) : List (List (BitVec 8)) :=
  arrays.map fun a => (List.range a.size).map (σ a)

/-- The assignment satisfies the constraints of the state and the condition. -/
def Solves (s : ConstraintState U) (expr : Expr) (σ : Assignment) : Prop :=
  Satisfies σ s.constraints ∧ Holds σ expr

/-- Only the one possible assignment of the arrays is bound, and where there are several the call
ends as invalid. -/
def Concretizes (arrays : List KleeArray) (expr : Expr) (s : ConstraintState U)
    (result : Except Abort Ending) : Prop :=
  (∀ values, result = .ok (.bound values) →
    (∃ σ, Solves s expr σ ∧ valuesOf arrays σ = values) ∧
      ∀ σ, Solves s expr σ → valuesOf arrays σ = values) ∧
  ((∃ σ τ, Solves s expr σ ∧ Solves s expr τ ∧ valuesOf arrays σ ≠ valuesOf arrays τ) →
    result = .ok .invalid)

section Call

variable {upd : List KleeArray → Expr → U → U} {solver : SolverImpl S} {round_count : ℕ}
  {round_symbolics : List KleeArray} {expr : Expr} {s : ConstraintState U} {st : S}

/-- The exit for an assignment that is not forced is never taken. -/
theorem solveForBindings_ne_invalid :
    solveForBindings upd solver round_count round_symbolics expr s st ≠ .ok .invalid := by
  intro h
  obtain ⟨cm, -, h⟩ := ExprReplaceVisitor.bind_eq_ok.mp h
  simp only at h
  split at h
  next => cases h
  next values hfound =>
    split_ifs at h
    · cases h
    · obtain ⟨cm', -, h⟩ := ExprReplaceVisitor.bind_eq_ok.mp h
      rw [SolverImpl.mayBeTrue_false] at h
      cases h

/-- What is bound was found for the condition. -/
theorem solveForBindings_bound (hsolves : solver.Solves) (hcons : BoolAll s.constraints)
    (hexpr : expr.isBool = true) {values : List (List (BitVec 8))}
    (h : solveForBindings upd solver round_count round_symbolics expr s st = .ok (.bound values)) :
    ∃ σ, Solves s expr σ ∧
      valuesOf (listedArrays round_count round_symbolics expr) σ = values := by
  obtain ⟨cm, hcm, h⟩ := ExprReplaceVisitor.bind_eq_ok.mp h
  obtain ⟨hbool, hmeaning⟩ := addConstraintNamed_meaning (s := copy s) hcons hexpr hcm
  simp only at h
  split at h
  next => cases h
  next found hfound =>
    have hvalues : found = values := by
      split_ifs at h
      · cases h
        rfl
      · obtain ⟨cm', -, h⟩ := ExprReplaceVisitor.bind_eq_ok.mp h
        rw [SolverImpl.mayBeTrue_false] at h
        cases h
        rfl
    obtain rfl := hvalues
    have hanswer := Option.join_eq_some_iff.mp hfound
    have hquery : (⟨cm.constraints, .alloc 0 1⟩ : Query).IsBool := ⟨hbool, rfl⟩
    obtain ⟨σ, ⟨hσ, -⟩, hσvalues⟩ := hsolves.solution _ _ _ _ hquery hanswer
    exact ⟨σ, (hmeaning σ).mp hσ, hσvalues.symm⟩

end Call

/-- The second query is about a constant and finds nothing, so values are bound whether or not
they are forced: the call concretizes soundly exactly where the constraints and the condition
leave the arrays no choice. -/
theorem solveForBindings_concretizes_iff (upd : List KleeArray → Expr → U → U)
    (solver : SolverImpl S) (hsolves : solver.Solves) (round_count : ℕ)
    (round_symbolics : List KleeArray) (expr : Expr) (s : ConstraintState U) (st : S)
    (hcons : BoolAll s.constraints) (hexpr : expr.isBool = true) :
    Concretizes (listedArrays round_count round_symbolics expr) expr s
        (solveForBindings upd solver round_count round_symbolics expr s st) ↔
      ∀ σ τ, Solves s expr σ → Solves s expr τ →
        valuesOf (listedArrays round_count round_symbolics expr) σ =
          valuesOf (listedArrays round_count round_symbolics expr) τ := by
  constructor
  · rintro ⟨-, hinvalid⟩ σ τ hσ hτ
    by_contra hne
    exact solveForBindings_ne_invalid (hinvalid ⟨σ, τ, hσ, hτ, hne⟩)
  · intro hforced
    refine ⟨fun values hbound => ?_, ?_⟩
    · obtain ⟨σ, hσ, rfl⟩ := solveForBindings_bound hsolves hcons hexpr hbound
      exact ⟨⟨σ, hσ, rfl⟩, fun τ hτ => hforced τ σ hτ hσ⟩
    · rintro ⟨σ, τ, hσ, hτ, hne⟩
      exact absurd (hforced σ τ hσ hτ) hne

/-- A byte that must be five. -/
theorem solveForBindings_concretizes_five :
    let x : KleeArray := ⟨"x", 1, 0, []⟩
    let isFive := Expr.binary .Eq (.alloc 5 8) (.read (.root x) (.alloc 0 32))
    Concretizes [x] isFive (⟨[], [], (), ()⟩ : ConstraintState Unit)
      (solveForBindings (fun _ _ u => u) idealImpl 0 [] isFive ⟨[], [], (), ()⟩ ()) := by
  intro x isFive
  have hlisted : listedArrays 0 [] isFive = [x] := rfl
  have hiff := solveForBindings_concretizes_iff (fun _ _ u => u) idealImpl idealImpl_solves 0 []
    isFive ⟨[], [], (), ()⟩ () (by simp [BoolAll]) (by decide)
  rw [hlisted] at hiff
  have hvalue : ∀ σ, Holds σ isFive → σ x 0 = 5 := by
    intro σ hσ
    have heq : (⟨8, 5⟩ : APInt) = ⟨8, σ x 0⟩ := (holds_eq (by decide)).mp hσ
    exact (eq_of_heq (APInt.mk.inj heq).2).symm
  refine hiff.mpr fun σ τ hσ hτ => ?_
  simp [valuesOf, x, hvalue σ hσ.2, hvalue τ hτ.2]

/-- A byte below seven is bound to some value below seven. -/
theorem solveForBindings_keeps_choice :
    let x : KleeArray := ⟨"x", 1, 0, []⟩
    let below := Expr.binary .Ult (.read (.root x) (.alloc 0 32)) (.alloc 7 8)
    let s : ConstraintState Unit := ⟨[], [], (), ()⟩
    (∃ values, solveForBindings (fun _ _ u => u) idealImpl 0 [] below s () = .ok (.bound values)) ∧
      ¬ Concretizes (listedArrays 0 [] below) below s
        (solveForBindings (fun _ _ u => u) idealImpl 0 [] below s ()) := by
  intro x below s
  have hlisted : listedArrays 0 [] below = [x] := rfl
  have hzero : Solves s below fun _ _ => 0 := ⟨by simp [Satisfies, s], rfl⟩
  have hone : Solves s below fun _ _ => 1 := ⟨by simp [Satisfies, s], rfl⟩
  refine ⟨?_, fun h => ?_⟩
  · have hadd : addConstraintNamed (fun _ _ u => u) below (some [x]) (copy s) =
        .ok ⟨[below], [], (), ()⟩ := rfl
    have hno : ∀ v : BitVec 8, (valueDisjunction [x] [[v]]).isFalse = false := by
      decide
    have hmore : ∀ v : BitVec 8,
        (addConstraintNamed (fun _ _ u => u) (valueDisjunction [x] [[v]]) (some [x])
          ⟨[below], [], (), ()⟩).isOk = true := by decide
    have hrefutes : ∃ σ, (⟨[below], .alloc 0 1⟩ : Query).Refutes σ :=
      ⟨fun _ _ => 0, by decide, by decide⟩
    let v := hrefutes.choose x 0
    have hfound : idealImpl.getInitialValues ⟨[below], .alloc 0 1⟩ [x] () = (some [[v]], ()) := by
      simp [SolverImpl.getInitialValues, idealImpl, dif_pos hrefutes, v, x, List.range_succ]
      rfl
    have hmore := hmore v
    cases hcm : addConstraintNamed (fun _ _ u => u) (valueDisjunction [x] [[v]]) (some [x])
        ⟨[below], [], (), ()⟩ with
    | error a =>
      rw [hcm] at hmore
      cases hmore
    | ok cm =>
      refine ⟨[[v]], ?_⟩
      simp only [solveForBindings, hlisted, s, hadd, hfound, hno, hcm, bind, Except.bind,
        SolverImpl.mayBeTrue_false]
      rfl
  · refine solveForBindings_ne_invalid (h.2 ⟨_, _, hzero, hone, ?_⟩)
    rw [hlisted]
    decide

end CVAssignment

end TaseVerifier
