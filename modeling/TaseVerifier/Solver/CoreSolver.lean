import TaseVerifier.Solver.BuilderSound
import TaseVerifier.Solver.CexCachingSpec
import TaseVerifier.Solver.InitialArray

/-! The bottom of the solver chain: `Z3SolverImpl` and `STPSolverImpl`. The constraints and
the negated expression are asserted as terms, and the bytes of the objects are read from the
model that the external solver finds. The external solver is a parameter. It knows the arrays
by the variables that `getInitialArray` makes for them. -/

namespace TaseVerifier

/-- The bytes that a model of the external solver gives to the variables, told apart by name
and sort. -/
abbrev VariableModel := List Char × ℕ × ℕ → BitVec 32 → BitVec 8

/-- A formula over the models of the variables; `none` is not a formula. -/
abbrev Assertion := VariableModel → Option Bool

/-- The outcome of `Z3_solver_check` or `vc_query`. -/
inductive SolverRun where
  | solvable (V : VariableModel)
  | unsolvable
  /-- A timeout, a signal or another failure. -/
  | failure

structure CoreSolver where
  builder : Builder
  /-- STP runs in a forked process. -/
  useForkedSTP : Bool
  /-- The arrays in the order in which the terms of the session first need them. -/
  requests : List KleeArray
  run : List Assertion → SolverRun

/-- What is documented of the external solvers. -/
structure CoreSolver.Correct (c : CoreSolver) : Prop where
  solvable : ∀ ts V, c.run ts = .solvable V → ∀ t ∈ ts, t V = some true
  unsolvable : ∀ ts, c.run ts = .unsolvable → ¬ ∃ V, ∀ t ∈ ts, t V = some true

/-- The two builders keep their own tables of arrays. -/
def Builder.arrayBuilder : Builder → SolverBuilder
  | .Z3 => .Z3
  | .STP _ => .STP

/-- The arrays of expressions have 32-bit indices and hold bytes. -/
def KleeArray.toSolverArray (a : KleeArray) : SolverArray :=
  { a with domain := Width.Int32, range := Width.Int8 }

namespace CoreSolver

open ExprHandle

def shared_memory_size : ℕ := 2 ^ 20

variable (c : CoreSolver)

def isForked : Bool := decide (c.builder ≠ .Z3) && c.useForkedSTP

/-- A failure is noticed, and not taken for an answer. -/
def noticesFailure : Bool := decide (c.builder = .Z3) || c.useForkedSTP

/-- `_arr_hash`, once the terms of the session are built. -/
def arrayHash : ArrayHash :=
  InitialArray.run c.builder.arrayBuilder (c.requests.map KleeArray.toSolverArray)

/-- The variable under an array's term. -/
def arrayVariable (a : KleeArray) : List Char × ℕ × ℕ :=
  (c.builder.arrayBuilder.getInitialArray c.arrayHash a.toSolverArray).2.root

/-- The bytes that a model of the variables gives to the arrays. -/
def arrayModel (V : VariableModel) : ArrayModel := fun a => V (c.arrayVariable a)

def assertion (e : Expr) : Assertion := fun V => do
  (← c.builder.construct (c.arrayModel V) e).1.getBool

def negatedAssertion (e : Expr) : Assertion := fun V => do
  return !(← (← c.builder.construct (c.arrayModel V) e).1.getBool)

/-- The solvers look for a model of the constraints and the negated expression. -/
def assertions (q : Query) : List Assertion :=
  q.constraints.map c.assertion ++ [c.negatedAssertion q.expr]

def getInitialRead (M : ArrayModel) (root : KleeArray) (index : ℕ) : Option ExprHandle := do
  readExpr (← Builder.getInitialArray M root) (← const (APInt.ofNat 32 index))

def getBVUnsigned (h : ExprHandle) : Option (BitVec 8) := do return (← h.getBV).val.setWidth 8

def readObject (M : ArrayModel) (array : KleeArray) : Option (List (BitVec 8)) :=
  (List.range array.size).mapM fun offset => do getBVUnsigned (← getInitialRead M array offset)

/-- `handleSolverResponse` and `runAndGetCex`. Without a forked process, `hasSolution` is
`!vc_query(vc, q)`, which is false after a failure too. -/
def handleSolverResponse (objects : List KleeArray) :
    SolverRun → Option (Option (List (List (BitVec 8))))
  | .solvable V => do return some (← objects.mapM (readObject (c.arrayModel V)))
  | .unsolvable => some none
  | .failure => if c.noticesFailure then none else some none

/-- `none` is a call that failed, or was stopped for want of shared memory. -/
def computeInitialValues (q : Query) (objects : List KleeArray) :
    Option (Option (List (List (BitVec 8)))) :=
  if c.isForked ∧ shared_memory_size ≤ (objects.map KleeArray.size).sum then none
  else c.handleSolverResponse objects (c.run (c.assertions q))

def computeTruth (q : Query) : Option Bool := do
  return (← c.computeInitialValues q []).isNone

/-- The expression under the values of its objects; `none` also for constraints without a
solution, which are not expected. -/
def computeValue (q : Query) : Option (Except Abort Expr) := do
  let objects := findSymbolicObjects q.expr
  let values ← (← c.computeInitialValues { q with expr := .alloc 0 1 } objects)
  return ExprEvaluator.visit (.ofValues objects values) q.expr

end CoreSolver

/-! ### The assertions say what the query says -/

/-- The builder's assertions hold of the expression, and what it relies on besides. -/
structure Expr.Buildable (b : Builder) (e : Expr) : Prop where
  asserted : e.asserted = true
  representable : e.representable b = true

/-- Boolean expressions that the builder can build. -/
structure Query.Buildable (b : Builder) (q : Query) : Prop where
  constraints : ∀ e ∈ q.constraints, e.isBool = true ∧ e.Buildable b
  expr : q.expr.isBool = true ∧ q.expr.Buildable b

/-- Where the expressions before it hold, an expression makes no read beyond an array. -/
def Guarded : (Assignment → Prop) → List Expr → Prop
  | _, [] => True
  | H, e :: es => (∀ σ, H σ → e.inBounds σ = true) ∧ Guarded (fun σ => H σ ∧ Holds σ e) es

theorem Guarded.mono {H H' : Assignment → Prop} {es : List Expr} (hg : Guarded H es)
    (h : ∀ σ, H' σ → H σ) : Guarded H' es := by
  induction es generalizing H H' with
  | nil => trivial
  | cons e es ih => exact ⟨fun σ hσ => hg.1 σ (h σ hσ), ih hg.2 fun σ hσ => ⟨h σ hσ.1, hσ.2⟩⟩

/-- The constraints guard the reads of those after them and of the expression. -/
def Query.Guarded (q : Query) : Prop :=
  TaseVerifier.Guarded (fun _ => True) (q.constraints ++ [q.expr])

namespace CoreSolver

open ExprHandle Builder

variable {c : CoreSolver} {q : Query} {V : VariableModel} {σ : Assignment} {e : Expr}

/-- An assertion says of the arrays what the expression does. -/
theorem assertion_of_models {M : ArrayModel} (hM : Models M σ)
    (he : e.isBool = true ∧ e.Buildable c.builder) (hz : ZeroBeyond M ∨ e.inBounds σ = true)
    (hV : ∀ a ∈ e.initialArrays, c.arrayModel V a = M a) :
    c.assertion e V = some (e.eval σ).isTrue := by
  obtain ⟨ht, hw⟩ := isBool_iff.mp he.1
  obtain ⟨hwidth, hterm⟩ := construct_denotes hM e ht he.2.asserted he.2.representable hz
  have hval : ofValue (e.eval σ) = .bool (e.eval σ).isTrue := if_pos (hwidth.trans hw)
  rw [assertion, construct_congr e hV, hterm, hval]
  rfl

theorem negatedAssertion_eq (V : VariableModel) (e : Expr) :
    c.negatedAssertion e V = (c.assertion e V).map (!·) := by
  simp only [negatedAssertion, assertion]
  cases c.builder.construct (c.arrayModel V) e with
  | none => rfl
  | some t =>
    cases h : t.1.getBool <;> simp [h]

/-- The assignment of the bytes that the model gives to the arrays. -/
def assignmentOf (M : ArrayModel) : Assignment := fun a i => M a (BitVec.ofNat 32 i)

theorem models_assignmentOf (M : ArrayModel) : Models M (assignmentOf M) := by
  intro a _ i _
  rw [assignmentOf, BitVec.ofNat_toNat, BitVec.setWidth_eq]

theorem assertion_eq (he : e.isBool = true ∧ e.Buildable c.builder)
    (hz : e.inBounds (assignmentOf (c.arrayModel V)) = true) :
    c.assertion e V = some (e.eval (assignmentOf (c.arrayModel V))).isTrue :=
  assertion_of_models (models_assignmentOf _) he (.inr hz) fun _ _ => rfl

/-- The model with the bytes of the assignment, and zero beyond the arrays. -/
def modelOf (σ : Assignment) : ArrayModel := fun a i => if i.toNat < a.size then σ a i.toNat else 0#8

theorem models_modelOf (σ : Assignment) : Models (modelOf σ) σ := fun _ _ _ hi => if_pos hi

theorem zeroBeyond_modelOf (σ : Assignment) : ZeroBeyond (modelOf σ) :=
  fun _ _ hi => if_neg (Nat.not_lt.mpr hi)

/-- The query's arrays are among those of the session. -/
def Requests (c : CoreSolver) (q : Query) : Prop :=
  ∀ e ∈ q.constraints ++ [q.expr], ∀ a ∈ e.initialArrays, a ∈ c.requests

/-- The bytes of the assignment, under the variables of the session's arrays. -/
def variableModelOf (c : CoreSolver) (σ : Assignment) : VariableModel := fun v =>
  match c.requests.find? fun a => c.arrayVariable a == v with
  | some a => modelOf σ a
  | none => fun _ => 0#8

theorem toSolverArray_injective : Function.Injective KleeArray.toSolverArray :=
  fun _ _ h => congrArg SolverArray.toKleeArray h

/-- Where arrays have variables of their own, each gets its bytes. -/
theorem arrayModel_variableModelOf (hd : InitialArray.Distinct c.arrayHash) {a : KleeArray}
    (ha : a ∈ c.requests) : c.arrayModel (c.variableModelOf σ) a = modelOf σ a := by
  have hfound : (c.requests.find? fun a' => c.arrayVariable a' == c.arrayVariable a).isSome := by
    rw [List.find?_isSome]
    exact ⟨a, ha, beq_self_eq_true _⟩
  obtain ⟨a', ha'⟩ := Option.isSome_iff_exists.mp hfound
  have heq : c.arrayVariable a' = c.arrayVariable a := by
    simpa using List.find?_some ha'
  have hmem := List.mem_of_find?_eq_some ha'
  have haa : a'.toSolverArray = a.toSolverArray :=
    hd.eq_of_root_eq (List.mem_map_of_mem hmem) (List.mem_map_of_mem ha) heq
  rw [arrayModel, variableModelOf, ha', toSolverArray_injective haa]

/-- What is asserted of a model holds of its assignment. The expressions are taken in their
order: those before an expression keep its reads inside the arrays. -/
theorem satisfies_of_assertions {H : Assignment → Prop} {es ds : List Expr}
    (hg : Guarded H (es ++ ds)) (hH : H (assignmentOf (c.arrayModel V)))
    (hb : ∀ e ∈ es, e.isBool = true ∧ e.Buildable c.builder)
    (ha : ∀ e ∈ es, c.assertion e V = some true) :
    Satisfies (assignmentOf (c.arrayModel V)) es ∧
      Guarded (fun σ => H σ ∧ Satisfies σ es) ds := by
  induction es generalizing H with
  | nil => exact ⟨by simp, by simpa using hg⟩
  | cons e es ih =>
    obtain ⟨hin, hg⟩ := hg
    have hassert := ha e (by simp)
    rw [assertion_eq (hb e (by simp)) (hin _ hH)] at hassert
    have hholds : Holds (assignmentOf (c.arrayModel V)) e := Option.some.inj hassert
    obtain ⟨hes, hds⟩ := ih hg ⟨hH, hholds⟩ (fun d hd => hb d (List.mem_cons_of_mem _ hd))
      fun d hd => ha d (List.mem_cons_of_mem _ hd)
    refine ⟨fun d hd => ?_, ?_⟩
    · obtain rfl | hd := List.mem_cons.mp hd
      · exact hholds
      · exact hes d hd
    · refine hds.mono fun τ hτ => ⟨⟨hτ.1, hτ.2 e (by simp)⟩, fun d hd => ?_⟩
      exact hτ.2 d (List.mem_cons_of_mem _ hd)

/-- A model of the assertions refutes the query. -/
theorem refutes_of_assertions (hb : q.Buildable c.builder) (hg : q.Guarded)
    (ha : ∀ t ∈ c.assertions q, t V = some true) :
    q.Refutes (assignmentOf (c.arrayModel V)) := by
  have hcs : ∀ e ∈ q.constraints, c.assertion e V = some true := by
    intro e he
    exact ha _ (List.mem_append_left _ (List.mem_map_of_mem he))
  obtain ⟨hsat, hexpr, -⟩ := satisfies_of_assertions hg trivial hb.constraints hcs
  have hneg := ha (c.negatedAssertion q.expr) (List.mem_append_right _ (List.mem_singleton_self _))
  have hin := hexpr (assignmentOf (c.arrayModel V)) ⟨trivial, hsat⟩
  rw [negatedAssertion_eq, assertion_eq hb.expr hin] at hneg
  refine ⟨hsat, fun h => ?_⟩
  rw [Holds] at h
  rw [h] at hneg
  cases hneg

/-- An assignment that refutes the query gives a model of the assertions. -/
theorem assertions_of_refutes (hb : q.Buildable c.builder)
    (hd : InitialArray.Distinct c.arrayHash) (hr : c.Requests q) (hσ : q.Refutes σ) :
    ∀ t ∈ c.assertions q, t (c.variableModelOf σ) = some true := by
  have heval : ∀ e ∈ q.constraints ++ [q.expr], e.isBool = true ∧ e.Buildable c.builder →
      c.assertion e (c.variableModelOf σ) = some (e.eval σ).isTrue := by
    intro e he hbuild
    exact assertion_of_models (models_modelOf σ) hbuild (.inl (zeroBeyond_modelOf σ))
      fun a ha => arrayModel_variableModelOf hd (hr e he a ha)
  intro t ht
  obtain ht | ht := List.mem_append.mp ht
  · obtain ⟨e, he, rfl⟩ := List.mem_map.mp ht
    rw [heval e (List.mem_append_left _ he) (hb.constraints e he), hσ.1 e he]
  · obtain rfl := List.mem_singleton.mp ht
    have hfalse : (q.expr.eval σ).isTrue = false := Bool.eq_false_iff.mpr hσ.2
    rw [negatedAssertion_eq, heval q.expr (by simp) hb.expr, hfalse]
    rfl

/-! ### The values that are read -/

theorem readObject_eq (M : ArrayModel) {a : KleeArray} (ha : a.isSymbolicArray = true) :
    readObject M a = some ((List.range a.size).map (assignmentOf M a)) := by
  have hbyte : ∀ offset, (do getBVUnsigned (← getInitialRead M a offset)) =
      some (assignmentOf M a offset) := by
    intro offset
    have hc : a.isConstantArray = false := by rw [KleeArray.isConstantArray, ha]; rfl
    simp [getInitialRead, Builder.getInitialArray, hc, const, APInt.ofNat, readExpr, getBV,
      getBVUnsigned, assignmentOf]
  rw [readObject]
  simp only [hbyte]
  exact List.mapM_pure

theorem readObjects_eq (M : ArrayModel) {objects : List KleeArray}
    (ho : ∀ a ∈ objects, a.isSymbolicArray = true) : objects.mapM (readObject M) =
      some (objects.map fun a => (List.range a.size).map (assignmentOf M a)) := by
  induction objects with
  | nil => rfl
  | cons a objects ih =>
    rw [List.mapM_cons, readObject_eq M (ho a (by simp)),
      ih fun b hb => ho b (List.mem_cons_of_mem _ hb)]
    rfl

/-! ### The answers -/

theorem computeInitialValues_solution (hc : c.Correct) (hb : q.Buildable c.builder)
    (hg : q.Guarded) {objects : List KleeArray} (ho : ∀ a ∈ objects, a.isSymbolicArray = true)
    {values : List (List (BitVec 8))}
    (h : c.computeInitialValues q objects = some (some values)) :
    ∃ σ, q.Refutes σ ∧ values = objects.map fun a => (List.range a.size).map (σ a) := by
  rw [computeInitialValues] at h
  split_ifs at h
  cases hrun : c.run (c.assertions q) with
  | solvable V =>
    rw [hrun, handleSolverResponse, readObjects_eq _ ho] at h
    refine ⟨assignmentOf (c.arrayModel V),
      refutes_of_assertions hb hg (hc.solvable _ V hrun), ?_⟩
    exact (Option.some.inj (Option.some.inj h)).symm
  | unsolvable =>
    rw [hrun] at h
    cases Option.some.inj h
  | failure =>
    rw [hrun, handleSolverResponse] at h
    split_ifs at h
    cases Option.some.inj h

theorem computeInitialValues_noSolution (hc : c.Correct) (hn : c.noticesFailure = true)
    (hb : q.Buildable c.builder) (hd : InitialArray.Distinct c.arrayHash) (hr : c.Requests q)
    {objects : List KleeArray}
    (h : c.computeInitialValues q objects = some none) : q.Valid := by
  have hrun : c.run (c.assertions q) = .unsolvable := by
    rw [computeInitialValues] at h
    split_ifs at h
    cases hrun : c.run (c.assertions q) with
    | solvable V =>
      rw [hrun, handleSolverResponse] at h
      cases hv : objects.mapM (readObject (c.arrayModel V)) <;> rw [hv] at h <;> cases h
    | unsolvable => rfl
    | failure =>
      rw [hrun, handleSolverResponse, if_pos hn] at h
      cases h
  by_contra hv
  obtain ⟨σ, hσ⟩ := q.not_valid_iff.mp hv
  exact hc.unsolvable _ hrun ⟨c.variableModelOf σ, assertions_of_refutes hb hd hr hσ⟩

theorem computeTruth_iff (hc : c.Correct) (hn : c.noticesFailure = true)
    (hb : q.Buildable c.builder) (hg : q.Guarded) (hd : InitialArray.Distinct c.arrayHash)
    (hr : c.Requests q) {isValid : Bool}
    (h : c.computeTruth q = some isValid) : isValid = true ↔ q.Valid := by
  rw [computeTruth] at h
  cases hv : c.computeInitialValues q [] with
  | none =>
    rw [hv] at h
    cases h
  | some r =>
    rw [hv] at h
    obtain rfl : r.isNone = isValid := Option.some.inj h
    cases r with
    | none => simpa using computeInitialValues_noSolution hc hn hb hd hr hv
    | some values =>
      obtain ⟨σ, hσ, -⟩ := computeInitialValues_solution hc hb hg (by simp) hv
      simpa using q.not_valid_iff.mpr ⟨σ, hσ⟩

theorem guarded_withFalse {H : Assignment → Prop} {es : List Expr} (hg : Guarded H (es ++ [e])) :
    Guarded H (es ++ [.alloc 0 1]) := by
  induction es generalizing H with
  | nil => exact ⟨fun _ _ => rfl, trivial⟩
  | cons d es ih => exact ⟨hg.1, ih hg.2⟩

/-- The value is the one that the expression has in a solution of the constraints. -/
theorem computeValue_canBe (hc : c.Correct) (hb : q.Buildable c.builder) (hg : q.Guarded)
    (ht : e.wellTyped = true) {v : APInt}
    (h : c.computeValue { q with expr := e } = some (.ok (.constant v))) :
    CanBe q.constraints e v := by
  have hb' : Query.Buildable c.builder { q with expr := .alloc 0 1 } := ⟨hb.constraints, rfl, rfl, rfl⟩
  have ho : ∀ a ∈ findSymbolicObjects e, a.isSymbolicArray = true := fun a ha =>
    e.isSymbolicArray_of_mem ((mem_findSymbolicObjects _ _).mp ha)
  simp only [computeValue, Option.bind_eq_bind, Option.bind_eq_some_iff, Option.pure_def,
    Option.some.injEq] at h
  obtain ⟨r, hr, values, rfl, hvisit⟩ := h
  obtain ⟨σ, ⟨hsat, -⟩, rfl⟩ :=
    computeInitialValues_solution hc hb' (guarded_withFalse hg) ho hr
  refine ⟨σ, hsat, ?_⟩
  have hagree := ExprEvaluator.visit_agrees (Bindings.fits_ofValues σ ho) e ht hvisit
  have heval := hagree.eval _ rfl
  rw [Expr.eval] at heval
  rw [heval]
  refine (e.eval_congr_bytes fun a ha i hi => ?_).symm
  exact Bindings.toAssignment_ofValues σ ((mem_findSymbolicObjects _ _).mpr ha) hi

/-- What the core solver answers is right, if the external solver is and the arrays of the
session have variables of their own: initial values are a counterexample, without one the
query is valid, and a value is one that the expression has under the constraints. -/
theorem core_answers (hc : c.Correct) (hn : c.noticesFailure = true)
    (hb : q.Buildable c.builder) (hg : q.Guarded) (hd : InitialArray.Distinct c.arrayHash)
    (hr : c.Requests q) :
    (∀ objects r, (∀ a ∈ objects, a.isSymbolicArray = true) →
      c.computeInitialValues q objects = some r → match r with
        | some values =>
          ∃ σ, q.Refutes σ ∧ values = objects.map fun a => (List.range a.size).map (σ a)
        | none => q.Valid) ∧
      (∀ isValid, c.computeTruth q = some isValid → (isValid = true ↔ q.Valid)) ∧
        ∀ e v, e.wellTyped = true →
          c.computeValue { q with expr := e } = some (.ok (.constant v)) →
            CanBe q.constraints e v := by
  refine ⟨fun objects r ho h => ?_, fun _ h => computeTruth_iff hc hn hb hg hd hr h,
    fun _ _ ht h => computeValue_canBe hc hb hg ht h⟩
  cases r with
  | some values => exact computeInitialValues_solution hc hb hg ho h
  | none => exact computeInitialValues_noSolution hc hn hb hd hr h

open Classical in
/-- A core solver over an external solver that always finds the answer. -/
noncomputable def ideal (b : Builder) (requests : List KleeArray) : CoreSolver where
  builder := b
  useForkedSTP := true
  requests := requests
  run ts := if h : ∃ M, ∀ t ∈ ts, t M = some true then .solvable h.choose else .unsolvable

variable {b : Builder} {requests : List KleeArray}

theorem ideal_correct : (ideal b requests).Correct where
  solvable ts V h := by
    by_cases hV : ∃ V, ∀ t ∈ ts, t V = some true
    · simp only [ideal, dif_pos hV, SolverRun.solvable.injEq] at h
      exact h ▸ hV.choose_spec
    · simp [ideal, hV] at h
  unsolvable ts h := by
    by_cases hV : ∃ V, ∀ t ∈ ts, t V = some true
    · simp [ideal, hV] at h
    · exact hV

theorem ideal_run_ne (ts : List Assertion) : (ideal b requests).run ts ≠ .failure := by
  by_cases hV : ∃ V, ∀ t ∈ ts, t V = some true <;> simp [ideal, hV]

def message : KleeArray := { name := "message", size := 4, ufe := 0 }

/-- Is a byte below 4, where it is below 9? -/
def smallByte : Query :=
  let byte : Expr := .cast .ZExt (.read (.root message) (.alloc 2 32)) 32
  ⟨[.binary .Ult byte (.alloc 9 32)], .binary .Ult byte (.alloc 4 32)⟩

theorem core_answers_smallByte :
    (ideal (.STP true) [message]).computeTruth smallByte = some false := by
  have hb : smallByte.Buildable (ideal (.STP true) [message]).builder :=
    ⟨fun e he => by
      obtain rfl := List.mem_singleton.mp he
      exact ⟨by decide, by decide, by decide⟩, by decide, by decide, by decide⟩
  have hg : smallByte.Guarded := ⟨fun _ _ => rfl, fun _ _ => rfl, trivial⟩
  have hd : InitialArray.Distinct (ideal (.STP true) [message]).arrayHash := by
    change InitialArray.Distinct (InitialArray.run .STP [message.toSolverArray])
    decide
  have hr : (ideal (.STP true) [message]).Requests smallByte := by
    change ∀ e ∈ smallByte.constraints ++ [smallByte.expr], ∀ a ∈ e.initialArrays, a ∈ [message]
    decide
  have hexists : ∃ b, (ideal (.STP true) [message]).computeTruth smallByte = some b := by
    rw [computeTruth, computeInitialValues, if_neg fun h => absurd h.2 (by decide)]
    cases hrun : (ideal (.STP true) [message]).run
      ((ideal (.STP true) [message]).assertions smallByte) with
    | solvable V => exact ⟨false, rfl⟩
    | unsolvable => exact ⟨true, rfl⟩
    | failure => exact absurd hrun (ideal_run_ne _)
  obtain ⟨b, hanswer⟩ := hexists
  have hvalid := (core_answers ideal_correct rfl hb hg hd hr).2.1 b hanswer
  cases b with
  | false => exact hanswer
  | true =>
    -- the byte may be five
    have hfive := hvalid.mp rfl (fun _ _ => 5#8) fun e he => by
      obtain rfl := List.mem_singleton.mp he
      decide
    exact absurd hfive (by decide)

end CoreSolver

end TaseVerifier
