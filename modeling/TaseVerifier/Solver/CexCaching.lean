import Mathlib.Data.List.Sort
import TaseVerifier.ADT.MapOfSets
import TaseVerifier.Expr.Defined
import TaseVerifier.Expr.Evaluator
import TaseVerifier.Library.Ensures
import TaseVerifier.Solver.Query

/-! The cache of counterexamples. A query is asked as the set of its constraints and its
negated expression. The cache keeps for each such set a solution or that there is none,
and searches for solutions of supersets, for subsets without solution, and for cached
solutions that happen to satisfy the set. -/

namespace TaseVerifier

open Library MapOfSets

/-- The order of expressions that sets of them are kept in. It compares hashes and
addresses; only equal expressions are equivalent. -/
structure ExprOrder where
  lt : Expr → Expr → Bool
  eq_of_not_lt : ∀ a b, lt a b = false → lt b a = false → a = b

/-- `std::set::insert`. -/
def ExprOrder.insert (ord : ExprOrder) (e : Expr) : List Expr → List Expr
  | [] => [e]
  | x :: xs =>
    if ord.lt e x then e :: x :: xs
    else if ord.lt x e then x :: ord.insert e xs
    else x :: xs

def Query.withFalse (q : Query) : Query := { q with expr := Expr.alloc 0 Width.Bool }

namespace Bindings

/-- The two maps have the same bindings. -/
def same (a b : Bindings) : Bool :=
  a.entries.all (fun p => b.find p.1 == a.find p.1) &&
    b.entries.all fun p => a.find p.1 == b.find p.1

end Bindings

namespace CexCachingSolver

/-- Where the process stops: in the evaluation of an expression, or at an assertion. -/
inductive Stop where
  | evaluation (abort : Abort)
  | mustHaveAssignment
  | notConstant

structure Options where
  cexCacheTryAll : Bool
  cexCacheSuperSet : Bool

/-- The cache maps sets to a solution, or to none. -/
structure State (S : Type) where
  cache : Node Expr (Option Bindings)
  assignmentsTable : List Bindings
  solver : S

abbrev CexM (S : Type) := StateT (State S) (Except Stop)

section Model

variable {S : Type} (impl : SolverImpl S) (opts : Options) (ord : ExprOrder)
  (before : Bindings → Bindings → Bool)

def evaluate (b : Bindings) (e : Expr) : Except Stop Expr :=
  (ExprEvaluator.visit b e).mapError .evaluation

def isTrue : Expr → Bool
  | .constant c => c.isTrue
  | _ => false

/-- `Assignment::satisfies`. -/
def satisfies (b : Bindings) : List Expr → Except Stop Bool
  | [] => pure true
  | e :: key => do
    let v ← evaluate b e
    if isTrue v then satisfies b key else pure false

def nonNullAssignment (a : Option Bindings) : Except Stop Bool := pure a.isSome

def nullAssignment (a : Option Bindings) : Except Stop Bool := pure a.isNone

def nullOrSatisfyingAssignment (key : List Expr) : Option Bindings → Except Stop Bool
  | none => pure true
  | some b => satisfies b key

/-- The first assignment of the table that satisfies the key. -/
def searchTable (key : List Expr) : List Bindings → Except Stop (Option (Option Bindings))
  | [] => pure none
  | b :: table => do
    if ← satisfies b key then pure (some (some b)) else searchTable key table

/-- The superset search, unless it is switched off. -/
def searchSuperset (key : List Expr) (st : State S) : Except Stop (Option (Option Bindings)) :=
  if opts.cexCacheSuperSet then st.cache.findSuperset ord.lt nonNullAssignment key else pure none

def searchSubset (key : List Expr) (st : State S) : Except Stop (Option (Option Bindings)) :=
  if opts.cexCacheTryAll then
    firstOf (st.cache.findSubset ord.lt nullAssignment key) (searchTable key st.assignmentsTable)
  else st.cache.findSubset ord.lt (nullOrSatisfyingAssignment key) key

def searchForAssignment (key : List Expr) (st : State S) :
    Except Stop (Option (Option Bindings)) :=
  firstOf (pure (st.cache.lookup key))
    (firstOf (searchSuperset opts ord key st) (searchSubset opts ord key st))

/-- The key of a query, unless its negation is false already. -/
def keyOf (q : Query) : Option (List Expr) :=
  let key := q.constraints.foldl (fun key e => ord.insert e key) []
  match q.expr.createIsZero with
  | .constant c => if c.isFalse then none else some key
  | neg => some (ord.insert neg key)

/-- `findSymbolicObjects` over a range of expressions. -/
def findObjects (key : List Expr) : List KleeArray :=
  (key.flatMap Expr.symbolicRoots).foldl insertObject []

/-- A binding that is in the table already is taken from there. -/
def memoize (b : Bindings) : CexM S Bindings := fun st =>
  match st.assignmentsTable.find? (b.same ·) with
  | some b' => .ok (b', st)
  | none => .ok (b, { st with
      assignmentsTable := st.assignmentsTable.orderedInsert (fun x y => before x y = true) b })

def State.insert (key : List Expr) (binding : Option Bindings) (st : State S) : State S :=
  { st with cache := st.cache.insert ord.lt key binding }

/-- A call of the layer below. -/
def call {α : Type} (x : StateM S α) : CexM S α := fun st =>
  .ok ((x st.solver).1, { st with solver := (x st.solver).2 })

/-- The second half of `getAssignment`: the set is not in the cache. -/
def solveAssignment (q : Query) (key : List Expr) : CexM S (Option (Option Bindings)) := do
  match ← call (impl.computeInitialValues q (findObjects key)) with
  | none => pure none
  | some none => do
    modify (State.insert ord key none)
    pure (some none)
  | some (some values) => do
    let binding ← memoize before (Bindings.ofValues (findObjects key) values)
    modify (State.insert ord key (some binding))
    pure (some (some binding))

/-- A solution of the query, or that there is none. -/
def getAssignment (q : Query) : CexM S (Option (Option Bindings)) :=
  match keyOf ord q with
  | none => pure (some none)
  | some key => do
    let st ← get
    match ← (liftM (searchForAssignment opts ord key st) : CexM S _) with
    | some result => pure (some result)
    | none => solveAssignment impl ord before q key

/-- The value of the expression under the solution, asserted to be a constant. -/
def constantValue (b : Bindings) (e : Expr) : CexM S APInt := do
  match ← (liftM (evaluate b e) : CexM S _) with
  | .constant c => pure c
  | _ => throw .notConstant

/-- A solution of the constraints, asserted to exist. -/
def anySolution (q : Query) : CexM S (Option Bindings) := do
  match ← getAssignment impl opts ord before q.withFalse with
  | none => pure none
  | some none => throw .mustHaveAssignment
  | some (some a) => pure (some a)

def computeTruth (q : Query) : CexM S (Option Bool) := do
  match ← getAssignment impl opts ord before q with
  | none => pure none
  | some a => pure (some a.isNone)

/-- The value under one solution says which of the two answers is still open. -/
def settle (value : APInt) (q : Query) : CexM S (Option Validity) :=
  if value.isTrue then do
    match ← computeTruth impl opts ord before q with
    | none => pure none
    | some valid => pure (some (if valid then .True else .Unknown))
  else do
    match ← computeTruth impl opts ord before q.negateExpr with
    | none => pure none
    | some valid => pure (some (if valid then .False else .Unknown))

def computeValidity (q : Query) : CexM S (Option Validity) := do
  match ← anySolution impl opts ord before q with
  | none => pure none
  | some a => do
    let value ← constantValue a q.expr
    settle impl opts ord before value q

def computeValue (q : Query) : CexM S (Option APInt) := do
  match ← anySolution impl opts ord before q with
  | none => pure none
  | some a => do
    let value ← constantValue a q.expr
    pure (some value)

/-- The bytes of each object; an object that is not bound is zero. -/
def valuesOf (a : Bindings) (objects : List KleeArray) : List (List (BitVec 8)) :=
  objects.map fun os => (a.find os).getD (List.replicate os.size 0#8)

def computeInitialValues (q : Query) (objects : List KleeArray) :
    CexM S (Option (Option (List (List (BitVec 8))))) := do
  match ← getAssignment impl opts ord before q with
  | none => pure none
  | some none => pure (some none)
  | some (some a) => pure (some (some (valuesOf a objects)))

inductive Call where
  | computeTruth (q : Query)
  | computeValidity (q : Query)
  | computeValue (q : Query)
  | computeInitialValues (q : Query) (objects : List KleeArray)

def Call.query : Call → Query
  | .computeTruth q | .computeValidity q | .computeValue q | .computeInitialValues q _ => q

inductive Answer where
  | truth (isValid : Option Bool)
  | validity (result : Option Validity)
  | value (result : Option APInt)
  | initialValues (result : Option (Option (List (List (BitVec 8)))))

def step : Call → CexM S Answer
  | .computeTruth q => do pure (.truth (← computeTruth impl opts ord before q))
  | .computeValidity q => do pure (.validity (← computeValidity impl opts ord before q))
  | .computeValue q => do pure (.value (← computeValue impl opts ord before q))
  | .computeInitialValues q objects => do
    pure (.initialValues (← computeInitialValues impl opts ord before q objects))

/-- The answers to a sequence of calls. -/
def run : List Call → CexM S (List Answer)
  | [] => pure []
  | c :: calls => do
    let answer ← step impl opts ord before c
    let answers ← run calls
    pure (answer :: answers)

end Model

end CexCachingSolver

end TaseVerifier
