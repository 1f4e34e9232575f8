import TaseVerifier.Expr.Defined
import TaseVerifier.Expr.Weight
import TaseVerifier.Library.Ensures
import TaseVerifier.Solver.Query

/-! The canonicaliser of queries: each symbolic array is exchanged for the next array
of its size from a pool of arrays named after their size and number, in the order in
which the expression and then the constraints are visited. A visited node whose parts
changed is rebuilt by the simplifying constructors and visited again. -/

namespace TaseVerifier

open Library

/-- The array cache. It keeps one symbolic array for each name and size, so that
asking twice gives the same object. -/
structure ArrayCache where
  createArray : String → ℕ → KleeArray
  name_createArray : ∀ name size, (createArray name size).name = name
  size_createArray : ∀ name size, (createArray name size).size = size
  isSymbolicArray_createArray : ∀ name size, (createArray name size).isSymbolicArray = true

/-- A cache that gives every array the same handle. -/
def ArrayCache.plain : ArrayCache where
  createArray name size := ⟨name, size, 0, []⟩
  name_createArray _ _ := rfl
  size_createArray _ _ := rfl
  isSymbolicArray_createArray _ _ := rfl

/-- `"c_" + utostr(sz) + "_" + utostr(k)`. -/
def canonicalName (sz k : ℕ) : String := "c_" ++ toString sz ++ "_" ++ toString k

/-- The array at place `i` of the pool for the size. -/
def ArrayCache.canonicalArray (cache : ArrayCache) (sz i : ℕ) : KleeArray :=
  cache.createArray (canonicalName sz (i + 1)) sz

namespace CanonicalVisitor

/-- The maps of the visitor. `sizeLRUMap` holds the place after the one used last.
`visited` is the table of the base class. -/
structure State where
  arrayIndexMap : KleeArray → Option ℕ
  sizeLRUMap : ℕ → ℕ
  canonicalArrayMap : ℕ → List KleeArray
  canonicalArraySet : List KleeArray
  visited : List (Expr × Expr)

namespace State

/-- `sizeLRUMap[sz] = arrayIndexMap[root] = LRUIndex + 1`. -/
def assign (a : KleeArray) (st : State) : State :=
  { st with
    arrayIndexMap := Function.update st.arrayIndexMap a (some (st.sizeLRUMap a.size))
    sizeLRUMap := Function.update st.sizeLRUMap a.size (st.sizeLRUMap a.size + 1) }

/-- A new canonical array enters the pool. -/
def insert (array : KleeArray) (st : State) : State :=
  { st with
    canonicalArrayMap := Function.update st.canonicalArrayMap array.size
      (st.canonicalArrayMap array.size ++ [array])
    canonicalArraySet := array :: st.canonicalArraySet }

def remember (e e' : Expr) (st : State) : State := { st with visited := (e, e') :: st.visited }

/-- The maps of one call: the pool outlives it, the rest starts empty. -/
def start (canonicalArrayMap : ℕ → List KleeArray) (canonicalArraySet : List KleeArray) : State :=
  ⟨fun _ => none, fun _ => 0, canonicalArrayMap, canonicalArraySet, []⟩

end State

abbrev VisitM := StateT State (Except Abort)

variable (cache : ArrayCache)

/-- The array that stands for a symbolic root: the one it has, the next one of the
pool, or a new one. -/
def canonicalRoot (root : KleeArray) : VisitM KleeArray := do
  let st ← get
  let pool := st.canonicalArrayMap root.size
  match st.arrayIndexMap root with
  | some i => pure (pool[i]?.getD root)
  | none =>
    match pool[st.sizeLRUMap root.size]? with
    | some array => do
      set (st.assign root)
      pure array
    | none => do
      let array := cache.createArray (canonicalName root.size (pool.length + 1)) root.size
      set ((st.insert array).assign root)
      pure array

/-- Constant arrays stay. -/
def newRoot (root : KleeArray) : VisitM KleeArray :=
  if root.isConstantArray then pure root else canonicalRoot cache root

/-- The walk over the update list from its oldest node, over a new root. -/
def visitUpdates (visit : Expr → VisitM Expr) (array : KleeArray) : UpdateList → VisitM UpdateList
  | .root _ => pure (.root array)
  | .node index value next => do
    let updates ← visitUpdates visit array next
    let index' ← visit index
    let value' ← visit value
    pure (updates.extend index' value')

/-- `visitRead` where the root is not canonical. -/
def changeRead (visit : Expr → VisitM Expr) (u : UpdateList) (index : Expr) : VisitM Expr := do
  let array ← newRoot cache u.array
  let updates ← visitUpdates visit array u
  let index' ← visit index
  pure (ReadExpr.create updates index')

/-- The end of `visitActual` after the children: a rebuilt node is visited again. -/
def revisit (visit : Expr → VisitM Expr) (e : Expr) (same : Bool) (rebuilt : Except Abort Expr) :
    VisitM Expr :=
  if same then pure e else do
    let e' ← rebuilt
    visit e'

/-- `visitActual`, with `visit` for the nodes below and for the rebuilt node. -/
def visitActual (visit : Expr → VisitM Expr) : Expr → VisitM Expr
  | .constant c => pure (.constant c)
  | .notOptimized s => do
    let s' ← visit s
    revisit visit (.notOptimized s) (s' = s) (pure (NotOptimizedExpr.create s'))
  | .read u i => do
    if u.array ∈ (← get).canonicalArraySet then
      let i' ← visit i
      revisit visit (.read u i) (i' = i) (pure (ReadExpr.create u i'))
    else changeRead cache visit u i
  | .select c t f => do
    let c' ← visit c
    let t' ← visit t
    let f' ← visit f
    revisit visit (.select c t f) (c' = c ∧ t' = t ∧ f' = f) (pure (SelectExpr.create c' t' f'))
  | .concat l r => do
    let l' ← visit l
    let r' ← visit r
    revisit visit (.concat l r) (l' = l ∧ r' = r) (pure (ConcatExpr.create l' r'))
  | .extract e off w => do
    let e' ← visit e
    revisit visit (.extract e off w) (e' = e) (pure (ExtractExpr.create e' off w))
  | .not e => do
    let e' ← visit e
    revisit visit (.not e) (e' = e) (pure (NotExpr.create e'))
  | .cast k e w => do
    let e' ← visit e
    revisit visit (.cast k e w) (e' = e) (pure (CastExpr.create k e' w))
  | .binary k l r => do
    let l' ← visit l
    let r' ← visit r
    revisit visit (.binary k l r) (l' = l ∧ r' = r) (BinaryExpr.create k l' r')

/-- The lookup in `visited` around `visitActual`; constants are not entered. -/
def lookup (e : Expr) (actual : VisitM Expr) : VisitM Expr := do
  if e.isConstant then actual
  else
    match (← get).visited.lookup e with
    | some e' => pure e'
    | none => do
      let e' ← actual
      modify (State.remember e e')
      pure e'

/-- `visit`, to the given depth of calls. -/
def visit : ℕ → Expr → VisitM Expr
  | 0, _ => throw .diverged
  | depth + 1, e => lookup e (visitActual cache (visit depth) e)

/-- `visitor.visit(e)`; the depth is enough, as `visit_returns` shows. -/
def visitQuery (e : Expr) : VisitM Expr := visit cache (e.weight + 2) e

/-- `canonicalize` over the maps of one call: the expression, then each constraint. -/
def canonicalizeWith (e : Expr) (constraints : List Expr) : VisitM (Expr × List Expr) := do
  let e' ← visitQuery cache e
  let constraints' ← constraints.mapM (visitQuery cache)
  pure (e', constraints')

end CanonicalVisitor

/-- `klee::canonicalize`: a canonicaliser with an empty pool, for this call only. -/
def canonicalize (cache : ArrayCache) (e : Expr) (constraints : List Expr) :
    Except Abort (Expr × List Expr) :=
  Prod.fst <$> CanonicalVisitor.canonicalizeWith cache e constraints (.start (fun _ => []) [])

/-- The members of the solver: the pool of arrays, for all its queries. -/
structure CanonicalSolver where
  canonicalArrayMap : ℕ → List KleeArray := fun _ => []
  canonicalArraySet : List KleeArray := []

/-- `CanonicalSolver::canonicalize`. -/
def CanonicalSolver.canonicalize (cache : ArrayCache) (q : Query) :
    StateT CanonicalSolver (Except Abort) Query := fun solver => do
  let (q', st) ← CanonicalVisitor.canonicalizeWith cache q.expr q.constraints
    (.start solver.canonicalArrayMap solver.canonicalArraySet)
  pure (⟨q'.2, q'.1⟩, ⟨st.canonicalArrayMap, st.canonicalArraySet⟩)

end TaseVerifier
