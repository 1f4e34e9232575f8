import TaseVerifier.Solver.Query

/-! The independent solver's initial values: the constraints are divided into factors by a
union-find structure over the bytes that they read, each factor is solved for itself, and
the solutions are merged. `none` stands for an access outside a vector, for which the
program has no defined behaviour, and for a failed assertion. -/

namespace TaseVerifier

mutual
/-- The reads that `findReads` collects, with those in update lists. It meets each of them
once, which only drops repetitions. -/
def Expr.reads : Expr → List (UpdateList × Expr)
  | .constant _ => []
  | .notOptimized src => src.reads
  | .read updates index => (updates, index) :: (index.reads ++ updates.reads)
  | .select c t f => c.reads ++ t.reads ++ f.reads
  | .concat l r => l.reads ++ r.reads
  | .extract e _ _ => e.reads
  | .not e => e.reads
  | .cast _ e _ => e.reads
  | .binary _ l r => l.reads ++ r.reads
def UpdateList.reads : UpdateList → List (UpdateList × Expr)
  | .root _ => []
  | .node index value next => index.reads ++ value.reads ++ next.reads
end

/-! ### Sets and maps -/

/-- A set of indices, in their order. -/
abbrev DenseSet := List ℕ

namespace DenseSet

def insert (x : ℕ) : DenseSet → DenseSet
  | [] => [x]
  | y :: s => if x < y then x :: y :: s else if y < x then y :: insert x s else y :: s

/-- Elements of the other set are inserted from the first one on that is present already. -/
def addLoop : DenseSet → Bool → DenseSet → DenseSet × Bool
  | s, modified, [] => (s, modified)
  | s, modified, x :: b =>
    if modified || s.contains x then addLoop (insert x s) true b else addLoop s modified b

def add (s b : DenseSet) : DenseSet × Bool := addLoop s false b

end DenseSet

/-- A map from arrays, in the order of their addresses. -/
abbrev ArrayMap (α : Type) := List (KleeArray × α)

namespace ArrayMap

variable {α : Type} (address : KleeArray → ℕ)

def find (m : ArrayMap α) (a : KleeArray) : Option α := (m.find? (·.1 = a)).map Prod.snd

def erase (m : ArrayMap α) (a : KleeArray) : ArrayMap α := m.filter (·.1 ≠ a)

/-- The value of a key is replaced, or the key inserted. -/
def set (a : KleeArray) (v : α) : ArrayMap α → ArrayMap α
  | [] => [(a, v)]
  | (b, w) :: m =>
    if b = a then (a, v) :: m
    else if address a < address b then (a, v) :: (b, w) :: m
    else (b, w) :: set a v m

end ArrayMap

/-- The bytes that a factor reads, and the arrays that it reads at symbolic indices. -/
structure IndependentElementSet where
  elements : ArrayMap DenseSet
  wholeObjects : ArrayMap Unit
  exprs : List Expr

namespace IndependentElementSet

variable (address : KleeArray → ℕ)

def empty (s : IndependentElementSet) : Bool := s.wholeObjects.isEmpty && s.exprs.isEmpty

def addRead (s : IndependentElementSet) (r : UpdateList × Expr) : IndependentElementSet :=
  let array := r.1.array
  match r.1 with
  | .root a => if a.isConstantArray then s else addIndex s array r.2
  | .node _ _ _ => addIndex s array r.2
where
  addIndex (s : IndependentElementSet) (array : KleeArray) (index : Expr) :
      IndependentElementSet :=
    if (s.wholeObjects.find array).isSome then s
    else
      match index with
      | .constant c =>
        let dis := (s.elements.find array).getD []
        { s with elements := s.elements.set address array (dis.insert (c.toNat % 2 ^ 32)) }
      | _ =>
        { s with
          elements := s.elements.erase array
          wholeObjects := s.wholeObjects.set address array () }

def ofExpr (e : Expr) : IndependentElementSet :=
  e.reads.foldl (addRead address) ⟨[], [], [e]⟩

def addWhole (p : IndependentElementSet × Bool) (w : KleeArray × Unit) :
    IndependentElementSet × Bool :=
  if (p.1.elements.find w.1).isSome then
    ({ p.1 with
      elements := p.1.elements.erase w.1
      wholeObjects := p.1.wholeObjects.set address w.1 () }, true)
  else if (p.1.wholeObjects.find w.1).isSome then p
  else ({ p.1 with wholeObjects := p.1.wholeObjects.set address w.1 () }, true)

def addElements (p : IndependentElementSet × Bool) (x : KleeArray × DenseSet) :
    IndependentElementSet × Bool :=
  if (p.1.wholeObjects.find x.1).isSome then p
  else
    match p.1.elements.find x.1 with
    | none => ({ p.1 with elements := p.1.elements.set address x.1 x.2 }, true)
    | some dis =>
      ({ p.1 with elements := p.1.elements.set address x.1 (dis.add x.2).1 },
        p.2 || (dis.add x.2).2)

/-- The union, and whether it changed the set. -/
def addModified (s b : IndependentElementSet) : IndependentElementSet × Bool :=
  b.elements.foldl (addElements address) (b.wholeObjects.foldl (addWhole address)
    ({ s with exprs := s.exprs ++ b.exprs }, false))

def add (s b : IndependentElementSet) : IndependentElementSet := (s.addModified address b).1

end IndependentElementSet

/-! ### The union-find structure -/

structure UFElement2 where
  parent : ℕ
  rank : ℕ
  size : ℕ
  accessName : String
  ies : IndependentElementSet

def UFElement2.add (address : KleeArray → ℕ) (x : UFElement2) (s : IndependentElementSet) :
    UFElement2 :=
  if x.ies.empty then { x with ies := s } else { x with ies := x.ies.add address s }

abbrev UFManager2 := List UFElement2

namespace UFManager2

variable (address : KleeArray → ℕ)

/-- The position of the new element is one below the number that is returned, which is
also that of its parent. -/
def create (an : String) (m : UFManager2) : ℕ × UFManager2 :=
  (m.length + 1, m ++ [⟨m.length + 1, 0, 1, an, ⟨[], [], []⟩⟩])

def setParent (i parent : ℕ) (m : UFManager2) : UFManager2 :=
  m.modify i fun x => { x with parent := parent }

/-- An element whose parent is at its own position is found; no path is longer than there
are elements. -/
def findLoop : ℕ → ℕ → UFManager2 → Option (ℕ × UFManager2)
  | 0, _, _ => none
  | n + 1, i, m => do
    let x ← m[i]?
    if i = x.parent then return (x.parent, m)
    else
      let (r, m) ← findLoop n x.parent m
      return (r, setParent i r m)

def find (i : ℕ) (m : UFManager2) : Option (ℕ × UFManager2) := findLoop (m.length + 1) i m

/-- The sets of the two elements are merged, and not those of their representatives. -/
def join (a b : ℕ) (m : UFManager2) : Option (ℕ × UFManager2) := do
  let (i, m) ← find a m
  let (j, m) ← find b m
  let x ← m[a]?
  let y ← m[b]?
  if i = j then return (i, m)
  else if y.rank ≤ x.rank then
    let m := setParent j i m
    let m := if y.rank < x.rank then m.modify a fun x => { x with rank := x.rank + 1 } else m
    let m := if !y.ies.empty && !x.ies.empty then
      m.modify a fun x => { x with ies := x.ies.add address y.ies } else m
    return (i, m)
  else
    let m := setParent i j m
    let m := if !x.ies.empty && !y.ies.empty then
      m.modify b fun y => { y with ies := y.ies.add address x.ies } else m
    return (j, m)

end UFManager2

/-! ### Factors -/

/-- What `getAllIndependentConstraintSetsUF` keeps from one constraint to the next. -/
structure Factoring where
  allElements : List (String × ℕ)
  uniqueSReps : List ℕ
  manager : UFManager2

namespace Factoring

variable (address : KleeArray → ℕ)

def accessString (array : KleeArray) (u : ℕ) : String := array.name ++ "__" ++ toString u

/-- The element of an access, which is created when it is new. -/
def access (f : Factoring) (name : String) : ℕ × Factoring :=
  match f.allElements.lookup name with
  | some ufe => (ufe, f)
  | none =>
    let (ufe, manager) := f.manager.create name
    (ufe, ⟨f.allElements ++ [(name, ufe)], f.uniqueSReps.insert ufe, manager⟩)

def accesses (f : Factoring) : List String → List ℕ × Factoring
  | [] => ([], f)
  | name :: names =>
    let (ufe, f) := f.access name
    let (ufes, f) := accesses f names
    (ufe :: ufes, f)

def accessNames (s : IndependentElementSet) : List String :=
  s.elements.flatMap fun e => e.2.map (accessString e.1)

/-- The accesses of a constraint are joined one after the other. -/
def joinAll (f : Factoring) (ff curr : ℕ) : List ℕ → Option (ℕ × Factoring)
  | [] => some (ff, f)
  | next :: rest => do
    let (a, manager) ← f.manager.find curr
    let (b, manager) ← manager.find next
    let reps := (f.uniqueSReps.erase b).erase a
    let (ff, manager) ← manager.join address curr next
    joinAll { f with uniqueSReps := reps.insert ff, manager := manager } ff next rest

/-- One constraint. The first access is read also when there is none. -/
def addConstraint (f : Factoring) (c : Expr) : Option Factoring :=
  let ies := IndependentElementSet.ofExpr address c
  let (ufes, f) := f.accesses (accessNames ies)
  match ufes with
  | [] => none
  | first :: rest => do
    let (ff, manager) ← f.manager.find first
    let (ff, f) ← joinAll address { f with manager := manager } ff first rest
    let _ ← f.manager[ff]?
    return { f with manager := f.manager.modify ff fun x => x.add address ies }

end Factoring

/-- The order in which an unordered set is gone through. -/
structure Iteration where
  order : List ℕ → List ℕ
  order_perm : ∀ l, (order l).Perm l

/-- The factors of the constraints; the expression of the query is not among them. -/
def getAllIndependentConstraintSetsUF (address : KleeArray → ℕ) (iterate : Iteration)
    (q : Query) : Option (List IndependentElementSet) := do
  let f ← q.constraints.foldlM (Factoring.addConstraint address) ⟨[], [], []⟩
  (iterate.order f.uniqueSReps).mapM fun idx => (f.manager[idx]?).map UFElement2.ies

namespace IndependentSolver

variable {S : Type} (address : KleeArray → ℕ) (iterate : Iteration) (impl : SolverImpl S)

def calculateArrayReferences (s : IndependentElementSet) : List KleeArray :=
  let seen : ArrayMap Unit := (s.elements.map Prod.fst ++ s.wholeObjects.map Prod.fst).foldl
    (fun seen a => seen.set address a ()) []
  seen.map Prod.fst

/-- One constraint that a byte is equal to a constant. Updates of the array are not looked
at, and the byte is written also when it lies outside the array. -/
def getTrivialSolution : List Expr → Option (Option (List (List (BitVec 8))))
  | [.binary .Eq (.constant value) (.read updates (.constant index))] =>
    let array := updates.array
    let i := index.toNat % 2 ^ 32
    if i < array.size then
      some (some [(List.replicate array.size 0).set i (BitVec.ofNat 8 value.toNat)])
    else none
  | _ => some none

/-- The merged solutions of the factors so far. -/
abbrev RetMap := ArrayMap (List (BitVec 8))

/-- The values of an array are taken, or those at the bytes of the factor copied. -/
def mergeArray (x : IndependentElementSet) (retMap : RetMap) (v : KleeArray × List (BitVec 8)) :
    Option RetMap :=
  match retMap.find v.1 with
  | none => some (retMap.set address v.1 v.2)
  | some old =>
    if old.length ≠ v.2.length then none
    else do
      let merged ← ((x.elements.find v.1).getD []).foldlM (fun values index => do
        let byte ← v.2[index]?
        return values.set index byte) old
      return retMap.set address v.1 merged

/-- The factors one after the other, as far as they have a solution. -/
def solveFactors : List IndependentElementSet → RetMap → StateT S Option (Option (Option RetMap))
  | [], retMap => return some (some retMap)
  | x :: factors, retMap => do
    let arraysInFactor := calculateArrayReferences address x
    if x.exprs.isEmpty then failure
    else if arraysInFactor.isEmpty then solveFactors factors retMap
    else
      let answer ← match ← StateT.lift (getTrivialSolution x.exprs) with
        | some values => pure (some (some values))
        | none => fun s => some (impl.computeInitialValues
            ⟨x.exprs, Expr.alloc 0 Width.Bool⟩ arraysInFactor s)
      match answer with
      | none => return none
      | some none => return some none
      | some (some tempValues) =>
        if tempValues.length ≠ arraysInFactor.length then failure
        else
          let retMap ← StateT.lift
            ((arraysInFactor.zip tempValues).foldlM (mergeArray address x) retMap)
          solveFactors factors retMap

/-- The values of the objects and the merged solutions: an array of which no byte is
constrained is zero. The last assertion is left out, which says that these values meet
the constraints and falsify the expression. -/
def computeInitialValues (legacy_mode : Bool) (q : Query) (objects : List KleeArray) :
    StateT S Option (Option (Option (List (List (BitVec 8)) × RetMap))) :=
  if legacy_mode then fun s =>
    let r := impl.computeInitialValues q objects s
    some (r.1.map (Option.map (·, [])), r.2)
  else do
    let factors ← StateT.lift (getAllIndependentConstraintSetsUF address iterate q)
    match ← solveFactors address impl factors [] with
    | none => return none
    | some none => return some none
    | some (some retMap) =>
      return some (some (objects.map fun a =>
        (retMap.find a).getD (List.replicate a.size 0), retMap))

/-- The assignment has the bytes of the objects, and of the other arrays of the map. -/
def Fits (objects : List KleeArray) (values : List (List (BitVec 8))) (retMap : RetMap)
    (σ : Assignment) : Prop :=
  (∀ a v, (a, v) ∈ objects.zip values → (List.range a.size).map (σ a) = v) ∧
    ∀ a v, (a, v) ∈ retMap → a ∉ objects → (List.range a.size).map (σ a) = v

/-- The call has a defined result, which is right: the values refute the query, or the
query is valid where there are none. -/
def Sound (q : Query) (objects : List KleeArray) :
    Option (Option (Option (List (List (BitVec 8)) × RetMap)) × S) → Prop
  | none => False
  | some (none, _) => True
  | some (some none, _) => q.Valid
  | some (some (some r), _) => ∀ σ, Fits objects r.1 r.2 σ → q.Refutes σ

end IndependentSolver

/-! ### What becomes of the first constraint -/

namespace UFManager2

/-- No element is its own parent. -/
def Fresh (m : UFManager2) : Prop := ∀ i x, m[i]? = some x → x.parent = i + 1

theorem fresh_nil : Fresh [] := by
  intro i x hx
  cases hx

theorem Fresh.create {m : UFManager2} (h : m.Fresh) (an : String) : (m.create an).2.Fresh := by
  intro i x hx
  rw [UFManager2.create, List.getElem?_append] at hx
  split at hx
  · exact h i x hx
  next hi =>
    obtain hz | hpos := Nat.eq_zero_or_pos (i - m.length)
    · rw [hz] at hx
      obtain rfl := Option.some.inj hx
      change m.length + 1 = i + 1
      omega
    · rw [List.getElem?_eq_none (show 1 ≤ i - m.length from hpos)] at hx
      cases hx

/-- The search runs past the last element. -/
theorem Fresh.findLoop {m : UFManager2} (h : m.Fresh) (n i : ℕ) : UFManager2.findLoop n i m = none := by
  induction n generalizing i with
  | zero => rfl
  | succ n ih =>
    rw [UFManager2.findLoop]
    cases hx : m[i]? with
    | none => rfl
    | some x =>
      have hp := h i x hx
      simp [hp, ih]

end UFManager2

namespace Factoring

variable (address : KleeArray → ℕ)

theorem fresh_accesses {f : Factoring} (h : f.manager.Fresh) (names : List String) :
    (f.accesses names).2.manager.Fresh := by
  induction names generalizing f with
  | nil => exact h
  | cons name names ih =>
    refine ih ?_
    change (f.access name).2.manager.Fresh
    rw [access]
    split
    · exact h
    · exact h.create name

theorem addConstraint_eq_none {f : Factoring} (h : f.manager.Fresh) (c : Expr) :
    f.addConstraint address c = none := by
  have hfresh := fresh_accesses h (accessNames (IndependentElementSet.ofExpr address c))
  unfold addConstraint
  dsimp only
  split
  · rfl
  next first rest _ =>
    rw [UFManager2.find, hfresh.findLoop]
    rfl

end Factoring

namespace IndependentSolver

variable {S : Type} (address : KleeArray → ℕ) (iterate : Iteration) (impl : SolverImpl S)

/-- Every query with a constraint leads to an access behind the last element. -/
theorem factors_cons {q : Query} {c : Expr} {cs : List Expr} (hq : q.constraints = c :: cs) :
    getAllIndependentConstraintSetsUF address iterate q = none := by
  rw [getAllIndependentConstraintSetsUF, hq, List.foldlM_cons,
    Factoring.addConstraint_eq_none address UFManager2.fresh_nil c]
  rfl

theorem factors_nil {q : Query} (hq : q.constraints = []) :
    getAllIndependentConstraintSetsUF address iterate q = some [] := by
  rw [getAllIndependentConstraintSetsUF, hq]
  change (iterate.order []).mapM _ = _
  rw [List.perm_nil.mp (iterate.order_perm [])]
  rfl

theorem computeInitialValues_cons {q : Query} {c : Expr} {cs : List Expr}
    (hq : q.constraints = c :: cs) (objects : List KleeArray) (s : S) :
    computeInitialValues address iterate impl false q objects s = none := by
  rw [computeInitialValues, factors_cons address iterate hq]
  rfl

/-- Without constraints every object is zero. -/
theorem computeInitialValues_nil {q : Query} (hq : q.constraints = []) (objects : List KleeArray)
    (s : S) :
    computeInitialValues address iterate impl false q objects s =
      some (some (some (objects.map fun a => List.replicate a.size 0, [])), s) := by
  rw [computeInitialValues, factors_nil address iterate hq]
  rfl

theorem fits_zero_iff (objects : List KleeArray) (σ : Assignment) :
    Fits objects (objects.map fun a => List.replicate a.size 0) [] σ ↔
      ∀ a ∈ objects, ∀ i < a.size, σ a i = 0 := by
  have hzero : ∀ a : KleeArray, (List.range a.size).map (σ a) = List.replicate a.size 0 ↔
      ∀ i < a.size, σ a i = 0 := by
    intro a
    rw [List.eq_replicate_iff]
    simp
  rw [Fits, ← List.map_prod_left_eq_zip]
  constructor
  · intro h a ha
    exact (hzero a).mp (h.1 a _ (List.mem_map_of_mem ha))
  · intro h
    refine ⟨fun a v hv => ?_, fun _ _ hv => absurd hv List.not_mem_nil⟩
    obtain ⟨b, hb, heq⟩ := List.mem_map.mp hv
    obtain ⟨rfl, rfl⟩ := Prod.mk.inj heq
    exact (hzero b).mpr (h b hb)

/-- The initial values are right exactly for a query without constraints whose expression
is false where the objects are zero. -/
theorem computeInitialValues_sound_iff (q : Query) (objects : List KleeArray) (s : S) :
    Sound q objects (computeInitialValues address iterate impl false q objects s) ↔
      q.constraints = [] ∧
        ∀ σ : Assignment, (∀ a ∈ objects, ∀ i < a.size, σ a i = 0) → ¬ Holds σ q.expr := by
  cases hq : q.constraints with
  | nil =>
    rw [computeInitialValues_nil address iterate impl hq]
    constructor
    · intro h
      exact ⟨rfl, fun σ hσ => (h σ ((fits_zero_iff objects σ).mpr hσ)).2⟩
    · rintro ⟨-, h⟩ σ hσ
      exact ⟨hq ▸ satisfies_nil σ, h σ ((fits_zero_iff objects σ).mp hσ)⟩
  | cons c cs =>
    rw [computeInitialValues_cons address iterate impl hq]
    simp [Sound]

/-- Two queries about an array of one byte. The first asks for a byte that is not zero and
gets zero; the second has the constraint that the byte is five. -/
theorem computeInitialValues_not_sound :
    let a : KleeArray := ⟨"a", 1, 0, []⟩
    let byte := Expr.read (.root a) (.alloc 0 32)
    let iterate : Iteration := ⟨id, fun _ => .refl _⟩
    let solve := computeInitialValues (fun _ => 0) iterate idealImpl false
    (∃ r, solve ⟨[], .binary .Eq (.alloc 0 8) byte⟩ [a] () = some (some (some ([[0]], r)), ())) ∧
      ¬ Sound ⟨[], .binary .Eq (.alloc 0 8) byte⟩ [a]
        (solve ⟨[], .binary .Eq (.alloc 0 8) byte⟩ [a] ()) ∧
      solve ⟨[.binary .Eq (.alloc 5 8) byte], .alloc 0 1⟩ [a] () = none := by
  intro a byte iterate solve
  have hnil := computeInitialValues_nil (fun _ => 0) iterate idealImpl
    (q := ⟨[], .binary .Eq (.alloc 0 8) byte⟩) rfl [a] ()
  refine ⟨⟨[], hnil⟩, ?_, computeInitialValues_cons _ _ _ rfl _ _⟩
  rw [show solve _ [a] () = _ from hnil]
  intro h
  refine (h (fun _ _ => 0) ((fits_zero_iff [a] _).mpr ?_)).2 ?_
  · exact fun _ _ _ _ => rfl
  · decide +kernel

/-- Both read the array at the same constant index. -/
def SameByte (c d : Expr) : Prop :=
  ∃ r ∈ c.reads, ∃ r' ∈ d.reads, ∃ i : APInt,
    r.1.array = r'.1.array ∧ r.2 = .constant i ∧ r'.2 = .constant i

/-- Every constraint is in one of the factors, and two that read the same byte are in the same. -/
structure Partitions (factors : List IndependentElementSet) (constraints : List Expr) : Prop where
  perm : (factors.flatMap IndependentElementSet.exprs).Perm constraints
  together : ∀ c ∈ constraints, ∀ d ∈ constraints, SameByte c d →
    ∃ f ∈ factors, c ∈ f.exprs ∧ d ∈ f.exprs

/-- Only where there is no constraint to divide does the division stay inside the vector. -/
theorem factors_partition_iff (q : Query) :
    (∃ factors, getAllIndependentConstraintSetsUF address iterate q = some factors ∧
      Partitions factors q.constraints) ↔ q.constraints = [] := by
  cases hq : q.constraints with
  | nil =>
    refine iff_of_true ⟨[], factors_nil address iterate hq, ⟨.refl _, ?_⟩⟩ rfl
    exact fun c hc => absurd hc List.not_mem_nil
  | cons c cs =>
    refine iff_of_false ?_ (List.cons_ne_nil c cs)
    rintro ⟨factors, hfactors, -⟩
    rw [factors_cons address iterate hq] at hfactors
    cases hfactors

/-- The constraint that a byte is five. -/
theorem factors_single_outside :
    let c := Expr.binary .Eq (.alloc 5 8) (.read (.root ⟨"a", 1, 0, []⟩) (.alloc 0 32))
    (∃ r ∈ c.reads, r.2.isConstant = true) ∧ (∀ r ∈ c.reads, r.2.isConstant = true) ∧
      getAllIndependentConstraintSetsUF (fun _ => 0) ⟨id, fun _ => .refl _⟩
        ⟨[c], .alloc 0 1⟩ = none := by
  intro c
  have hreads : c.reads = [(.root ⟨"a", 1, 0, []⟩, .alloc 0 32)] := rfl
  rw [hreads]
  refine ⟨⟨_, List.mem_singleton_self _, rfl⟩, ?_, factors_cons _ _ rfl⟩
  rw [List.forall_mem_singleton]
  rfl

end IndependentSolver

end TaseVerifier
