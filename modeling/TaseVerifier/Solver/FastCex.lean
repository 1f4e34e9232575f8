import TaseVerifier.Expr.Evaluator
import TaseVerifier.Solver.Query
import TaseVerifier.Solver.RangeEvaluator

/-! The fast counterexample solver. Every constraint is propagated downwards twice. The
possible values are a guess that is checked at the end; the exact values are what every
solution has to respect. Both are ranges, one for each byte of each array. -/

namespace TaseVerifier

open ValueRange CexRangeEvaluator

/-! ### The values of the bytes -/

/-- One range of possible and one of exact values for each index. There is always some
possible value: `setPossibleValues` is not called with an empty range. -/
structure CexObjectData where
  possibleContents : ℕ → ValueRange
  exactContents : ℕ → ValueRange
  possible_nonempty : ∀ i, (possibleContents i).isEmpty = false

namespace CexObjectData

def initial : CexObjectData := ⟨fun _ => full 8, fun _ => full 8, fun _ => rfl⟩

def setPossibleValues (o : CexObjectData) (index : ℕ) (values : ValueRange)
    (h : values.isEmpty = false) : CexObjectData :=
  { o with
    possibleContents := Function.update o.possibleContents index values
    possible_nonempty := fun i => by
      by_cases hi : i = index
      · rw [hi, Function.update_self]
        exact h
      · rw [Function.update_of_ne hi]
        exact o.possible_nonempty i }

def setExactValues (o : CexObjectData) (index : ℕ) (values : ValueRange) : CexObjectData :=
  { o with exactContents := Function.update o.exactContents index values }

/-- Some possible value, the middle one. -/
def getPossibleValue (o : CexObjectData) (index : ℕ) : ℕ :=
  let cvd := o.possibleContents index
  cvd.m_min + (cvd.m_max - cvd.m_min) / 2

end CexObjectData

structure CexData where
  objects : KleeArray → Option CexObjectData

namespace CexData

def initial : CexData := ⟨fun _ => none⟩

/-- The entry of the array, made if there is none. -/
def getObjectData (cd : CexData) (a : KleeArray) : CexObjectData :=
  (cd.objects a).getD .initial

def setObjectData (cd : CexData) (a : KleeArray) (o : CexObjectData) : CexData :=
  ⟨Function.update cd.objects a (some o)⟩

/-! ### Possible values -/

/-- A byte is guessed to be in the range, if it has one index. -/
def propogatePossibleRead (a : KleeArray) (i : Expr) (range : ValueRange) (cd : CexData) :
    CexData :=
  let cod := cd.getObjectData a
  match i with
  | .constant c =>
    let index := c.toNat
    if index < a.size then
      if range.isFixed then
        cd.setObjectData a (cod.setPossibleValues index (fixed (range.m_min % 2 ^ 8))
          (by simp [ValueRange.isEmpty, fixed]))
      else
        let tmp := (cod.possibleContents index).setIntersection range
        if h : tmp.isEmpty = false then cd.setObjectData a (cod.setPossibleValues index tmp h)
        else cd.setObjectData a cod
    else cd.setObjectData a cod
  | _ => cd.setObjectData a cod

/-- `1<<(inBits-1)` is an `int`; the processor shifts by the amount modulo 32. -/
def signBit (inBits : ℕ) : ℕ :=
  let bit := (inBits - 1) % 32
  if bit = 31 then 2 ^ 64 - 2 ^ 31 else 2 ^ bit

/-- What a sign extension may have extended. -/
def sextOutput (range : ValueRange) (inBits outBits : ℕ) : ValueRange :=
  range.setDifference
    ⟨signBit inBits, maxValueOfNBits outBits - maxValueOfNBits (inBits - 1) - 1⟩

/-- `C_0 + X` in the range. -/
def addOperand (range : ValueRange) (c : APInt) : ValueRange :=
  ⟨((APInt.ofNat c.width range.m_min).sub c).toNat, ((APInt.ofNat c.width range.m_max).sub c).toNat⟩

/-- The range for a value that is not the constant. -/
def otherValues (c : APInt) : ValueRange :=
  if c.toNat = 0 then ⟨1, maxValueOfNBits c.width⟩ else ⟨0, c.toNat - 1⟩

/-- The operand of a comparison that is to be narrowed, and the range for it. -/
inductive Operand where
  | left (range : ValueRange)
  | right (range : ValueRange)
  | none

def ultOperand (holds : Bool) (left right : ValueRange) (maxValue : ℕ) : Operand :=
  if left.isFixed then
    if holds then .right ⟨(left.m_min + 1) % 2 ^ 64, maxValue⟩ else .right ⟨0, left.m_min⟩
  else if right.isFixed then
    if holds then .left ⟨0, (right.m_min + (2 ^ 64 - 1)) % 2 ^ 64⟩
    else .left ⟨right.m_min, maxValue⟩
  else .none

def uleOperand (holds : Bool) (left right : ValueRange) (maxValue : ℕ) : Operand :=
  if left.isFixed then
    if holds then .right ⟨left.m_min, maxValue⟩
    else .right ⟨0, (left.m_min + (2 ^ 64 - 1)) % 2 ^ 64⟩
  else if right.isFixed then
    if holds then .left ⟨0, right.m_min⟩ else .left ⟨(right.m_min + 1) % 2 ^ 64, maxValue⟩
  else .none

def propogatePossibleValues : Expr → ValueRange → CexData → Except CexStop CexData
  | .constant _, _, cd | .notOptimized _, _, cd | .extract _ _ _, _, cd => pure cd
  | .read u i, range, cd => pure (propogatePossibleRead u.array i range cd)
  | .select c t f, range, cd => do
    let cond ← evaluate c
    if cond.isFixed then
      if cond.m_min ≠ 0 then propogatePossibleValues t range cd
      else propogatePossibleValues f range cd
    else
      let cd ← propogatePossibleValues t range cd
      propogatePossibleValues f range cd
  | .concat l r, range, cd => do
    -- both widths are that of the right part
    let LSBWidth := r.getWidth
    let MSBWidth := r.getWidth
    let cd ← propogatePossibleValues l (← range.extract LSBWidth (LSBWidth + MSBWidth)) cd
    propogatePossibleValues r (← range.extract 0 LSBWidth) cd
  | .cast .ZExt e _, range, cd =>
    propogatePossibleValues e (range.setIntersection (full e.getWidth)) cd
  | .cast .SExt e w, range, cd => do
    let input ← (sextOutput range e.getWidth w).binaryAnd (fixed (maxValueOfNBits e.getWidth))
    propogatePossibleValues e input cd
  | .not e, range, cd =>
    if e.getWidth = Width.Bool ∧ range.isFixed then
      propogatePossibleValues e (fixed (if range.m_min = 0 then 1 else 0)) cd
    else pure cd
  | .binary k l r, range, cd =>
    match k with
    | .Add =>
      match l with
      | .constant c =>
        if c.width ≤ 64 ∧ range.isEmpty = false ∧ (addOperand range c).isEmpty = false then
          propogatePossibleValues r (addOperand range c) cd
        else pure cd
      | _ => pure cd
    | .And =>
      if l.getWidth = Width.Bool ∧ range.isFixed then do
        let left ← evaluate l
        let right ← evaluate r
        if range.m_min = 0 then
          if left.mustEqual (fixed 0) || right.mustEqual (fixed 0) then pure cd
          else
            let cd ← propogatePossibleValues l (fixed 0) cd
            let left ← evaluate l
            if left.mustEqual (fixed 1) then pure cd else propogatePossibleValues r (fixed 0) cd
        else
          let cd ← if left.mustEqual (fixed 1) then pure cd
            else propogatePossibleValues l (fixed 1) cd
          if right.mustEqual (fixed 1) then pure cd else propogatePossibleValues r (fixed 1) cd
      else pure cd
    | .Or =>
      if l.getWidth = Width.Bool ∧ range.isFixed then do
        let left ← evaluate l
        let right ← evaluate r
        if range.m_min ≠ 0 then
          if left.mustEqual (fixed 1) || right.mustEqual (fixed 1) then pure cd
          else
            let cd ← propogatePossibleValues l (fixed 1) cd
            let left ← evaluate l
            if left.mustEqual (fixed 1) then pure cd else propogatePossibleValues r (fixed 1) cd
        else
          let cd ← if left.mustEqual (fixed 0) then pure cd
            else propogatePossibleValues l (fixed 0) cd
          if right.mustEqual (fixed 0) then pure cd else propogatePossibleValues r (fixed 0) cd
      else pure cd
    | .Eq =>
      match l with
      | .constant c =>
        if range.isFixed ∧ c.width ≤ 64 then
          propogatePossibleValues r (if range.m_min ≠ 0 then fixed c.toNat else otherValues c) cd
        else pure cd
      | _ => pure cd
    | .Ult =>
      if range.isFixed then do
        match ultOperand (range.m_min ≠ 0) (← evaluate l) (← evaluate r)
            (maxValueOfNBits r.getWidth) with
        | .left range => propogatePossibleValues l range cd
        | .right range => propogatePossibleValues r range cd
        | .none => pure cd
      else pure cd
    | .Ule =>
      if range.isFixed then do
        match uleOperand (range.m_min ≠ 0) (← evaluate l) (← evaluate r)
            (maxValueOfNBits r.getWidth) with
        | .left range => propogatePossibleValues l range cd
        | .right range => propogatePossibleValues r range cd
        | .none => pure cd
      else pure cd
    | .Ne | .Ugt | .Uge | .Sgt | .Sge => throw .uncanonicalized
    | _ => pure cd

/-! ### Exact values -/

/-- The exact range of a byte becomes smaller; the assertions keep it from becoming empty. -/
def narrowExact (cvd range : ValueRange) : Except CexStop ValueRange := do
  let cvd ← if (← cvd.min) < (← range.min) then
      if (← range.min) ≤ (← cvd.max) then pure ⟨← range.min, ← cvd.max⟩ else throw .exactConflict
    else pure cvd
  if (← range.max) < (← cvd.max) then
    if (← cvd.min) ≤ (← range.max) then pure ⟨← cvd.min, ← range.max⟩ else throw .exactConflict
  else pure cvd

/-- The initial byte of an array is reached. A constant is not narrowed. -/
def propogateExactRoot (a : KleeArray) (index range : ValueRange) (cd : CexData) :
    Except CexStop CexData :=
  if index.isFixed then
    if index.m_min < a.size then
      if a.isConstantArray then pure cd
      else do
        let cod := cd.getObjectData a
        let cvd ← narrowExact (cod.exactContents index.m_min) range
        pure (cd.setObjectData a (cod.setExactValues index.m_min cvd))
    else throw .outsideArray
  else pure cd

mutual
def propogateExactValues : Expr → ValueRange → CexData → Except CexStop CexData
  | .read u i, range, cd => do
    let cd := cd.setObjectData u.array (cd.getObjectData u.array)
    propogateExactRead (← evaluate i) i range u cd
  | .not e, range, cd =>
    if e.getWidth = Width.Bool ∧ range.isFixed then
      propogateExactValues e (fixed (if range.m_min = 0 then 1 else 0)) cd
    else pure cd
  | .binary k l r, range, cd =>
    match k with
    | .Eq =>
      match l with
      | .constant c =>
        if range.isFixed ∧ c.width ≤ 64 then
          if range.m_min ≠ 0 then propogateExactValues r (fixed c.toNat) cd
          else if r.getWidth = Width.Bool then
            propogateExactValues r (fixed (if c.toNat = 0 then 1 else 0)) cd
          else pure cd
        else pure cd
      | _ => pure cd
    | .Ne | .Ugt | .Uge | .Sgt | .Sge => throw .uncanonicalized
    | _ => pure cd
  | .constant _, _, cd | .notOptimized _, _, cd | .select _ _ _, _, cd | .concat _ _, _, cd
  | .extract _ _ _, _, cd | .cast _ _ _, _, cd => pure cd
/-- The loop over the updates of a read. -/
def propogateExactRead (index : ValueRange) (i : Expr) (range : ValueRange) :
    UpdateList → CexData → Except CexStop CexData
  | .root a, cd => propogateExactRoot a index range cd
  | .node j v next, cd => do
    let ui ← evaluate j
    if !ui.mayEqual index then propogateExactRead index i range next cd
    else if ui.mustEqual index || i = j then propogateExactValues v range cd
    else pure cd
end

/-! ### The evaluators and the result -/

/-- `CexPossibleEvaluator::getInitialValue`. -/
def possibleInitialValue (cd : CexData) (a : KleeArray) (index : ℕ) : Expr :=
  if a.size ≤ index then ReadExpr.create (.root a) (.alloc index Width.Int32)
  else match cd.objects a with
    | none => .alloc 127 Width.Int8
    | some o => .alloc (o.getPossibleValue index) Width.Int8

/-- `CexExactEvaluator::getInitialValue`. -/
def exactInitialValue (cd : CexData) (a : KleeArray) (index : ℕ) : Expr :=
  let unknown := ReadExpr.create (.root a) (.alloc index Width.Int32)
  if a.size ≤ index then unknown
  else match cd.objects a with
    | none => unknown
    | some o =>
      let cvd := o.exactContents index
      if cvd.isFixed then .alloc cvd.m_min Width.Int8 else unknown

def evaluatePossible (cd : CexData) (e : Expr) : Except CexStop Expr :=
  (ExprEvaluator.visitWith cd.possibleInitialValue e).mapError .evaluation

def evaluateExact (cd : CexData) (e : Expr) : Except CexStop Expr :=
  (ExprEvaluator.visitWith cd.exactInitialValue e).mapError .evaluation

/-- A constraint or the query expression is propagated with its value. -/
def propogate (cd : CexData) (e : Expr) (value : ℕ) : Except CexStop CexData := do
  let cd ← propogatePossibleValues e (fixed value) cd
  propogateExactValues e (fixed value) cd

/-- The second loop over the constraints: `isValid`, or nothing. -/
def checkConstraints (cd : CexData) : Bool → List Expr → Except CexStop (Option Bool)
  | hasSatisfyingAssignment, [] => pure (if hasSatisfyingAssignment then some false else none)
  | hasSatisfyingAssignment, c :: cs => do
    let hasSatisfyingAssignment ←
      if hasSatisfyingAssignment then do pure (← cd.evaluatePossible c).isTrue else pure false
    if (← cd.evaluateExact c).isFalse then pure (some true)
    else checkConstraints cd hasSatisfyingAssignment cs

/-- `isValid`, where the propagated values decide it. -/
def checkResult (cd : CexData) (q : Query) (checkExpr : Bool) : Except CexStop (Option Bool) :=
  if checkExpr then do
    let hasSatisfyingAssignment := (← cd.evaluatePossible q.expr).isFalse
    -- a query that is known to be true is valid
    if (← cd.evaluateExact q.expr).isTrue then pure (some true)
    else cd.checkConstraints hasSatisfyingAssignment q.constraints
  else cd.checkConstraints true q.constraints

end CexData

/-- The data and, where validity was decided, `isValid`. -/
def propogateValues (q : Query) (checkExpr : Bool) : Except CexStop (CexData × Option Bool) := do
  let cd ← q.constraints.foldlM (fun cd c => cd.propogate c 1) CexData.initial
  let cd ← if checkExpr then cd.propogate q.expr 0 else pure cd
  pure (cd, ← cd.checkResult q checkExpr)

end TaseVerifier
