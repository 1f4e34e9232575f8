import TaseVerifier.Expr.CreateSound
import TaseVerifier.Solver.STPBuilder

/-! The terms that `Z3Builder` and `STPBuilder` build for expressions. As in the terms for
products and quotients, an `ExprHandle` is the value of its term in a model of the arrays;
`none` is an assertion that fails or a primitive applied to operands of a wrong sort. -/

namespace TaseVerifier

/-- The builder, with the option `optimizeDivides` of `STPBuilder`. -/
inductive Builder where
  | Z3
  | STP (optimizeDivides : Bool)
  deriving DecidableEq

/-- Expressions of width one are terms of the sort of truth values. -/
inductive ExprHandle where
  | bool (b : Bool)
  | bv (x : APInt)
  deriving DecidableEq

/-- The bytes that a model of the solver gives to the arrays, at all 32-bit indices. -/
abbrev ArrayModel := KleeArray → BitVec 32 → BitVec 8

namespace ExprHandle

def ofValue (x : APInt) : ExprHandle := if x.width = 1 then .bool x.isTrue else .bv x

def getBool : ExprHandle → Option Bool
  | .bool b => some b
  | .bv _ => none

def getBV : ExprHandle → Option APInt
  | .bool _ => none
  | .bv x => some x

/-! ### Primitives of the solvers -/

/-- There is no sort of bit vectors of width zero. -/
def const (x : APInt) : Option ExprHandle := if x.width = 0 then none else some (.bv x)

def iteExpr (condition whenTrue whenFalse : ExprHandle) : Option ExprHandle := do
  let c ← condition.getBool
  match whenTrue, whenFalse with
  | .bool t, .bool f => return .bool (if c then t else f)
  | .bv t, .bv f => if t.width = f.width then return .bv (if c then t else f) else none
  | _, _ => none

def boolExpr (op : Bool → Bool → Bool) (lhs rhs : ExprHandle) : Option ExprHandle := do
  return .bool (op (← lhs.getBool) (← rhs.getBool))

def notExpr (expr : ExprHandle) : Option ExprHandle := do return .bool (!(← expr.getBool))

def bvNotExpr (expr : ExprHandle) : Option ExprHandle := do return .bv (← expr.getBV).not

/-- A primitive on two bit vectors of one width. -/
def bvExpr (op : APInt → APInt → APInt) (lhs rhs : ExprHandle) : Option ExprHandle := do
  let x ← lhs.getBV
  let y ← rhs.getBV
  if x.width = y.width then return .bv (op x y) else none

/-- A comparison of two bit vectors of one width. -/
def cmpExpr (op : APInt → APInt → APInt) (lhs rhs : ExprHandle) : Option ExprHandle := do
  let x ← lhs.getBV
  let y ← rhs.getBV
  if x.width = y.width then return .bool (op x y).isTrue else none

def concatExpr (lhs rhs : ExprHandle) : Option ExprHandle := do
  return .bv ((← lhs.getBV).concat (← rhs.getBV))

def bvExtract (expr : ExprHandle) (top bottom : ℕ) : Option ExprHandle := do
  let x ← expr.getBV
  if bottom ≤ top ∧ top < x.width then return .bv (x.extract bottom (top - bottom + 1)) else none

def bvBoolExtract (expr : ExprHandle) (bit : ℕ) : Option ExprHandle := do
  cmpExpr APInt.eq (← bvExtract expr bit bit) (← const (APInt.ofNat 1 1))

def bvSignExtend (src : ExprHandle) (width : ℕ) : Option ExprHandle := do
  let x ← src.getBV
  if x.width ≤ width then return .bv (x.sext width) else none

def readExpr (array : BitVec 32 → BitVec 8) (index : ExprHandle) : Option ExprHandle := do
  let i ← index.getBV
  if i.width = 32 then return .bv ⟨8, array (i.val.setWidth 32)⟩ else none

def writeExpr (array : BitVec 32 → BitVec 8) (index value : ExprHandle) :
    Option (BitVec 32 → BitVec 8) := do
  let i ← index.getBV
  let v ← value.getBV
  if i.width = 32 ∧ v.width = 8 then
    return Function.update array (i.val.setWidth 32) (v.val.setWidth 8)
  else none

end ExprHandle

/-! ### Shifts -/

namespace STPBuilder

variable {w v : ℕ}

/-- The cases for one shift amount after the other, from `i - 1` down. -/
def shiftCases {k : ℕ} (shifted : ℕ → BitVec w) (amount : BitVec k) : ℕ → BitVec w → BitVec w
  | 0, res => res
  | i + 1, res =>
    shiftCases shifted amount i (vc_iteExpr (amount == bvConst32 k i) (shifted i) res)

/-- If overshifting, shift to zero. -/
def orZero (shift : BitVec v) (res : BitVec w) : BitVec w :=
  vc_iteExpr (shift.ult (bvConst32 v w)) res (bvZero w)

theorem shiftedWidth {shift : ℕ} (h : ¬ w ≤ shift) : shift + (w - 1 - shift + 1) = w := by omega

def constructAShrByConstant (expr : BitVec w) (shift : ℕ) (isSigned : Bool) : BitVec w :=
  if shift = 0 then expr
  else if h : w ≤ shift then bvZero w -- Overshift to zero
  else vc_iteExpr isSigned ((bvMinusOne shift ++ bvExtract expr (w - 1) shift).cast (shiftedWidth h))
    (bvRightShift expr shift)

def bvVarLeftShift (expr : BitVec w) (shift : BitVec v) : BitVec w :=
  orZero shift (shiftCases (bvLeftShift expr) (extractPartialShiftValue shift w) w (bvZero w))

def bvVarArithRightShift (expr : BitVec w) (shift : BitVec v) : BitVec w :=
  let signedBool := bvBoolExtract expr (w - 1)
  -- start with the result if shifting by width-1
  let res := constructAShrByConstant expr (w - 1) signedBool
  orZero shift (shiftCases (constructAShrByConstant expr · signedBool)
    (extractPartialShiftValue shift w) (w - 1) res)

end STPBuilder

namespace Z3Builder

open STPBuilder

variable {w v : ℕ}

def bvVarLeftShift (expr : BitVec w) (shift : BitVec v) : BitVec w :=
  orZero shift (shiftCases (bvLeftShift expr) shift w (bvZero w))

def bvVarRightShift (expr : BitVec w) (shift : BitVec v) : BitVec w :=
  orZero shift (shiftCases (bvRightShift expr) shift w (bvZero w))

def bvVarArithRightShift (expr : BitVec w) (shift : BitVec v) : BitVec w :=
  let signedBool := bvBoolExtract expr (w - 1)
  let res := constructAShrByConstant expr (w - 1) signedBool
  orZero shift (shiftCases (constructAShrByConstant expr · signedBool) shift (w - 1) res)

end Z3Builder

namespace bits64

def isPowerOfTwo (x : BitVec 64) : Bool := x ≠ 0#64 && x &&& (x - 1#64) == 0#64

end bits64

namespace Builder

open ExprHandle STPBuilder

/-- The shift by a variable amount. `STPBuilder` takes the low bits of the amount for the
cases, `Z3Builder` compares the amount itself. -/
def bvVarShift (b : Builder) (kind : BinaryKind) (expr amount : APInt) : Option APInt :=
  match b, kind with
  | .Z3, k =>
    if amount.width ≠ expr.width then none
    else match k with
      | .Shl => some ⟨_, Z3Builder.bvVarLeftShift expr.val amount.val⟩
      | .LShr => some ⟨_, Z3Builder.bvVarRightShift expr.val amount.val⟩
      | _ => some ⟨_, Z3Builder.bvVarArithRightShift expr.val amount.val⟩
  | .STP _, k =>
    if amount.width < expr.width.size then none
    else match k with
      | .Shl => some ⟨_, STPBuilder.bvVarLeftShift expr.val amount.val⟩
      | .LShr => some ⟨_, STPBuilder.bvVarRightShift expr.val amount.val⟩
      | _ => some ⟨_, STPBuilder.bvVarArithRightShift expr.val amount.val⟩

/-- `(unsigned) CE->getLimitedValue()`. -/
def limitedValue (c : APInt) : ℕ := min c.toNat (2 ^ 64 - 1) % 2 ^ 32

/-- The shift by a constant amount. -/
def bvShift (kind : BinaryKind) (expr : APInt) (shift : ℕ) : APInt :=
  match kind with
  | .Shl => ⟨_, bvLeftShift expr.val shift⟩
  | .LShr => ⟨_, bvRightShift expr.val shift⟩
  | _ =>
    ⟨_, constructAShrByConstant expr.val shift
      (STPBuilder.bvBoolExtract expr.val (expr.width - 1))⟩

/-! ### Constants -/

/-- The loop over the words of a wide constant. -/
def wideConstant (tmp res : APInt) : APInt :=
  if 64 < tmp.width then
    let tmp' := ConstantExpr.Extract tmp 64 (tmp.width - 64)
    wideConstant tmp' ((ConstantExpr.Extract tmp' 0 (min 64 tmp'.width)).concat res)
  else res
termination_by tmp.width
decreasing_by simp only [ConstantExpr.Extract]; omega

def constructConstant (c : APInt) : Option (ExprHandle × ℕ) :=
  if c.width = 1 then some (.bool c.isTrue, 1)
  else if c.width ≤ 64 then do return (← const c, c.width)
  else some (.bv (wideConstant c (ConstantExpr.Extract c 0 64)), c.width)

/-! ### Expressions -/

section Construct

variable (b : Builder)

/-- The operators with an assertion that the operands are no booleans. -/
def arithExpr (op : APInt → APInt → APInt) (left right : Option (ExprHandle × ℕ)) :
    Option (ExprHandle × ℕ) := do
  let (l, _) ← left
  let (r, width_out) ← right
  if width_out = 1 then none else return (← bvExpr op l r, width_out)

def logicExpr (op : Bool → Bool → Bool) (bvOp : APInt → APInt → APInt)
    (left right : Option (ExprHandle × ℕ)) : Option (ExprHandle × ℕ) := do
  let (l, _) ← left
  let (r, width_out) ← right
  if width_out = 1 then return (← boolExpr op l r, width_out)
  else return (← bvExpr bvOp l r, width_out)

def compareExpr (op : APInt → APInt → APInt) (left right : Option (ExprHandle × ℕ)) :
    Option (ExprHandle × ℕ) := do
  let (l, _) ← left
  let (r, width_out) ← right
  if width_out = 1 then none else return (← cmpExpr op l r, 1)

def constructMul (l : Expr) (left right : Option (ExprHandle × ℕ)) :
    Option (ExprHandle × ℕ) := do
  let (r, width_out) ← right
  if width_out = 1 then none
  else match b, l with
    | .STP _, .constant c =>
      if c.width ≤ 64 then do
        let x ← r.getBV
        return (.bv ⟨_, constructMulByConstant x.val (c.val.setWidth 64)⟩, width_out)
      else return (← bvExpr APInt.mul (← left).1 r, width_out)
    | _, _ => return (← bvExpr APInt.mul (← left).1 r, width_out)

def constructUDiv (r : Expr) (left right : Option (ExprHandle × ℕ)) :
    Option (ExprHandle × ℕ) := do
  let (l, width_out) ← left
  if width_out = 1 then none
  else
    let general := do return (← bvExpr APInt.udiv l (← right).1, width_out)
    match r with
    | .constant c =>
      let divisor := c.val.setWidth 64
      if 64 < c.width then general
      else if bits64.isPowerOfTwo divisor then do
        let x ← l.getBV
        return (.bv ⟨_, bvRightShift x.val (bits64.indexOfSingleBit divisor)⟩, width_out)
      else if b = .STP true ∧ width_out = 32 then do
        let x ← l.getBV
        return (.bv ⟨32, constructUDivByConstant (x.val.setWidth 32) divisor⟩, width_out)
      else general
    | _ => general

def constructSDiv (r : Expr) (left right : Option (ExprHandle × ℕ)) :
    Option (ExprHandle × ℕ) := do
  let (l, width_out) ← left
  if width_out = 1 then none
  else
    let general := do return (← bvExpr APInt.sdiv l (← right).1, width_out)
    match r with
    | .constant c =>
      if b = .STP true ∧ c.val ≠ 1#c.width ∧ c.val ≠ -1#c.width ∧ width_out = 32 then do
        let x ← l.getBV
        return (.bv ⟨32, constructSDivByConstant (x.val.setWidth 32) (c.val.setWidth 64)⟩,
          width_out)
      else general
    | _ => general

def constructURem (r : Expr) (left right : Option (ExprHandle × ℕ)) :
    Option (ExprHandle × ℕ) := do
  let (l, width_out) ← left
  if width_out = 1 then none
  else
    let general := do return (← bvExpr APInt.urem l (← right).1, width_out)
    match r with
    | .constant c =>
      let divisor := c.val.setWidth 64
      if 64 < c.width then general
      else if bits64.isPowerOfTwo divisor then
        let bits := bits64.indexOfSingleBit divisor
        -- special case for modding by 1 or else we bvExtract -1:0
        if bits = 0 then do return (← const (APInt.ofNat width_out 0), width_out)
        else do
          return (← concatExpr (← const (APInt.ofNat (width_out - bits) 0))
            (← bvExtract l (bits - 1) 0), width_out)
      else if b = .STP true ∧ width_out = 32 then do
        let x ← l.getBV
        let left := x.val.setWidth 32
        let quotient := constructUDivByConstant left divisor
        let quot_times_divisor := constructMulByConstant quotient divisor
        return (.bv ⟨32, left - quot_times_divisor⟩, width_out)
      else general
    | _ => general

def constructShift (kind : BinaryKind) (r : Expr) (left right : Option (ExprHandle × ℕ)) :
    Option (ExprHandle × ℕ) := do
  let (l, width_out) ← left
  if width_out = 1 then none
  else
    let x ← l.getBV
    match r with
    | .constant c => return (.bv (bvShift kind x (limitedValue c)), width_out)
    | _ => return (.bv (← b.bvVarShift kind x (← (← right).1.getBV)), width_out)

def constructEq (l : Expr) (left right : Option (ExprHandle × ℕ)) :
    Option (ExprHandle × ℕ) := do
  let (lhs, _) ← left
  let (rhs, width_out) ← right
  if width_out = 1 then
    match l with
    | .constant c => if c.isTrue then return (rhs, 1) else return (← notExpr rhs, 1)
    | _ => return (← boolExpr (· == ·) lhs rhs, 1)
  else return (← cmpExpr APInt.eq lhs rhs, 1)

/-- The binary kinds over the terms of the operands. The kinds that are not canonical are
not handled. -/
def constructBinary (kind : BinaryKind) (l r : Expr) (left right : Option (ExprHandle × ℕ)) :
    Option (ExprHandle × ℕ) :=
  match kind with
  | .Add => arithExpr APInt.add left right
  | .Sub => arithExpr APInt.sub left right
  | .Mul => b.constructMul l left right
  | .UDiv => b.constructUDiv r left right
  | .SDiv => b.constructSDiv r left right
  | .URem => b.constructURem r left right
  | .SRem => arithExpr APInt.srem left right
  | .And => logicExpr (· && ·) APInt.and left right
  | .Or => logicExpr (· || ·) APInt.or left right
  | .Xor => logicExpr (fun x y => if x then !y else y) APInt.xor left right
  | .Shl | .LShr | .AShr => b.constructShift kind r left right
  | .Eq => constructEq l left right
  | .Ult => compareExpr APInt.ult left right
  | .Ule => compareExpr APInt.ule left right
  | .Slt => compareExpr APInt.slt left right
  | .Sle => compareExpr APInt.sle left right
  | .Ne | .Ugt | .Uge | .Sgt | .Sge => none

def constructCast (kind : CastKind) (width : ℕ) (src : Option (ExprHandle × ℕ)) :
    Option (ExprHandle × ℕ) := do
  let (s, srcWidth) ← src
  match kind with
  | .ZExt =>
    if srcWidth = 1 then
      return (← iteExpr s (← const (APInt.ofNat width 1)) (← const (APInt.ofNat width 0)), width)
    else return (← concatExpr (← const (APInt.ofNat (width - srcWidth) 0)) s, width)
  | .SExt =>
    if srcWidth = 1 then
      return (← iteExpr s (← const ⟨width, bvMinusOne width⟩) (← const (APInt.ofNat width 0)),
        width)
    else return (← bvSignExtend s width, width)

def constructRead (array : Option (BitVec 32 → BitVec 8)) (index : Option (ExprHandle × ℕ)) :
    Option (ExprHandle × ℕ) := do
  return (← readExpr (← array) (← index).1, Width.Int8)

def constructSelect (cond tExpr fExpr : Option (ExprHandle × ℕ)) : Option (ExprHandle × ℕ) := do
  let (c, _) ← cond
  let (t, _) ← tExpr
  let (f, width_out) ← fExpr
  return (← iteExpr c t f, width_out)

def constructConcat (width : ℕ) (left right : Option (ExprHandle × ℕ)) :
    Option (ExprHandle × ℕ) := do
  return (← concatExpr (← left).1 (← right).1, width)

def constructExtract (offset width : ℕ) (src : Option (ExprHandle × ℕ)) :
    Option (ExprHandle × ℕ) := do
  let (s, _) ← src
  if width = 1 then return (← bvBoolExtract s offset, width)
  else return (← bvExtract s (offset + width - 1) offset, width)

def constructNot (src : Option (ExprHandle × ℕ)) : Option (ExprHandle × ℕ) := do
  let (expr, width_out) ← src
  if width_out = 1 then return (← notExpr expr, width_out)
  else return (← bvNotExpr expr, width_out)

variable (M : ArrayModel)

def writeConstant (root : KleeArray) (array : BitVec 32 → BitVec 8) (i : ℕ) :
    Option (BitVec 32 → BitVec 8) := do
  let (index, _) ← constructConstant (APInt.ofNat Width.Int32 i)
  let (value, _) ← constructConstant (← root.constantValues[i]?)
  writeExpr array index value

/-- The array of a root. The values of a constant array are written to it one by one. -/
def getInitialArray (root : KleeArray) : Option (BitVec 32 → BitVec 8) :=
  if root.isConstantArray then (List.range root.size).foldlM (writeConstant root) (M root)
  else some (M root)

def constructUpdate (array : Option (BitVec 32 → BitVec 8)) (index value : Option (ExprHandle × ℕ)) :
    Option (BitVec 32 → BitVec 8) := do
  writeExpr (← array) (← index).1 (← value).1

mutual
/-- `constructActual`: the term, and the width that is written to `*width_out`. -/
def construct : Expr → Option (ExprHandle × ℕ)
  | .constant c => constructConstant c
  | .notOptimized src => construct src
  | .read updates index => constructRead (getArrayForUpdate updates) (construct index)
  | .select c t f => constructSelect (construct c) (construct t) (construct f)
  | .concat l r => constructConcat (Expr.concat l r).getWidth (construct l) (construct r)
  | .extract e offset width => constructExtract offset width (construct e)
  | .not e => constructNot (construct e)
  | .cast kind src width => constructCast kind width (construct src)
  | .binary kind l r => b.constructBinary kind l r (construct l) (construct r)
def getArrayForUpdate : UpdateList → Option (BitVec 32 → BitVec 8)
  | .root array => getInitialArray M array
  | .node index value next =>
    constructUpdate (getArrayForUpdate next) (construct index) (construct value)
end

end Construct

end Builder

mutual
/-- The arrays that `getInitialArray` is called with. -/
def Expr.initialArrays : Expr → List KleeArray
  | .constant _ => []
  | .notOptimized src => src.initialArrays
  | .read updates index => updates.initialArrays ++ index.initialArrays
  | .select c t f => c.initialArrays ++ t.initialArrays ++ f.initialArrays
  | .concat l r => l.initialArrays ++ r.initialArrays
  | .extract e _ _ => e.initialArrays
  | .not e => e.initialArrays
  | .cast _ src _ => src.initialArrays
  | .binary _ l r => l.initialArrays ++ r.initialArrays
def UpdateList.initialArrays : UpdateList → List KleeArray
  | .root array => [array]
  | .node index value next => next.initialArrays ++ index.initialArrays ++ value.initialArrays
end

namespace Builder

theorem getInitialArray_congr {M M' : ArrayModel} {root : KleeArray} (h : M root = M' root) :
    getInitialArray M root = getInitialArray M' root := by
  rw [getInitialArray, getInitialArray, h]

variable {b : Builder} {M M' : ArrayModel}

mutual
/-- A term depends on the model of its own arrays. -/
theorem construct_congr : ∀ e : Expr, (∀ a ∈ e.initialArrays, M a = M' a) →
    b.construct M e = b.construct M' e
  | .constant _, _ => by rw [construct, construct]
  | .notOptimized src, h => by
    rw [construct, construct, construct_congr src h]
  | .read u i, h => by
    simp only [Expr.initialArrays, List.mem_append] at h
    rw [construct, construct, getArrayForUpdate_congr u fun a ha => h a (.inl ha),
      construct_congr i fun a ha => h a (.inr ha)]
  | .select c t f, h => by
    simp only [Expr.initialArrays, List.mem_append] at h
    rw [construct, construct, construct_congr c fun a ha => h a (.inl (.inl ha)),
      construct_congr t fun a ha => h a (.inl (.inr ha)),
      construct_congr f fun a ha => h a (.inr ha)]
  | .concat l r, h => by
    simp only [Expr.initialArrays, List.mem_append] at h
    rw [construct, construct, construct_congr l fun a ha => h a (.inl ha),
      construct_congr r fun a ha => h a (.inr ha)]
  | .extract e _ _, h => by
    rw [construct, construct, construct_congr e h]
  | .not e, h => by
    rw [construct, construct, construct_congr e h]
  | .cast _ e _, h => by
    rw [construct, construct, construct_congr e h]
  | .binary _ l r, h => by
    simp only [Expr.initialArrays, List.mem_append] at h
    rw [construct, construct, construct_congr l fun a ha => h a (.inl ha),
      construct_congr r fun a ha => h a (.inr ha)]
theorem getArrayForUpdate_congr : ∀ u : UpdateList, (∀ a ∈ u.initialArrays, M a = M' a) →
    b.getArrayForUpdate M u = b.getArrayForUpdate M' u
  | .root a, h => by
    have ha := h a (List.mem_singleton_self a)
    rw [getArrayForUpdate, getArrayForUpdate, getInitialArray_congr ha]
  | .node i v next, h => by
    simp only [UpdateList.initialArrays, List.mem_append] at h
    rw [getArrayForUpdate, getArrayForUpdate,
      getArrayForUpdate_congr next fun a ha => h a (.inl (.inl ha)),
      construct_congr i fun a ha => h a (.inl (.inr ha)),
      construct_congr v fun a ha => h a (.inr ha)]
end

end Builder

end TaseVerifier
