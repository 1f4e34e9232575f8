import TaseVerifier.Expr.Eval

/-! The simplifying constructors of the expression library. Every function keeps
its name in the source, with the class as its namespace: `EqExpr.createPartialR`
is `EqExpr_createPartialR`. The option `const-array-opt` has its default value, off, so
that `EqExpr_createPartialR` has no case for reads; `ConstArrayOpt` has the constructors
with the option as an argument. -/

namespace TaseVerifier

/-- Where the process stops instead of returning. -/
inductive Abort where
  /-- `APInt` asserts a non-zero divisor. -/
  | divideByZero
  /-- `addConstraintInternal`: attempt to add invalid (false) constraint. -/
  | invalidConstraint
  /-- The recursion of `addConstraintInternal` was cut off. -/
  | diverged
  deriving DecidableEq

namespace ConstantExpr

/-- Folding an extract shifts arithmetically and truncates. -/
def Extract (c : APInt) (off w : ℕ) : APInt := ⟨w, (c.val.sshiftRight off).setWidth w⟩

end ConstantExpr

namespace AndExpr

def createPartial (l : Expr) (cr : APInt) : Expr :=
  if cr.isAllOnes then l
  else if cr.isZero then .constant cr
  else .binary .And l (.constant cr)

def createPartialR (cl : APInt) (r : Expr) : Expr := createPartial r cl

def create : Expr → Expr → Expr
  | .constant cl, .constant cr => .constant (cl.and cr)
  | .constant cl, r => createPartialR cl r
  | l, .constant cr => createPartial l cr
  | l, r => .binary .And l r

end AndExpr

namespace OrExpr

def createPartial (l : Expr) (cr : APInt) : Expr :=
  if cr.isAllOnes then .constant cr
  else if cr.isZero then l
  else .binary .Or l (.constant cr)

def createPartialR (cl : APInt) (r : Expr) : Expr := createPartial r cl

def create : Expr → Expr → Expr
  | .constant cl, .constant cr => .constant (cl.or cr)
  | .constant cl, r => createPartialR cl r
  | l, .constant cr => createPartial l cr
  | l, r => .binary .Or l r

end OrExpr

namespace EqExpr

/-- `EqExpr_create`. -/
def create' (l r : Expr) : Expr :=
  if l = r then Expr.alloc 1 Width.Bool else .binary .Eq l r

/-- `EqExpr::create(e, c)` for a constant `c`, where `rest` is the result for a
non-constant `e`. -/
def foldOr (e : Expr) (c : APInt) (rest : Expr) : Expr :=
  match e with
  | .constant k => .constant (k.eq c)
  | _ => rest

def createPartialR (cl : APInt) (r : Expr) : Expr :=
  if cl.width = Width.Bool then
    if cl.isTrue then r
    else match r with
      | .binary .Eq (.constant c) a =>
        if c.isFalse then a else create' (.constant cl) (.binary .Eq (.constant c) a)
      -- not (a or b) is (not a) and (not b)
      | .binary .Or a b =>
        AndExpr.create
          (foldOr a (APInt.ofNat a.getWidth 0) (createPartialR (APInt.ofNat a.getWidth 0) a))
          (foldOr b (APInt.ofNat b.getWidth 0) (createPartialR (APInt.ofNat b.getWidth 0) b))
      | r => create' (.constant cl) r
  else match r with
    | .cast .SExt a _ =>
      let trunc := cl.zext a.getWidth
      if cl = trunc.sext cl.width then foldOr a trunc (createPartialR trunc a)
      else Expr.alloc 0 Width.Bool
    | .cast .ZExt a _ =>
      let trunc := cl.zext a.getWidth
      if cl = trunc.zext cl.width then foldOr a trunc (createPartialR trunc a)
      else Expr.alloc 0 Width.Bool
    | .binary .Add (.constant k) b => createPartialR (cl.sub k) b
    | .binary .Sub (.constant k) b => createPartialR (k.sub cl) b
    | r => create' (.constant cl) r

def createPartial (l : Expr) (cr : APInt) : Expr := createPartialR cr l

def create : Expr → Expr → Expr
  | .constant cl, .constant cr => .constant (cl.eq cr)
  | .constant cl, r => createPartialR cl r
  | l, .constant cr => createPartial l cr
  | l, r => create' l r

end EqExpr

/-- `Expr::createIsZero`. -/
def Expr.createIsZero (e : Expr) : Expr := EqExpr.create e (Expr.alloc 0 e.getWidth)

namespace XorExpr

def createPartialR (cl : APInt) (r : Expr) : Expr :=
  if cl.isZero then r
  else if cl.width = Width.Bool then EqExpr.createPartial r (APInt.ofNat Width.Bool 0)
  else .binary .Xor (.constant cl) r

def createPartial (l : Expr) (cr : APInt) : Expr := createPartialR cr l

def create : Expr → Expr → Expr
  | .constant cl, .constant cr => .constant (cl.xor cr)
  | .constant cl, r => createPartialR cl r
  | l, .constant cr => createPartial l cr
  | l, r => .binary .Xor l r

end XorExpr

/-- `_op::create(c, e)` for a constant `c`: fold, or the partial constructor `rest`. -/
def foldConst (op : APInt → APInt → APInt) (c : APInt) (e rest : Expr) : Expr :=
  match e with
  | .constant k => .constant (op c k)
  | _ => rest

mutual
def AddExpr.createPartialR (cl : APInt) (r : Expr) : Expr :=
  if cl.width = Width.Bool then XorExpr.createPartialR cl r
  else if cl.isZero then r
  else match r with
    | .binary .Add (.constant b) c =>
      foldConst APInt.add (cl.add b) c (AddExpr.createPartialR (cl.add b) c)
    | .binary .Sub (.constant b) c =>
      foldConst APInt.sub (cl.add b) c (SubExpr.createPartialR (cl.add b) c)
    | r => .binary .Add (.constant cl) r
def SubExpr.createPartialR (cl : APInt) (r : Expr) : Expr :=
  if cl.width = Width.Bool then XorExpr.createPartialR cl r
  else match r with
    | .binary .Add (.constant b) c =>
      foldConst APInt.sub (cl.sub b) c (SubExpr.createPartialR (cl.sub b) c)
    | .binary .Sub (.constant b) c =>
      foldConst APInt.add (cl.sub b) c (AddExpr.createPartialR (cl.sub b) c)
    | r => .binary .Sub (.constant cl) r
end

/-- `AddExpr::create` with a constant on the left. -/
def AddExpr.createC (cl : APInt) (r : Expr) : Expr :=
  foldConst APInt.add cl r (AddExpr.createPartialR cl r)

/-- `SubExpr::create` with a constant on the left. -/
def SubExpr.createC (cl : APInt) (r : Expr) : Expr :=
  foldConst APInt.sub cl r (SubExpr.createPartialR cl r)

def AddExpr.createPartial (l : Expr) (cr : APInt) : Expr := AddExpr.createPartialR cr l

/-- `l - c` is `l + (-c)`. -/
def SubExpr.createPartial (l : Expr) (cr : APInt) : Expr :=
  AddExpr.createPartial l ((APInt.ofNat cr.width 0).sub cr)

/-- `SubExpr::create` with a constant on the right. -/
def SubExpr.createCR (l : Expr) (cr : APInt) : Expr :=
  match l with
  | .constant cl => .constant (cl.sub cr)
  | l => SubExpr.createPartial l cr

mutual
/-- `AddExpr::create`, with `AddExpr_create` as its last case. -/
def AddExpr.create (l r : Expr) : Expr :=
  match l, r with
  | .constant cl, .constant cr => .constant (cl.add cr)
  | .constant cl, r => AddExpr.createPartialR cl r
  | l, .constant cr => AddExpr.createPartial l cr
  | l, r =>
    if l.getWidth = Width.Bool then .binary .Xor l r
    else match l, r with
      | .binary .Add (.constant k) a, r => AddExpr.createC k (AddExpr.create a r)
      | .binary .Sub (.constant k) a, r => AddExpr.createC k (SubExpr.create r a)
      | l, .binary .Add (.constant k) b => AddExpr.createC k (AddExpr.create l b)
      | l, .binary .Sub (.constant k) b => AddExpr.createC k (SubExpr.create l b)
      | l, r => .binary .Add l r
termination_by sizeOf l + sizeOf r
/-- `SubExpr::create`, with `SubExpr_create` as its last case. -/
def SubExpr.create (l r : Expr) : Expr :=
  match l, r with
  | .constant cl, .constant cr => .constant (cl.sub cr)
  | .constant cl, r => SubExpr.createPartialR cl r
  | l, .constant cr => SubExpr.createPartial l cr
  | l, r =>
    if l.getWidth = Width.Bool then .binary .Xor l r
    else if l = r then Expr.alloc 0 l.getWidth
    else match l, r with
      | .binary .Add (.constant k) a, r => AddExpr.createC k (SubExpr.create a r)
      | .binary .Sub (.constant k) a, r => SubExpr.createC k (AddExpr.create a r)
      | l, .binary .Add (.constant k) b => SubExpr.createCR (SubExpr.create l b) k
      | l, .binary .Sub (.constant k) b => SubExpr.createCR (AddExpr.create l b) k
      | l, r => .binary .Sub l r
termination_by sizeOf l + sizeOf r
end

namespace MulExpr

def createPartialR (cl : APInt) (r : Expr) : Expr :=
  if cl.width = Width.Bool then AndExpr.createPartialR cl r
  else if cl.isOne then r
  else if cl.isZero then .constant cl
  else .binary .Mul (.constant cl) r

def createPartial (l : Expr) (cr : APInt) : Expr := createPartialR cr l

def create : Expr → Expr → Expr
  | .constant cl, .constant cr => .constant (cl.mul cr)
  | .constant cl, r => createPartialR cl r
  | l, .constant cr => createPartial l cr
  | l, r => if l.getWidth = Width.Bool then .binary .And l r else .binary .Mul l r

end MulExpr

/-- `BCREATE` for the four divisions: constants are folded (`APInt` asserts on a
zero divisor), booleans take the value for the divisor one. -/
def divCreate (k : BinaryKind) (bool : Expr → Expr) : Expr → Expr → Except Abort Expr
  | .constant cl, .constant cr =>
    if cr.isZero then throw .divideByZero else pure (.constant (k.apply cl cr))
  | l, r => pure (if l.getWidth = Width.Bool then bool l else .binary k l r)

def UDivExpr.create : Expr → Expr → Except Abort Expr := divCreate .UDiv id
def SDivExpr.create : Expr → Expr → Except Abort Expr := divCreate .SDiv id
def URemExpr.create : Expr → Expr → Except Abort Expr :=
  divCreate .URem fun _ => Expr.alloc 0 Width.Bool
def SRemExpr.create : Expr → Expr → Except Abort Expr :=
  divCreate .SRem fun _ => Expr.alloc 0 Width.Bool

/-- `BCREATE` and `CMPCREATE`: constants are folded, booleans take the form `bool`. -/
def plainCreate (k : BinaryKind) (bool : Expr → Expr → Expr) : Expr → Expr → Expr
  | .constant cl, .constant cr => .constant (k.apply cl cr)
  | l, r => if l.getWidth = Width.Bool then bool l r else .binary k l r

def ShlExpr.create : Expr → Expr → Expr :=
  plainCreate .Shl fun l r => AndExpr.create l r.createIsZero
def LShrExpr.create : Expr → Expr → Expr :=
  plainCreate .LShr fun l r => AndExpr.create l r.createIsZero
def AShrExpr.create : Expr → Expr → Expr := plainCreate .AShr fun l _ => l
def UltExpr.create : Expr → Expr → Expr :=
  plainCreate .Ult fun l r => AndExpr.create l.createIsZero r
def UleExpr.create : Expr → Expr → Expr :=
  plainCreate .Ule fun l r => OrExpr.create l.createIsZero r
def SltExpr.create : Expr → Expr → Expr :=
  plainCreate .Slt fun l r => AndExpr.create l r.createIsZero
def SleExpr.create : Expr → Expr → Expr :=
  plainCreate .Sle fun l r => OrExpr.create l r.createIsZero
def NeExpr.create (l r : Expr) : Expr :=
  EqExpr.create (Expr.alloc 0 Width.Bool) (EqExpr.create l r)
def UgtExpr.create (l r : Expr) : Expr := UltExpr.create r l
def UgeExpr.create (l r : Expr) : Expr := UleExpr.create r l
def SgtExpr.create (l r : Expr) : Expr := SltExpr.create r l
def SgeExpr.create (l r : Expr) : Expr := SleExpr.create r l

/-- The virtual `rebuild` of the binary classes. -/
def BinaryExpr.create : BinaryKind → Expr → Expr → Except Abort Expr
  | .Add, l, r => pure (AddExpr.create l r)
  | .Sub, l, r => pure (SubExpr.create l r)
  | .Mul, l, r => pure (MulExpr.create l r)
  | .UDiv, l, r => UDivExpr.create l r
  | .SDiv, l, r => SDivExpr.create l r
  | .URem, l, r => URemExpr.create l r
  | .SRem, l, r => SRemExpr.create l r
  | .And, l, r => pure (AndExpr.create l r)
  | .Or, l, r => pure (OrExpr.create l r)
  | .Xor, l, r => pure (XorExpr.create l r)
  | .Shl, l, r => pure (ShlExpr.create l r)
  | .LShr, l, r => pure (LShrExpr.create l r)
  | .AShr, l, r => pure (AShrExpr.create l r)
  | .Eq, l, r => pure (EqExpr.create l r)
  | .Ne, l, r => pure (NeExpr.create l r)
  | .Ult, l, r => pure (UltExpr.create l r)
  | .Ule, l, r => pure (UleExpr.create l r)
  | .Ugt, l, r => pure (UgtExpr.create l r)
  | .Uge, l, r => pure (UgeExpr.create l r)
  | .Slt, l, r => pure (SltExpr.create l r)
  | .Sle, l, r => pure (SleExpr.create l r)
  | .Sgt, l, r => pure (SgtExpr.create l r)
  | .Sge, l, r => pure (SgeExpr.create l r)

namespace ReadExpr

/-- The walk over the update list: the value of an update known to hit, or
whether the walk was stopped by an update that may hit. -/
def scan (index : Expr) : UpdateList → Expr ⊕ Bool
  | .root _ => .inr false
  | .node i value next =>
    match EqExpr.create index i with
    | .constant c => if c.isTrue then .inl value else scan index next
    | _ => .inr true

def create (ul : UpdateList) (index : Expr) : Expr :=
  match scan index ul with
  | .inl value => value
  | .inr updateListHasSymbolicWrites =>
    if ul.array.isConstantArray && !updateListHasSymbolicWrites then
      match index with
      | .constant c =>
        if c.toNat < ul.array.size then
          .constant (ul.array.constantValues[c.toNat]?.getD (APInt.ofNat Width.Int8 0))
        else .read ul index
      | _ => .read ul index
    else .read ul index

end ReadExpr

namespace SelectExpr

def create (c t f : Expr) : Expr :=
  match c with
  | .constant cc => if cc.isTrue then t else f
  | c =>
    if t = f then t
    else if t.getWidth = Width.Bool then
      match t, f with
      | .constant ct, f =>
        if ct.isTrue then OrExpr.create c f else AndExpr.create c.createIsZero f
      | t, .constant cf =>
        if cf.isTrue then OrExpr.create c.createIsZero t else AndExpr.create c t
      | t, f => .select c t f
    else .select c t f

end SelectExpr

/-- `ConcatExpr::create`, given the extract constructor it merges with. -/
def ConcatExpr.merge (extract : Expr → ℕ → ℕ → Expr) (l r : Expr) : Expr :=
  match l, r with
  | .constant a, .constant b => .constant (a.concat b)
  | .extract e o w, .extract e' o' w' =>
    if e = e' ∧ o' + w' = o then extract e o' (w + w')
    else .concat (.extract e o w) (.extract e' o' w')
  | l, r => .concat l r

namespace ExtractExpr

/-- The nesting of concatenations and extracts at the top of an operand. -/
def height : Expr → ℕ
  | .concat l r => max (height l) (height r) + 1
  | .extract e _ _ => height e + 1
  | _ => 1

/-- `ExtractExpr::create`. The recursion descends through concatenations and the
extracts they merge, so the height of the operand bounds its depth. -/
def createF : ℕ → Expr → ℕ → ℕ → Expr
  | 0, e, off, w => .extract e off w
  | n + 1, e, off, w =>
    if w = e.getWidth then e
    else match e with
      | .constant c => .constant (ConstantExpr.Extract c off w)
      | .concat l r =>
        if r.getWidth ≤ off then createF n l (off - r.getWidth) w
        else if off + w ≤ r.getWidth then createF n r off w
        -- the width `w - right + off` of the left part is computed modulo 2^32
        else ConcatExpr.merge (createF n) (createF n l 0 (w + off - r.getWidth))
          (createF n r off (r.getWidth - off))
      | e => .extract e off w

def create (e : Expr) (off w : ℕ) : Expr := createF (height e) e off w

end ExtractExpr

def ConcatExpr.create (l r : Expr) : Expr := ConcatExpr.merge ExtractExpr.create l r

def NotExpr.create : Expr → Expr
  | .constant c => .constant c.not
  | e => .not e

def NotOptimizedExpr.create (src : Expr) : Expr := .notOptimized src

/-- `ZExtExpr::create` and `SExtExpr::create`. -/
def CastExpr.create (k : CastKind) (e : Expr) (w : ℕ) : Expr :=
  if w = e.getWidth then e
  else if w < e.getWidth then ExtractExpr.create e 0 w
  else match e with
    | .constant c => .constant (k.apply c w)
    | e => .cast k e w

def ZExtExpr.create (e : Expr) (w : ℕ) : Expr := CastExpr.create .ZExt e w
def SExtExpr.create (e : Expr) (w : ℕ) : Expr := CastExpr.create .SExt e w

end TaseVerifier
