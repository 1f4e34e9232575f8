import TaseVerifier.Expr.APInt

/-! The expression language of the solver chain. Expressions and update lists are
one mutual family: a read carries the update list it goes through, and the
indices and values of an update list are expressions again. -/

namespace TaseVerifier

/-- An array object. `ufe` is the handle of its union-find element; it is handed
out once per constructed array and so also stands for the object's identity.
`constantValues` is empty for a symbolic array. -/
structure KleeArray where
  name : String
  size : ℕ
  ufe : ℕ
  constantValues : List APInt := []
  deriving DecidableEq

namespace KleeArray

def isSymbolicArray (a : KleeArray) : Bool := a.constantValues.isEmpty

def isConstantArray (a : KleeArray) : Bool := !a.isSymbolicArray

end KleeArray

inductive CastKind where
  | ZExt | SExt
  deriving DecidableEq

inductive BinaryKind where
  | Add | Sub | Mul | UDiv | SDiv | URem | SRem
  | And | Or | Xor | Shl | LShr | AShr
  | Eq | Ne | Ult | Ule | Ugt | Uge | Slt | Sle | Sgt | Sge
  deriving DecidableEq

namespace BinaryKind

/-- The kinds between `CmpKindFirst` and `CmpKindLast`. -/
def isCmp : BinaryKind → Bool
  | .Eq | .Ne | .Ult | .Ule | .Ugt | .Uge | .Slt | .Sle | .Sgt | .Sge => true
  | _ => false

def isDivision : BinaryKind → Bool
  | .UDiv | .SDiv | .URem | .SRem => true
  | _ => false

/-- The kinds of arithmetic that a constructor does away with on booleans by rules of its own:
a divisor is taken to be one, the amount of an arithmetic shift to be zero. -/
def notOnBool (k : BinaryKind) : Bool := k.isDivision || k == .AShr

end BinaryKind

mutual
/-- `klee::Expr` with its subclasses; the cast and the binary classes are one
constructor each, told apart by their kind. -/
inductive Expr where
  | constant (value : APInt)
  | notOptimized (src : Expr)
  | read (updates : UpdateList) (index : Expr)
  | select (cond trueExpr falseExpr : Expr)
  | concat (left right : Expr)
  | extract (expr : Expr) (offset width : ℕ)
  | not (expr : Expr)
  | cast (kind : CastKind) (src : Expr) (width : ℕ)
  | binary (kind : BinaryKind) (left right : Expr)
  deriving DecidableEq
/-- An update list: the nodes from the most recent one down to the root array. -/
inductive UpdateList where
  | root (array : KleeArray)
  | node (index value : Expr) (next : UpdateList)
  deriving DecidableEq
end

namespace UpdateList

def array : UpdateList → KleeArray
  | .root a => a
  | .node _ _ next => next.array

def extend (u : UpdateList) (index value : Expr) : UpdateList := .node index value u

end UpdateList

/-! The widths that have a name in the source. An array is indexed at `Int32` (its
domain) and holds cells of `Int8` (its range). -/

namespace Width

def Bool : ℕ := 1
def Int8 : ℕ := 8
def Int16 : ℕ := 16
def Int32 : ℕ := 32
def Int64 : ℕ := 64

end Width

namespace Expr

/-- `ConstantExpr::alloc(v, w)`. -/
def alloc (v w : ℕ) : Expr := .constant (APInt.ofNat w v)

def isConstant : Expr → Bool
  | .constant _ => true
  | _ => false

/-- A constant, with the value true. -/
def isTrue : Expr → Bool
  | .constant c => c.isTrue
  | _ => false

/-- A constant, with the value false. -/
def isFalse : Expr → Bool
  | .constant c => c.isFalse
  | _ => false

theorem isConstant_iff {e : Expr} : e.isConstant = true ↔ ∃ c, e = .constant c := by
  cases e <;> simp [isConstant]

def getWidth : Expr → ℕ
  | .constant c => c.width
  | .notOptimized src => src.getWidth
  | .read _ _ => Width.Int8
  | .select _ t _ => t.getWidth
  | .concat l r => l.getWidth + r.getWidth
  | .extract _ _ w => w
  | .not e => e.getWidth
  | .cast _ _ w => w
  | .binary k l _ => if k.isCmp then Width.Bool else l.getWidth

end Expr

end TaseVerifier
