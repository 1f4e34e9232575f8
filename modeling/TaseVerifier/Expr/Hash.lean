import TaseVerifier.Expr.Syntax

/-! The 32-bit hashes of expressions and update lists. A node's hash is computed from
those of its parts when it is allocated. The hash of a constant's bits is the one of
the `APInt` library, and a parameter here. -/

namespace TaseVerifier

/-- `MAGIC_HASH_CONSTANT`. -/
def magicHashConstant : BitVec 32 := 39

/-- The number of the kind in `Expr::Kind`. -/
def BinaryKind.code : BinaryKind → ℕ
  | .Add => 10 | .Sub => 11 | .Mul => 12 | .UDiv => 13 | .SDiv => 14 | .URem => 15 | .SRem => 16
  | .And => 17 | .Or => 18 | .Xor => 19 | .Shl => 20 | .LShr => 21 | .AShr => 22
  | .Eq => 23 | .Ne => 24 | .Ult => 25 | .Ule => 26 | .Ugt => 27 | .Uge => 28
  | .Slt => 29 | .Sle => 30 | .Sgt => 31 | .Sge => 32

/-- `Expr::computeHash` for the kinds that do not have their own. -/
def computeHash (kind : ℕ) (kids : List (BitVec 32)) : BitVec 32 :=
  kids.foldl (fun res kid => (res <<< 1) ^^^ (kid * magicHashConstant))
    (BitVec.ofNat 32 kind * magicHashConstant)

/-- The loop over the characters of a root's name; `char` is signed. -/
def nameHash (name : String) : BitVec 32 :=
  name.toUTF8.data.toList.foldl
    (fun res c => res * magicHashConstant + c.toBitVec.signExtend 32) 0

variable (hashValue : APInt → BitVec 32)

mutual
def Expr.hash : Expr → BitVec 32
  | .constant c => hashValue c ^^^ (BitVec.ofNat 32 c.width * magicHashConstant)
  | .notOptimized s => computeHash 1 [s.hash]
  | .read u i => (i.hash * magicHashConstant) ^^^ u.hash
  | .select c t f => computeHash 4 [c.hash, t.hash, f.hash]
  | .concat l r => computeHash 5 [l.hash, r.hash]
  | .extract e off w =>
    (BitVec.ofNat 32 off * magicHashConstant) ^^^ (BitVec.ofNat 32 w * magicHashConstant) ^^^
      (e.hash * magicHashConstant)
  | .not e => e.hash * magicHashConstant * 9
  | .cast _ e w => (BitVec.ofNat 32 w * magicHashConstant) ^^^ (e.hash * magicHashConstant)
  | .binary k l r => computeHash k.code [l.hash, r.hash]
/-- `UpdateList::hash`: the name of the root and the nodes. -/
def UpdateList.hash (u : UpdateList) : BitVec 32 := nameHash u.array.name ^^^ u.nodesHash
/-- `UpdateNode::computeHash`, zero for no node. -/
def UpdateList.nodesHash : UpdateList → BitVec 32
  | .root _ => 0
  | .node i v next => i.hash ^^^ v.hash ^^^ next.nodesHash
end

end TaseVerifier
