import TaseVerifier.Expr.APInt

/-! Fields of the bits of a value, put together from the bits above and below them, and values
that are made of elements of one width. -/

namespace TaseVerifier

namespace APInt

/-- The bits from `off` on are those of `v`. -/
def replaceBits (a : APInt) (off : ℕ) (v : APInt) : APInt :=
  ⟨a.width, (a.val &&& ~~~((BitVec.allOnes v.width).setWidth a.width <<< off)) |||
    (v.val.setWidth a.width <<< off)⟩

def bit (a : APInt) (i : ℕ) : Bool := a.val.getLsbD i

end APInt

end TaseVerifier
