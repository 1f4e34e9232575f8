import TaseVerifier.Expr.CreateSound
import TaseVerifier.Solver.ValueRange

/-! The range of an expression, whatever the arrays contain. It decides which writes a read
may see. A concatenation is evaluated as if its right operand were a byte. -/

namespace TaseVerifier

open ValueRange

namespace CexRangeEvaluator

/-! ### The code -/

def getInitialReadRange (array : KleeArray) (index : ValueRange) : ValueRange :=
  if array.isConstantArray && index.isFixed && index.m_min < array.size then
    fixed (array.constantValues[index.m_min]?.getD (APInt.ofNat Width.Int8 0)).toNat
  else full Width.Int8

/-- One, zero, or either. -/
def verdict (yes no : Bool) : ValueRange :=
  if yes then fixed 1 else if no then fixed 0 else full Width.Bool

/-- A binary node, given the ranges of its operands. -/
def binary (k : BinaryKind) (width : ℕ) (left right : ValueRange) : Except CexStop ValueRange :=
  match k with
  | .Add | .Sub | .Mul | .UDiv | .SDiv | .URem | .SRem => pure (left.arithmetic right width)
  | .And => left.binaryAnd right
  | .Or => left.binaryOr right
  | .Xor => left.binaryXor right
  | .Shl | .LShr | .AShr => pure (full width)
  | .Eq => pure (verdict (left.mustEqual right) !left.mayEqual right)
  | .Ult => do pure (verdict ((← left.max) < (← right.min)) ((← right.max) ≤ (← left.min)))
  | .Ule => do pure (verdict ((← left.max) ≤ (← right.min)) ((← right.max) < (← left.min)))
  | .Slt => do
    pure (verdict ((← left.maxSigned width) < (← right.minSigned width))
      ((← right.maxSigned width) ≤ (← left.minSigned width)))
  | .Sle => do
    pure (verdict ((← left.maxSigned width) ≤ (← right.minSigned width))
      ((← right.maxSigned width) < (← left.minSigned width)))
  | .Ne | .Ugt | .Uge | .Sgt | .Sge => throw .uncanonicalized

mutual
def evaluate : Expr → Except CexStop ValueRange
  | .constant c => pure (ofConstant c)
  | .read u i => do evalRead (← evaluate i) .empty u
  | .select c t f => do
    let cond ← evaluate c
    if cond.mustEqual (fixed 1) then evaluate t
    else if cond.mustEqual (fixed 0) then evaluate f
    else pure ((← evaluate t).setUnion (← evaluate f))
  | .concat l r => do
    let res ← (fixed 0).concat (← evaluate l) 8
    res.concat (← evaluate r) 8
  | .binary k l r =>
    match k with
    -- the operands are not looked at
    | .Shl | .LShr | .AShr => pure (full l.getWidth)
    | .Ne | .Ugt | .Uge | .Sgt | .Sge => throw .uncanonicalized
    | k => do binary k l.getWidth (← evaluate l) (← evaluate r)
  | .notOptimized s => pure (full s.getWidth)
  | .extract _ _ w => pure (full w)
  | .not e => pure (full e.getWidth)
  | .cast _ _ w => pure (full w)
/-- The loop over the updates, with the union of the values that may have been written. -/
def evalRead (index res : ValueRange) : UpdateList → Except CexStop ValueRange
  | .root a => pure (res.setUnion (getInitialReadRange a index))
  | .node i v next => do
    let ui ← evaluate i
    if ui.mustEqual index then pure (res.setUnion (← evaluate v))
    else if ui.mayEqual index then
      let res := res.setUnion (← evaluate v)
      if res.isFullRange 8 then pure res else evalRead index res next
    else evalRead index res next
end

end CexRangeEvaluator

/-! ### Where the ranges are right -/

namespace BinaryKind

def isShift : BinaryKind → Bool
  | .Shl | .LShr | .AShr => true
  | _ => false

/-- The comparisons of the canonical form. -/
def isCanonical : BinaryKind → Bool
  | .Ne | .Ugt | .Uge | .Sgt | .Sge => false
  | _ => true

def isSigned : BinaryKind → Bool
  | .Slt | .Sle => true
  | _ => false

theorem getWidth_of_isShift {k : BinaryKind} (h : k.isShift = true) (l r : Expr) :
    (Expr.binary k l r).getWidth = l.getWidth := by
  cases k with
  | Shl | LShr | AShr => rfl
  | _ => cases h

end BinaryKind

mutual
/-- No width is zero or over 64. -/
def Expr.narrow : Expr → Bool
  | .constant c => decide (0 < c.width) && decide (c.width ≤ 64)
  | .notOptimized s => s.narrow
  | .read u i => u.narrow && i.narrow
  | .select c t f => c.narrow && t.narrow && f.narrow
  | .concat l r => l.narrow && r.narrow && decide (l.getWidth + r.getWidth ≤ 64)
  | .extract e _ _ => e.narrow
  | .not e => e.narrow
  | .cast _ e w => e.narrow && decide (w ≤ 64)
  | .binary _ l r => l.narrow && r.narrow
def UpdateList.narrow : UpdateList → Bool
  | .root _ => true
  | .node i v next => i.narrow && v.narrow && next.narrow
end

theorem Expr.narrow_width : ∀ e : Expr, e.wellTyped = true → e.narrow = true →
    0 < e.getWidth ∧ e.getWidth ≤ 64
  | .constant c, _, h => by simpa [Expr.narrow] using h
  | .notOptimized s, ht, h => s.narrow_width ht h
  | .read _ _, _, _ => by simp [Expr.getWidth, Width.Int8]
  | .select c t f, ht, h => by
    simp only [Expr.wellTyped, Expr.narrow, Bool.and_eq_true] at ht h
    exact t.narrow_width ht.1.1.1.2 h.1.2
  | .concat l r, ht, h => by
    simp only [Expr.wellTyped, Expr.narrow, Bool.and_eq_true, decide_eq_true_eq] at ht h
    have hl := l.narrow_width ht.1 h.1.1
    simp only [Expr.getWidth]
    omega
  | .extract e off w, ht, h => by
    simp only [Expr.wellTyped, Expr.narrow, Bool.and_eq_true, decide_eq_true_eq] at ht h
    have he := e.narrow_width ht.1.1 h
    simp only [Expr.getWidth]
    omega
  | .not e, ht, h => e.narrow_width ht h
  | .cast k e w, ht, h => by
    simp only [Expr.wellTyped, Expr.narrow, Bool.and_eq_true, decide_eq_true_eq] at ht h
    have he := e.narrow_width ht.1 h.1
    simp only [Expr.getWidth]
    omega
  | .binary k l r, ht, h => by
    simp only [Expr.wellTyped, Expr.narrow, Bool.and_eq_true] at ht h
    have hl := l.narrow_width ht.1.1.1 h.1
    simp only [Expr.getWidth, Width.Bool]
    split_ifs <;> omega

namespace CexRangeEvaluator

/-! ### The ranges are right -/

variable {σ : Assignment} {e l r : Expr} {w : ℕ} {left right : ValueRange}

theorem covers_eval_full (h : e.wellTyped = true) :
    (full e.getWidth).Covers e.getWidth (e.eval σ).toNat := by
  refine covers_full ?_
  have hlt := (e.eval σ).toNat_lt
  rwa [e.width_eval σ h] at hlt

theorem covers_initial (a : KleeArray) (h : a.wellTyped = true) {index : ValueRange} {i : APInt}
    (hi : index.Covers Width.Int32 i.toNat) :
    (getInitialReadRange a index).Covers 8 (a.initialValue σ i.toNat).toNat := by
  have hlt := (a.initialValue σ i.toNat).toNat_lt
  rw [a.width_initialValue σ i.toNat h] at hlt
  unfold getInitialReadRange
  split_ifs with hc
  · simp only [Bool.and_eq_true, decide_eq_true_eq, KleeArray.isConstantArray,
      Bool.not_eq_true'] at hc
    have hval : a.constantValues[index.m_min]?.getD (APInt.ofNat Width.Int8 0) =
        a.initialValue σ i.toNat := by
      rw [hi.eq_of_isFixed hc.1.2, KleeArray.initialValue, hc.1.1, if_neg (by simp)]
      rfl
    rw [hval]
    exact covers_fixed hlt
  · exact covers_full hlt

theorem covers_verdict {yes no b : Bool} (hyes : yes = true → b = true)
    (hno : no = true → b = false) : (verdict yes no).Covers 1 (APInt.ofBool b).toNat := by
  rw [APInt.toNat_ofBool]
  unfold verdict
  split_ifs with h h'
  · rw [hyes h]
    exact covers_fixed (by decide)
  · rw [hno h']
    exact covers_fixed (by decide)
  · exact covers_full (by cases b <;> decide)

theorem toNat_concat (a b : APInt) :
    (a.concat b).toNat = a.toNat <<< b.width ||| b.toNat := BitVec.toNat_append ..

theorem isTrue_of_toNat {a : APInt} (hw : a.width = 1) (h : a.toNat = 1) : a.isTrue = true := by
  simp [APInt.isTrue, hw, h]

theorem toInt_eq_sext {w : ℕ} (x : BitVec w) (hpos : 0 < w) : x.toInt = sext x.toNat w := by
  have hhalf : 2 ^ w = 2 * 2 ^ (w - 1) := by
    rw [← pow_succ']
    congr 1
    omega
  rw [BitVec.toInt_eq_toNat_cond, sext]
  have hiff : 2 * x.toNat < 2 ^ w ↔ x.toNat < 2 ^ (w - 1) := by omega
  simp only [hiff]
  push_cast
  rfl

/-- A range that does not depend on the assignment. -/
theorem exists_forall {x : Except CexStop ValueRange} {P : Assignment → ValueRange → Prop}
    (h : ∀ σ, ∃ t, x = .ok t ∧ P σ t) : ∃ t, x = .ok t ∧ ∀ σ, P σ t := by
  obtain ⟨t, ht, -⟩ := h fun _ _ => 0
  refine ⟨t, ht, fun σ => ?_⟩
  obtain ⟨t', ht', hp⟩ := h σ
  obtain rfl := Except.ok.inj (ht.symm.trans ht')
  exact hp

section Binary

variable {x y : BitVec w} (hl : left.Covers w x.toNat) (hr : right.Covers w y.toNat)

include hl hr

theorem covers_eq : ∃ t, binary .Eq w left right = .ok t ∧
    t.Covers 1 (APInt.ofBool (x == y)).toNat := by
  refine ⟨_, rfl, covers_verdict (fun h => ?_) fun h => ?_⟩
  · exact beq_iff_eq.mpr (BitVec.eq_of_toNat_eq (hl.eq_of_mustEqual hr h))
  · refine beq_eq_false_iff_ne.mpr fun hxy => ?_
    rw [← hxy] at hr
    simp [hl.mayEqual hr] at h

theorem covers_unsigned {k : BinaryKind} (hk : k = .Ult ∨ k = .Ule) :
    ∃ t, binary k w left right = .ok t ∧ t.Covers 1 (k.apply ⟨w, x⟩ ⟨w, y⟩).toNat := by
  have hlmin := hl.min_le
  have hlmax := hl.le_max
  have hrmin := hr.min_le
  have hrmax := hr.le_max
  rcases hk with rfl | rfl
  · simp only [binary, hl.max, hl.min, hr.max, hr.min, BinaryKind.apply, APInt.ult_mk]
    refine ⟨_, rfl, covers_verdict (fun h => ?_) fun h => ?_⟩
    · simp only [decide_eq_true_eq, BitVec.ult] at h ⊢
      omega
    · simp only [decide_eq_true_eq, decide_eq_false_iff_not, BitVec.ult] at h ⊢
      omega
  · simp only [binary, hl.max, hl.min, hr.max, hr.min, BinaryKind.apply, APInt.ule_mk]
    refine ⟨_, rfl, covers_verdict (fun h => ?_) fun h => ?_⟩
    · simp only [decide_eq_true_eq, BitVec.ule] at h ⊢
      omega
    · simp only [decide_eq_true_eq, decide_eq_false_iff_not, BitVec.ule] at h ⊢
      omega

theorem covers_signed {k : BinaryKind} (hk : k = .Slt ∨ k = .Sle) (hpos : 0 < w) (hw : w < 64) :
    ∃ t, binary k w left right = .ok t ∧ t.Covers 1 (k.apply ⟨w, x⟩ ⟨w, y⟩).toNat := by
  obtain ⟨lmin, hlmin, hlmin'⟩ := hl.minSigned hw hpos
  obtain ⟨lmax, hlmax, hlmax'⟩ := hl.maxSigned hw hpos
  obtain ⟨rmin, hrmin, hrmin'⟩ := hr.minSigned hw hpos
  obtain ⟨rmax, hrmax, hrmax'⟩ := hr.maxSigned hw hpos
  rw [← toInt_eq_sext _ hpos] at hlmin' hlmax' hrmin' hrmax'
  rcases hk with rfl | rfl
  · simp only [binary, hlmin, hlmax, hrmin, hrmax, BinaryKind.apply, APInt.slt_mk]
    refine ⟨_, rfl, covers_verdict (fun h => ?_) fun h => ?_⟩
    · simp only [decide_eq_true_eq, BitVec.slt] at h ⊢
      omega
    · simp only [decide_eq_true_eq, decide_eq_false_iff_not, BitVec.slt] at h ⊢
      omega
  · simp only [binary, hlmin, hlmax, hrmin, hrmax, BinaryKind.apply, APInt.sle_mk]
    refine ⟨_, rfl, covers_verdict (fun h => ?_) fun h => ?_⟩
    · simp only [decide_eq_true_eq, BitVec.sle] at h ⊢
      omega
    · simp only [decide_eq_true_eq, decide_eq_false_iff_not, BitVec.sle] at h ⊢
      omega

end Binary

/-- The range of a binary node is right where those of its operands are. -/
theorem covers_binary {k : BinaryKind} (ht : (Expr.binary k l r).wellTyped = true)
    (hpos : 0 < l.getWidth) (hw : l.getWidth ≤ 64) (hcan : k.isCanonical = true)
    (hsigned : k.isSigned = true → l.getWidth < 64)
    (hl : left.Covers l.getWidth (l.eval σ).toNat) (hr : right.Covers r.getWidth (r.eval σ).toNat) :
    ∃ t, binary k l.getWidth left right = .ok t ∧
      t.Covers (Expr.binary k l r).getWidth ((Expr.binary k l r).eval σ).toNat := by
  obtain ⟨hlt, hrt, hlr⟩ := Expr.wellTyped_operands ht
  have hfull : (full (Expr.binary k l r).getWidth).Covers (Expr.binary k l r).getWidth
      ((Expr.binary k l r).eval σ).toNat := covers_eval_full ht
  rw [← hlr] at hr
  obtain ⟨x, hx⟩ := Expr.eval_mk hlt rfl σ
  obtain ⟨y, hy⟩ := Expr.eval_mk hrt hlr.symm σ
  rw [hx] at hl
  rw [hy] at hr
  rw [Expr.eval_binary, hx, hy] at hfull ⊢
  cases k with
  | Add | Sub | Mul | UDiv | SDiv | URem | SRem | Shl | LShr | AShr => exact ⟨_, rfl, hfull⟩
  | And =>
    obtain ⟨t, htr, hcov⟩ := hl.binaryAnd hr hw
    refine ⟨t, htr, ?_⟩
    rw [BinaryKind.apply, APInt.and_mk, APInt.toNat_mk, BitVec.toNat_and]
    exact hcov
  | Or =>
    obtain ⟨t, htr, hcov⟩ := hl.binaryOr hr hw
    refine ⟨t, htr, ?_⟩
    rw [BinaryKind.apply, APInt.or_mk, APInt.toNat_mk, BitVec.toNat_or]
    exact hcov
  | Xor =>
    obtain ⟨t, htr, hcov⟩ := hl.binaryXor hr hw
    refine ⟨t, htr, ?_⟩
    rw [BinaryKind.apply, APInt.xor_mk, APInt.toNat_mk, BitVec.toNat_xor]
    exact hcov
  | Eq =>
    obtain ⟨t, htr, hcov⟩ := covers_eq hl hr
    refine ⟨t, htr, ?_⟩
    rw [BinaryKind.apply, APInt.eq_mk]
    exact hcov
  | Ult => exact covers_unsigned hl hr (.inl rfl)
  | Ule => exact covers_unsigned hl hr (.inr rfl)
  | Slt => exact covers_signed hl hr (.inl rfl) hpos (hsigned rfl)
  | Sle => exact covers_signed hl hr (.inr rfl) hpos (hsigned rfl)
  | Ne | Ugt | Uge | Sgt | Sge => cases hcan

/-- A range put together with the width of the right operand is right where those of the operands
are. -/
theorem covers_concat (hrt : r.wellTyped = true) (hw : l.getWidth + r.getWidth ≤ 64)
    (hl : left.Covers l.getWidth (l.eval σ).toNat) (hr : right.Covers r.getWidth (r.eval σ).toNat) :
    ∃ t, ((fixed 0).concat left r.getWidth >>= fun res => res.concat right r.getWidth) = .ok t ∧
      t.Covers (Expr.concat l r).getWidth ((Expr.concat l r).eval σ).toNat := by
  have hzero : (fixed 0).Covers l.getWidth 0 := covers_fixed (Nat.two_pow_pos _)
  obtain ⟨res, hres, hcov⟩ := hzero.binaryOr hl (by omega)
  rw [Nat.zero_or] at hcov
  obtain ⟨t, htr, htcov⟩ := hcov.concat hr hw
  refine ⟨t, ?_, ?_⟩
  · have hfirst : (fixed 0).concat left r.getWidth = .ok res := by
      simpa [ValueRange.concat, binaryShiftLeft, fixed] using hres
    rw [hfirst]
    exact htr
  · rw [Expr.eval, toNat_concat, r.width_eval σ hrt, Expr.getWidth]
    exact htcov

theorem evaluate_shift {k : BinaryKind} (h : k.isShift = true) :
    evaluate (.binary k l r) = .ok (full l.getWidth) := by
  cases k with
  | Shl | LShr | AShr => rfl
  | _ => cases h

theorem evaluate_binary {k : BinaryKind} (hshift : ¬ k.isShift = true) (hcan : k.isCanonical = true)
    (hleft : evaluate l = .ok left) (hright : evaluate r = .ok right) :
    evaluate (.binary k l r) = binary k l.getWidth left right := by
  cases k with
  | Shl | LShr | AShr => exact absurd rfl hshift
  | Ne | Ugt | Uge | Sgt | Sge => cases hcan
  | _ => simp only [evaluate, hleft, hright, bind, Except.bind]

end CexRangeEvaluator

end TaseVerifier
