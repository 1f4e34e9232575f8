import TaseVerifier.Solver.Builder

/-! The shifts that the builders construct. By a variable amount they are a chain of cases,
one for each amount below the width; all shifts by the width or more are zero. -/

namespace TaseVerifier

namespace STPBuilder

variable {w v : ℕ}

theorem shiftCases_eq {k : ℕ} (shifted : ℕ → BitVec w) (amount : BitVec k) {n : ℕ}
    (hk : n ≤ 2 ^ k) (hn : n ≤ 2 ^ 32) (res : BitVec w) :
    shiftCases shifted amount n res =
      if amount.toNat < n then shifted amount.toNat else res := by
  induction n generalizing res with
  | zero => rfl
  | succ i ih =>
    have hi := toNat_bvConst32 (k := k) (i := i) (by omega) (by omega)
    rw [shiftCases, ih (by omega) (by omega), vc_iteExpr]
    by_cases heq : amount.toNat = i
    · have hbeq : (amount == bvConst32 k i) = true :=
        beq_iff_eq.mpr (BitVec.eq_of_toNat_eq (heq.trans hi.symm))
      rw [if_pos hbeq, heq, if_neg (Nat.lt_irrefl i), if_pos (Nat.lt_succ_self i)]
    · have hbeq : ¬ (amount == bvConst32 k i) = true := by
        refine fun h => heq ?_
        rw [beq_iff_eq.mp h, hi]
      have hlt : amount.toNat < i + 1 ↔ amount.toNat < i := by omega
      rw [if_neg hbeq]
      simp only [hlt]

theorem orZero_eq (shift : BitVec v) (res : BitVec w) (hw : w < 2 ^ 32) (hv : w < 2 ^ v) :
    orZero shift res = if shift.toNat < w then res else 0#w := by
  simp only [orZero, vc_iteExpr, BitVec.ult_eq_decide, toNat_bvConst32 hv hw, decide_eq_true_eq]
  rfl

theorem bvBoolExtract_msb (expr : BitVec w) (hw : 0 < w) :
    bvBoolExtract expr (w - 1) = expr.msb := by
  rw [BitVec.msb_eq_getLsbD_last, bvBoolExtract, bvExtract, Bool.eq_iff_iff, beq_iff_eq,
    ← BitVec.toNat_inj]
  have hlen : w - 1 - (w - 1) + 1 = 1 := by omega
  rw [BitVec.extractLsb_toNat, BitVec.getLsbD, Nat.testBit, Nat.and_comm, Nat.and_one_is_mod, hlen]
  simp

/-- Below the width the sign is shifted in. -/
theorem constructAShrByConstant_eq (expr : BitVec w) {shift : ℕ} (hs : shift < w) :
    constructAShrByConstant expr shift (bvBoolExtract expr (w - 1)) = expr.sshiftRight shift := by
  rw [bvBoolExtract_msb expr (by omega), constructAShrByConstant]
  split_ifs with h0 hw
  · subst h0
    exact (BitVec.sshiftRight_zero).symm
  · omega
  · rw [vc_iteExpr, bvRightShift_eq]
    cases hmsb : expr.msb with
    | false =>
      rw [if_neg (by simp), BitVec.sshiftRight_eq_of_msb_false hmsb]
    | true =>
      rw [if_pos rfl]
      refine BitVec.eq_of_getLsbD_eq fun i hi => ?_
      rw [BitVec.getLsbD_cast, BitVec.getLsbD_append, BitVec.getLsbD_sshiftRight, bvExtract,
        BitVec.getLsbD_extractLsb, bvMinusOne, BitVec.getLsbD_allOnes, hmsb]
      have hi' : ¬ w ≤ i := by omega
      have hlast : w - 1 - shift + 1 = w - shift := by omega
      rw [hlast]
      by_cases hlow : shift + i < w
      · have h1 : i < w - shift := by omega
        simp [h1, hi', hlow]
      · have h1 : ¬ i < w - shift := by omega
        have h2 : i - (w - shift) < shift := by omega
        simp [h1, h2, hi', hlow]

theorem constructAShrByConstant_zero (expr : BitVec w) {shift : ℕ} (hw : 0 < w) (hs : w ≤ shift)
    (isSigned : Bool) : constructAShrByConstant expr shift isSigned = 0#w := by
  rw [constructAShrByConstant, if_neg (by omega), dif_pos hs]
  rfl

/-- What an arithmetic shift is to give. -/
def ashrOrZero (expr : BitVec w) (shift : ℕ) : BitVec w :=
  if shift < w then expr.sshiftRight shift else 0#w

/-- The chain for arithmetic shifts starts from the shift by one less than the width. -/
theorem arithCases_eq {k : ℕ} (expr : BitVec w) (amount : BitVec k) (hk : w ≤ 2 ^ k)
    (hw : w < 2 ^ 32) (hamount : amount.toNat < w) :
    shiftCases (constructAShrByConstant expr · (bvBoolExtract expr (w - 1))) amount (w - 1)
      (constructAShrByConstant expr (w - 1) (bvBoolExtract expr (w - 1))) =
        expr.sshiftRight amount.toNat := by
  rw [shiftCases_eq _ _ (by omega) (by omega)]
  split_ifs with hlt
  · exact constructAShrByConstant_eq expr hamount
  · rw [constructAShrByConstant_eq expr (by omega)]
    congr 1
    omega

theorem toNat_extractPartialShiftValue {shift : BitVec v} (h : shift.toNat < w) :
    (extractPartialShiftValue shift w).toNat = shift.toNat := by
  rw [extractPartialShiftValue, BitVec.extractLsb'_toNat, Nat.shiftRight_zero,
    Nat.mod_eq_of_lt (h.trans (Nat.lt_size_self w))]

theorem lt_two_pow_of_size (hv : w.size ≤ v) : w < 2 ^ v :=
  (Nat.lt_size_self w).trans_le (Nat.pow_le_pow_right Nat.two_pos hv)

theorem bvVarLeftShift_eq (expr : BitVec w) (shift : BitVec v) (hw : w < 2 ^ 32)
    (hv : w.size ≤ v) : bvVarLeftShift expr shift = expr <<< shift.toNat := by
  rw [bvVarLeftShift, orZero_eq shift _ hw (lt_two_pow_of_size hv)]
  split_ifs with hlt
  · rw [shiftCases_eq _ _ (Nat.lt_size_self w).le hw.le, toNat_extractPartialShiftValue hlt,
      if_pos hlt, bvLeftShift_eq]
  · exact (BitVec.shiftLeft_eq_zero (not_lt.mp hlt)).symm

theorem bvVarArithRightShift_eq (expr : BitVec w) (shift : BitVec v) (hw : w < 2 ^ 32)
    (hv : w.size ≤ v) : bvVarArithRightShift expr shift = ashrOrZero expr shift.toNat := by
  rw [bvVarArithRightShift, orZero_eq shift _ hw (lt_two_pow_of_size hv), ashrOrZero]
  split_ifs with hlt
  · have hext := toNat_extractPartialShiftValue hlt
    rw [arithCases_eq expr _ (Nat.lt_size_self w).le hw (by rw [hext]; exact hlt), hext]
  · rfl

end STPBuilder

namespace Z3Builder

open STPBuilder

variable {w : ℕ}

theorem bvVarLeftShift_eq (expr shift : BitVec w) (hw : w < 2 ^ 32) :
    bvVarLeftShift expr shift = expr <<< shift.toNat := by
  have hv := Nat.lt_two_pow_self (n := w)
  rw [bvVarLeftShift, orZero_eq shift _ hw hv]
  split_ifs with hlt
  · rw [shiftCases_eq _ _ hv.le hw.le, if_pos hlt, bvLeftShift_eq]
  · exact (BitVec.shiftLeft_eq_zero (not_lt.mp hlt)).symm

theorem bvVarRightShift_eq (expr shift : BitVec w) (hw : w < 2 ^ 32) :
    bvVarRightShift expr shift = expr >>> shift.toNat := by
  have hv := Nat.lt_two_pow_self (n := w)
  rw [bvVarRightShift, orZero_eq shift _ hw hv]
  split_ifs with hlt
  · rw [shiftCases_eq _ _ hv.le hw.le, if_pos hlt, bvRightShift_eq]
  · exact (BitVec.ushiftRight_eq_zero (not_lt.mp hlt)).symm

theorem bvVarArithRightShift_eq (expr shift : BitVec w) (hw : w < 2 ^ 32) :
    bvVarArithRightShift expr shift = ashrOrZero expr shift.toNat := by
  have hv := Nat.lt_two_pow_self (n := w)
  rw [bvVarArithRightShift, orZero_eq shift _ hw hv, ashrOrZero]
  split_ifs with hlt
  · exact arithCases_eq expr shift hv.le hw hlt
  · rfl

end Z3Builder

namespace Builder

open STPBuilder

variable {w : ℕ}

/-- The kinds of shifts. -/
def IsShift (k : BinaryKind) : Prop := k = .Shl ∨ k = .LShr ∨ k = .AShr

/-- Where arithmetic shifts by the width or more give zero, in terms and in values alike. -/
theorem ashr_eq_ashrOrZero (x y : BitVec w) (h64 : w ≤ 64) :
    APInt.ashr ⟨w, x⟩ ⟨w, y⟩ = ⟨w, ashrOrZero x y.toNat⟩ := by
  rw [APInt.ashr_mk, ashrOrZero]
  congr 1
  obtain rfl | hpos := Nat.eq_zero_or_pos w
  · exact Subsingleton.elim _ _
  · by_cases hlt : y.toNat < w
    · rw [if_neg (by omega), if_pos hlt]
    · rw [if_pos ⟨h64, by omega⟩, if_neg hlt]

/-- A shift by a variable amount, whichever cases the builder makes. -/
theorem bvVarShift_eq (b : Builder) {k : BinaryKind} (hk : IsShift k) (x y : BitVec w)
    (hw : w < 2 ^ 32) (h64 : k = .AShr → w ≤ 64) :
    b.bvVarShift k ⟨w, x⟩ ⟨w, y⟩ = some (k.apply ⟨w, x⟩ ⟨w, y⟩) := by
  have hsize : w.size ≤ w := by
    refine Nat.size_le.mpr ?_
    exact Nat.lt_two_pow_self
  cases b with
  | Z3 =>
    obtain rfl | rfl | rfl := hk
    · simp [bvVarShift, BinaryKind.apply, Z3Builder.bvVarLeftShift_eq x y hw]
    · simp [bvVarShift, BinaryKind.apply, Z3Builder.bvVarRightShift_eq x y hw]
    · rw [BinaryKind.apply, ashr_eq_ashrOrZero x y (h64 rfl),
        ← Z3Builder.bvVarArithRightShift_eq x y hw]
      simp [bvVarShift]
  | STP o =>
    have hlt : ¬ w < w.size := by omega
    obtain rfl | rfl | rfl := hk
    · simp [bvVarShift, hlt, BinaryKind.apply, STPBuilder.bvVarLeftShift_eq x y hw hsize]
    · simp [bvVarShift, hlt, BinaryKind.apply, STPBuilder.bvVarRightShift_eq x y hw hsize]
    · rw [BinaryKind.apply, ashr_eq_ashrOrZero x y (h64 rfl),
        ← STPBuilder.bvVarArithRightShift_eq x y hw hsize]
      simp [bvVarShift, hlt]

/-- The amount keeps its value when it is cut to 32 bits, or stays at least the width. -/
def amountFits (w : ℕ) (c : APInt) : Bool := decide (c.toNat < 2 ^ 32) || decide (w ≤ limitedValue c)

theorem limitedValue_cases {c : APInt} (hw : w < 2 ^ 32) (h : amountFits w c = true) :
    limitedValue c = c.toNat ∨ w ≤ limitedValue c ∧ w ≤ c.toNat := by
  rw [amountFits, Bool.or_eq_true, decide_eq_true_eq, decide_eq_true_eq] at h
  by_cases hlt : c.toNat < 2 ^ 32
  · left
    rw [limitedValue, Nat.min_eq_left (by omega), Nat.mod_eq_of_lt hlt]
  · right
    refine ⟨h.resolve_left hlt, by omega⟩

theorem bvShift_eq {k : BinaryKind} (hk : IsShift k) (x y : BitVec w) (h0 : w ≠ 0)
    (hw : w < 2 ^ 32) (h64 : k = .AShr → w ≤ 64) (hfits : amountFits w ⟨w, y⟩ = true) :
    bvShift k ⟨w, x⟩ (limitedValue ⟨w, y⟩) = k.apply ⟨w, x⟩ ⟨w, y⟩ := by
  have hcases := limitedValue_cases hw hfits
  rw [APInt.toNat_mk] at hcases
  generalize limitedValue ⟨w, y⟩ = n at hcases
  obtain rfl | rfl | rfl := hk
  · rw [BinaryKind.apply, APInt.shl_mk, bvShift, bvLeftShift_eq]
    obtain rfl | ⟨hn, hy⟩ := hcases
    · rfl
    · rw [BitVec.shiftLeft_eq_zero hn, BitVec.shiftLeft_eq_zero hy]
  · rw [BinaryKind.apply, APInt.lshr_mk, bvShift, bvRightShift_eq]
    obtain rfl | ⟨hn, hy⟩ := hcases
    · rfl
    · rw [BitVec.ushiftRight_eq_zero hn, BitVec.ushiftRight_eq_zero hy]
  · rw [BinaryKind.apply, ashr_eq_ashrOrZero x y (h64 rfl), ashrOrZero]
    simp only [bvShift]
    congr 1
    by_cases hlt : y.toNat < w
    · obtain rfl | ⟨-, hy⟩ := hcases
      · rw [if_pos hlt, constructAShrByConstant_eq x hlt]
      · omega
    · have hn : w ≤ n := by omega
      rw [if_neg hlt, constructAShrByConstant_zero x (by omega) hn]

end Builder

end TaseVerifier
