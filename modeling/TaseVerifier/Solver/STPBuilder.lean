import TaseVerifier.Solver.ConstantDivision

/-! The terms that `STPBuilder` builds for products and quotients by constants. An
`ExprHandle` is the value of its term, of the width of the term, and a primitive of the
solver (`vc_bvPlusExpr`, `vc_bvConcatExpr`, ...) is the operation of that name. -/

namespace TaseVerifier.STPBuilder

open Library

variable {w v : ℕ}

def vc_iteExpr (c : Bool) (a b : BitVec w) : BitVec w := if c then a else b

def bvZero (width : ℕ) : BitVec width := BitVec.ofNat width 0

def bvMinusOne (width : ℕ) : BitVec width := BitVec.allOnes width

def bvConst32 (width : ℕ) (value : BitVec 32) : BitVec width := value.setWidth width

def bvExtract (expr : BitVec w) (top bottom : ℕ) : BitVec (top - bottom + 1) :=
  expr.extractLsb top bottom

def bvBoolExtract (expr : BitVec w) (bit : ℕ) : Bool := bvExtract expr bit bit == 1

/-- Logical right shift. -/
def bvRightShift (expr : BitVec w) (shift : ℕ) : BitVec w :=
  if shift = 0 then expr
  else if h : w ≤ shift then bvZero w
  else (bvZero shift ++ bvExtract expr (w - 1) shift).cast (by omega)

/-- Logical left shift. -/
def bvLeftShift (expr : BitVec w) (shift : ℕ) : BitVec w :=
  if shift = 0 then expr
  else if h : w ≤ shift then bvZero w
  else (bvExtract expr (w - shift - 1) 0 ++ bvZero shift).cast (by omega)

theorem bvRightShift_eq (expr : BitVec w) (shift : ℕ) :
    bvRightShift expr shift = expr >>> shift := by
  unfold bvRightShift
  split_ifs with h0 hw
  · subst h0
    rfl
  · exact (BitVec.ushiftRight_eq_zero hw).symm
  · refine BitVec.eq_of_getLsbD_eq fun i hi => ?_
    rw [BitVec.getLsbD_cast, BitVec.getLsbD_append, BitVec.getLsbD_ushiftRight, bvExtract,
      BitVec.getLsbD_extractLsb]
    split_ifs with hlow
    · simp [hlow]
    · rw [bvZero, BitVec.getLsbD_zero, BitVec.getLsbD_of_ge expr _ (by omega)]

theorem bvLeftShift_eq (expr : BitVec w) (shift : ℕ) : bvLeftShift expr shift = expr <<< shift := by
  unfold bvLeftShift
  split_ifs with h0 hw
  · subst h0
    exact (BitVec.shiftLeft_zero expr).symm
  · exact (BitVec.shiftLeft_eq_zero hw).symm
  · refine BitVec.eq_of_getLsbD_eq fun i hi => ?_
    rw [BitVec.getLsbD_cast, BitVec.getLsbD_append, BitVec.getLsbD_shiftLeft, bvExtract,
      BitVec.getLsbD_extractLsb]
    split_ifs with hlow
    · simp [bvZero, hlow]
    · have htop : i - shift < w - shift - 1 - 0 + 1 := by omega
      simp only [hi, hlow, htop, decide_true, decide_false, Nat.zero_add, Bool.true_and,
        Bool.not_false]

/-- The low bits of the shift amount, as many as the width has. -/
def extractPartialShiftValue (shift : BitVec v) (width : ℕ) : BitVec width.size :=
  shift.extractLsb' 0 width.size

/-- The loop of `bvVarRightShift`, from `i - 1` down. -/
def varRightShiftFrom (expr : BitVec w) {k : ℕ} (shift_ext : BitVec k) : ℕ → BitVec w → BitVec w
  | 0, res => res
  | i + 1, res =>
    varRightShiftFrom expr shift_ext i
      (vc_iteExpr (shift_ext == bvConst32 k i) (bvRightShift expr i) res)

/-- Logical right shift by a variable amount. -/
def bvVarRightShift (expr : BitVec w) (shift : BitVec v) : BitVec w :=
  let shift_ext := extractPartialShiftValue shift w
  let res := varRightShiftFrom expr shift_ext w (bvZero w)
  -- If overshifting, shift to zero
  let ex := shift.ult (bvConst32 v w)
  vc_iteExpr ex res (bvZero w)

theorem toNat_bvConst32 {k i : ℕ} (hk : i < 2 ^ k) (hi : i < 2 ^ 32) :
    (bvConst32 k i).toNat = i := by
  have hnat : ((i : BitVec 32)).toNat = i := Nat.mod_eq_of_lt hi
  rw [bvConst32, BitVec.toNat_setWidth, hnat, Nat.mod_eq_of_lt hk]

theorem varRightShiftFrom_eq (expr : BitVec w) {k : ℕ} (shift_ext : BitVec k) {n : ℕ}
    (hk : n ≤ 2 ^ k) (hn : n ≤ 2 ^ 32) (res : BitVec w) :
    varRightShiftFrom expr shift_ext n res =
      if shift_ext.toNat < n then expr >>> shift_ext.toNat else res := by
  induction n generalizing res with
  | zero => rfl
  | succ i ih =>
    have hi := toNat_bvConst32 (k := k) (i := i) (by omega) (by omega)
    rw [varRightShiftFrom, ih (by omega) (by omega), vc_iteExpr, bvRightShift_eq]
    by_cases heq : shift_ext.toNat = i
    · have hbeq : (shift_ext == bvConst32 k i) = true :=
        beq_iff_eq.mpr (BitVec.eq_of_toNat_eq (heq.trans hi.symm))
      rw [if_pos hbeq, heq, if_neg (Nat.lt_irrefl i), if_pos (Nat.lt_succ_self i)]
    · have hbeq : ¬ (shift_ext == bvConst32 k i) = true := by
        refine fun h => heq ?_
        rw [beq_iff_eq.mp h, hi]
      have hlt : shift_ext.toNat < i + 1 ↔ shift_ext.toNat < i := by omega
      rw [if_neg hbeq]
      simp only [hlt]

theorem bvVarRightShift_eq (expr : BitVec w) (shift : BitVec v) (hw : w < 2 ^ 32)
    (hv : w.size ≤ v) : bvVarRightShift expr shift = expr >>> shift.toNat := by
  have hself := Nat.lt_size_self w
  have hpow : 2 ^ w.size ≤ 2 ^ v := Nat.pow_le_pow_right Nat.two_pos hv
  have hconst := toNat_bvConst32 (hself.trans_le hpow) hw
  simp only [bvVarRightShift, vc_iteExpr, varRightShiftFrom_eq _ _ hself.le hw.le,
    BitVec.ult_eq_decide, hconst, decide_eq_true_eq]
  by_cases hshift : shift.toNat < w
  · have hext : (extractPartialShiftValue shift w).toNat = shift.toNat := by
      rw [extractPartialShiftValue, BitVec.extractLsb'_toNat, Nat.shiftRight_zero,
        Nat.mod_eq_of_lt (hshift.trans hself)]
    rw [if_pos hshift, hext, if_pos hshift]
  · rw [if_neg hshift, BitVec.ushiftRight_eq_zero (not_lt.mp hshift)]
    rfl

/-- One round of the loop of `constructMulByConstant`. The handle is null until the first
bit. -/
def mulByConstantBit (expr : BitVec w) (add sub : BitVec 64) (j : ℕ) (res : Option (BitVec w)) :
    Option (BitVec w) :=
  let bit := 1#64 <<< j
  if add &&& bit ≠ 0#64 ∨ sub &&& bit ≠ 0#64 then
    let op := bvLeftShift expr j
    if add &&& bit ≠ 0#64 then
      match res with
      | some res => some (res + op)
      | none => some op
    else
      match res with
      | some res => some (res - op)
      | none => some (-op)
  else res

/-- The loop from bit `j - 1` down. -/
def mulByConstantFrom (expr : BitVec w) (add sub : BitVec 64) :
    ℕ → Option (BitVec w) → Option (BitVec w)
  | 0, res => res
  | j + 1, res => mulByConstantFrom expr add sub j (mulByConstantBit expr add sub j res)

def constructMulByConstant (expr : BitVec w) (x : BitVec 64) : BitVec w :=
  let (add, sub) := ComputeMultConstants64 x
  -- legal, these would overflow completely
  let add := bits64.truncateToNBits add w
  let sub := bits64.truncateToNBits sub w
  (mulByConstantFrom expr add sub 64 none).getD (bvZero w)

theorem and_bit_ne_zero {x : BitVec 64} {j : ℕ} (hj : j < 64) :
    x &&& 1#64 <<< j ≠ 0#64 ↔ x.getLsbD j = true := by
  rw [← BitVec.twoPow_eq, BitVec.and_twoPow]
  split_ifs with h
  · simp [h, (isLowest_twoPow hj).ne_zero]
  · simp [h]

/-- The digit of a constant at `j`. -/
def digit (w : ℕ) (x : BitVec 64) (j : ℕ) : BitVec w :=
  if x.getLsbD j then BitVec.twoPow w j else 0

theorem ofNat_mod_two_pow_succ (w : ℕ) (x : BitVec 64) (j : ℕ) :
    BitVec.ofNat w (x.toNat % 2 ^ (j + 1)) =
      BitVec.ofNat w (x.toNat % 2 ^ j) + digit w x j := by
  have htwo : BitVec.ofNat w (2 ^ j) = BitVec.twoPow w j := by
    refine BitVec.eq_of_toNat_eq ?_
    rw [BitVec.toNat_ofNat, BitVec.toNat_twoPow]
  rw [Nat.mod_pow_succ, BitVec.ofNat_add, ← Nat.toNat_testBit, BitVec.testBit_toNat, digit]
  cases x.getLsbD j
  · simp
  · simp [htwo]

theorem mulByConstantBit_getD (expr : BitVec w) {add sub : BitVec 64}
    (hdisjoint : ∀ i, add.getLsbD i = true → sub.getLsbD i = false) {j : ℕ} (hj : j < 64)
    (res : Option (BitVec w)) :
    (mulByConstantBit expr add sub j res).getD 0#w =
      res.getD 0#w + expr * (digit w add j - digit w sub j) := by
  have hop : bvLeftShift expr j = expr * BitVec.twoPow w j := by
    rw [bvLeftShift_eq, BitVec.shiftLeft_eq_mul_twoPow]
  simp only [mulByConstantBit, digit, hop, and_bit_ne_zero hj]
  by_cases hadd : add.getLsbD j = true
  · have hsub := hdisjoint j hadd
    rw [if_pos (.inl hadd), if_pos hadd]
    cases res <;> simp [hadd, hsub]
  · by_cases hsub : sub.getLsbD j = true
    · rw [if_pos (.inr hsub), if_neg hadd]
      cases res <;> simp [hadd, hsub, sub_eq_add_neg]
    · rw [if_neg (by simp [hadd, hsub])]
      simp [hadd, hsub]

theorem mulByConstantFrom_getD (expr : BitVec w) {add sub : BitVec 64}
    (hdisjoint : ∀ i, add.getLsbD i = true → sub.getLsbD i = false) {j : ℕ} (hj : j ≤ 64)
    (res : Option (BitVec w)) :
    (mulByConstantFrom expr add sub j res).getD 0#w = res.getD 0#w +
      expr * (BitVec.ofNat w (add.toNat % 2 ^ j) - BitVec.ofNat w (sub.toNat % 2 ^ j)) := by
  induction j generalizing res with
  | zero => simp [mulByConstantFrom, Nat.mod_one]
  | succ j ih =>
    rw [mulByConstantFrom, ih (by omega), mulByConstantBit_getD expr hdisjoint hj,
      ofNat_mod_two_pow_succ, ofNat_mod_two_pow_succ]
    ring

theorem constructMulByConstant_eq (hw : w ≤ 64) (expr : BitVec w) (x : BitVec 64) :
    constructMulByConstant expr x = expr * x.setWidth w := by
  obtain ⟨hvalue, hzero⟩ := computeMultConstants64_spec x
  generalize hconsts : ComputeMultConstants64 x = consts at hvalue hzero
  obtain ⟨add, sub⟩ := consts
  have hdisjoint : ∀ i, (bits64.truncateToNBits add w).getLsbD i = true →
      (bits64.truncateToNBits sub w).getLsbD i = false := by
    intro i hi
    rw [bits64.truncateToNBits, BitVec.getLsbD_and, Bool.and_eq_true] at hi
    have hbit := congrArg (BitVec.getLsbD · i) hzero
    rw [BitVec.getLsbD_and, hi.1, Bool.true_and, BitVec.getLsbD_zero] at hbit
    rw [bits64.truncateToNBits, BitVec.getLsbD_and, hbit, Bool.false_and]
  have hcut : ∀ y : BitVec 64,
      BitVec.ofNat w ((bits64.truncateToNBits y w).toNat % 2 ^ 64) = y.setWidth w := by
    intro y
    refine BitVec.eq_of_toNat_eq ?_
    rw [BitVec.toNat_ofNat, BitVec.toNat_setWidth, Nat.mod_eq_of_lt (BitVec.isLt _),
      bits64.toNat_truncateToNBits y hw, Nat.mod_mod]
  have hloop := mulByConstantFrom_getD expr hdisjoint le_rfl none
  rw [hcut, hcut] at hloop
  simp only [constructMulByConstant, hconsts]
  have hsum : add.setWidth w = x.setWidth w + sub.setWidth w := by
    rw [← BitVec.setWidth_add _ _ hw, ← hvalue, sub_add_cancel]
  rw [bvZero, hloop, hsum, add_sub_cancel_right, Option.getD_none, BitVec.zero_add]

def constructUDivByConstant (expr_n : BitVec 32) (d : BitVec 64) : BitVec 32 :=
  let (mprime, sh1, sh2) := ComputeUDivConstants32 (d.setWidth 32)
  let expr_sh1 := bvConst32 32 sh1
  let expr_sh2 := bvConst32 32 sh2
  let expr_n_64 : BitVec 64 := bvZero 32 ++ expr_n
  let t1_64bits := constructMulByConstant expr_n_64 (mprime.setWidth 64)
  let t1 : BitVec 32 := bvExtract t1_64bits 63 32
  let n_minus_t1 := expr_n - t1
  let shift_sh1 := bvVarRightShift n_minus_t1 expr_sh1
  let plus_t1 := shift_sh1 + t1
  bvVarRightShift plus_t1 expr_sh2

def constructSDivByConstant (expr_n : BitVec 32) (d : BitVec 64) : BitVec 32 :=
  let (mprime, dsign, shpost) := ComputeSDivConstants32 (d.setWidth 32)
  let expr_dsign := bvConst32 32 dsign
  let expr_shpost := bvConst32 32 shpost
  let mprime_64 := mprime.signExtend 64
  let expr_n_64 := expr_n.signExtend 64
  let mult_64 := constructMulByConstant expr_n_64 mprime_64
  let mulsh : BitVec 32 := bvExtract mult_64 63 32
  let n_plus_mulsh := expr_n + mulsh
  let extend_npm := n_plus_mulsh.signExtend 64
  let shift_npm := bvVarRightShift extend_npm expr_shpost
  let shift_shpost : BitVec 32 := bvExtract shift_npm 31 0
  let is_signed := bvBoolExtract expr_n 31
  let xsign_of_n := vc_iteExpr is_signed (bvMinusOne 32) (bvZero 32)
  let q0 := shift_shpost - xsign_of_n
  let q0_xor_dsign := q0 ^^^ expr_dsign
  q0_xor_dsign - expr_dsign

/-! ### Quotients -/

theorem toNat_bvExtract_high (x : BitVec 64) : (bvExtract x 63 32).toNat = x.toNat / 2 ^ 32 := by
  have hlt := x.isLt
  rw [bvExtract, BitVec.extractLsb_toNat, Nat.shiftRight_eq_div_pow]
  omega

theorem bvConst32_self (x : BitVec 32) : bvConst32 32 x = x := BitVec.setWidth_eq x

theorem setWidth_word (d : BitVec 32) : (d.setWidth 64).setWidth 32 = d := by
  rw [BitVec.setWidth_setWidth_of_le _ (by decide), BitVec.setWidth_eq]

theorem toNat_mulhi (n m : BitVec 32) :
    (bvExtract (constructMulByConstant (bvZero 32 ++ n) (m.setWidth 64)) 63 32).toNat =
      n.toNat * m.toNat / 2 ^ 32 := by
  have hlt : n.toNat * m.toNat < 2 ^ 64 :=
    (Nat.mul_lt_mul'' n.isLt m.isLt : _ < 2 ^ 32 * 2 ^ 32)
  have hext : (bvZero 32 ++ n).toNat = n.toNat := by
    rw [BitVec.toNat_append, bvZero, BitVec.toNat_ofNat, Nat.zero_mod, Nat.zero_shiftLeft,
      Nat.zero_or]
  have hm : ((m.setWidth 64).setWidth 64).toNat = m.toNat := by
    rw [BitVec.setWidth_eq, BitVec.toNat_setWidth_of_le (by decide)]
  rw [toNat_bvExtract_high, constructMulByConstant_eq le_rfl, BitVec.toNat_mul, hext, hm,
    Nat.mod_eq_of_lt hlt]

theorem toNat_shifts {n t : BitVec 32} (ht : t.toNat ≤ n.toNat) (sh1 sh2 : BitVec 32) :
    (bvVarRightShift (bvVarRightShift (n - t) sh1 + t) sh2).toNat =
      ((n.toNat - t.toNat) / 2 ^ sh1.toNat + t.toNat) / 2 ^ sh2.toNat := by
  have hsize : Nat.size 32 ≤ 32 := Nat.size_le.mpr (by decide)
  have hle : (n.toNat - t.toNat) / 2 ^ sh1.toNat ≤ n.toNat - t.toNat := Nat.div_le_self _ _
  have hlt := n.isLt
  have hsub : (n - t).toNat = n.toNat - t.toNat := BitVec.toNat_sub_of_le (BitVec.le_def.mpr ht)
  rw [bvVarRightShift_eq _ _ (by decide) hsize, bvVarRightShift_eq _ _ (by decide) hsize,
    BitVec.toNat_ushiftRight, BitVec.toNat_add, BitVec.toNat_ushiftRight, hsub,
    Nat.shiftRight_eq_div_pow, Nat.shiftRight_eq_div_pow, Nat.mod_eq_of_lt (by omega)]

/-- The multiplier without the `2^32` that does not fit into a word. -/
theorem quotient_of_mulhi {d m l n : ℕ} (hd : 0 < d) (hle : d ≤ 2 ^ l) (hn : n < 2 ^ 32)
    (hm : m + 2 ^ 32 = 2 ^ 32 * 2 ^ l / d + 1) : (n + n * m / 2 ^ 32) / 2 ^ l = n / d := by
  obtain ⟨e, hexcess, -, he⟩ := exists_excess hd (2 ^ 32 * 2 ^ l)
  rw [← hm] at hexcess
  have hlt : e * n < 2 ^ 32 * 2 ^ l := by
    rw [Nat.mul_comm (2 ^ 32)]
    exact Nat.mul_lt_mul_of_le_of_lt (he.trans hle) hn (Nat.two_pow_pos l)
  rw [← mul_div_eq_div hexcess hd hlt, ← Nat.div_div_eq_div_mul, Nat.mul_add,
    Nat.add_mul_div_right _ _ (Nat.two_pow_pos 32), Nat.add_comm n]

theorem constructUDivByConstant_eq {d : BitVec 32} (hd : d ≠ 0#32) (n : BitVec 32) :
    constructUDivByConstant n (d.setWidth 64) = n / d := by
  obtain ⟨l, hle, hone, hm, hsh1, hsh2⟩ := computeUDivConstants32_spec hd
  have hquot := quotient_of_mulhi (BitVec.toNat_pos_of_ne_zero hd) hle n.isLt hm
  have hmul := toNat_mulhi n (ComputeUDivConstants32 d).1
  have ht : n.toNat * (ComputeUDivConstants32 d).1.toNat / 2 ^ 32 ≤ n.toNat := by
    refine Nat.div_le_of_le_mul ?_
    rw [Nat.mul_comm]
    exact Nat.mul_le_mul_right _ (BitVec.isLt _).le
  refine BitVec.eq_of_toNat_eq ?_
  simp only [constructUDivByConstant, bvConst32_self, setWidth_word]
  rw [toNat_shifts (by rw [hmul]; exact ht), hmul, hsh1, hsh2, BitVec.toNat_udiv, ← hquot]
  cases l with
  | zero =>
    have hmprime : (ComputeUDivConstants32 d).1.toNat = 1 := by
      rw [hone rfl] at hm
      omega
    have hlt := n.isLt
    have hzero : n.toNat * (ComputeUDivConstants32 d).1.toNat / 2 ^ 32 = 0 := by
      rw [hmprime, Nat.mul_one, Nat.div_eq_of_lt hlt]
    rw [hzero]
    simp
  | succ l =>
    have hsh1 : min (l + 1) 1 = 1 := by omega
    have hsh2 : l + 1 - 1 = l := rfl
    rw [hsh1, hsh2, pow_one, half_sub_add ht, Nat.div_div_eq_div_mul, pow_succ' 2 l]

theorem toInt_bvExtract_high (x : BitVec 64) : (bvExtract x 63 32).toInt = x.toInt / 2 ^ 32 := by
  have hlt := x.isLt
  have hhigh := toNat_bvExtract_high x
  rw [BitVec.toInt_eq_toNat_cond, BitVec.toInt_eq_toNat_cond, hhigh]
  split_ifs <;> omega

/-- Within the low word a logical shift of a sign extension is an arithmetic one. -/
theorem bvExtract_shifted (a : BitVec 32) {s : ℕ} (hs : s ≤ 32) :
    bvExtract (a.signExtend 64 >>> s) 31 0 = a.sshiftRight s := by
  refine BitVec.eq_of_getLsbD_eq fun i hi => ?_
  have hlow : i < 32 := hi
  have hwide : s + i < 64 := by omega
  rw [bvExtract, BitVec.getLsbD_extractLsb, BitVec.getLsbD_ushiftRight, BitVec.getLsbD_signExtend,
    BitVec.getLsbD_sshiftRight]
  simp [hlow, hwide]

theorem bvBoolExtract_sign (n : BitVec 32) : bvBoolExtract n 31 = decide (n.toInt < 0) := by
  have hlt := n.isLt
  have hbit : (bvExtract n 31 31).toNat = n.toNat / 2 ^ 31 := by
    rw [bvExtract, BitVec.extractLsb_toNat, Nat.shiftRight_eq_div_pow]
    omega
  rw [bvBoolExtract, Bool.eq_iff_iff, beq_iff_eq, decide_eq_true_eq, ← BitVec.toNat_inj, hbit,
    BitVec.toInt_eq_toNat_cond]
  have hone : BitVec.toNat (1 : BitVec (31 - 31 + 1)) = 1 := rfl
  rw [hone]
  split_ifs <;> omega

/-- A word holds a sum, difference or product in its range. -/
theorem bmod_word {a : ℤ} (hlow : -2 ^ 31 ≤ a) (hhigh : a < 2 ^ 31) : a.bmod (2 ^ 32) = a := by
  rw [Int.bmod_eq_of_le] <;> omega

theorem toInt_signedMulhi (n m : BitVec 32) :
    (bvExtract (constructMulByConstant (n.signExtend 64) (m.signExtend 64)) 63 32).toInt =
      n.toInt * m.toInt / 2 ^ 32 := by
  have hn := toInt_bounds n
  have hm := toInt_bounds m
  have habs : (n.toInt * m.toInt).natAbs ≤ 2 ^ 31 * 2 ^ 31 := by
    rw [Int.natAbs_mul]
    exact Nat.mul_le_mul (by omega) (by omega)
  rw [toInt_bvExtract_high, constructMulByConstant_eq le_rfl, BitVec.setWidth_eq,
    BitVec.toInt_mul, BitVec.toInt_signExtend_of_le (by decide),
    BitVec.toInt_signExtend_of_le (by decide), Int.bmod_eq_of_le (by omega) (by omega)]

/-- The sum with the high part does not leave the range of the numerator. -/
theorem signedMulhi_bounds {n m : ℤ} (hn : -2 ^ 31 ≤ n ∧ n < 2 ^ 31) (hlow : -2 ^ 32 ≤ m)
    (hhigh : m ≤ 0) : -2 ^ 31 ≤ n + n * m / 2 ^ 32 ∧ n + n * m / 2 ^ 32 < 2 ^ 31 := by
  rcases le_total 0 n with hpos | hneg
  · have hle : n * m ≤ 0 := mul_nonpos_of_nonneg_of_nonpos hpos hhigh
    have hge : n * -2 ^ 32 ≤ n * m := mul_le_mul_of_nonneg_left hlow hpos
    omega
  · have hge : 0 ≤ n * m := mul_nonneg_of_nonpos_of_nonpos hneg hhigh
    have hle : n * m ≤ n * -2 ^ 32 := mul_le_mul_of_nonpos_left hlow hneg
    omega

theorem quotient_of_signedMulhi {d l : ℕ} {n m : ℤ} (hd : 0 < d) (hle : d ≤ 2 ^ (l + 1))
    (hn : -2 ^ 31 ≤ n ∧ n < 2 ^ 31) (hm : m + 2 ^ 32 = (2 ^ 32 * 2 ^ l / d + 1 : ℕ)) :
    (n + n * m / 2 ^ 32) / 2 ^ l - (if n < 0 then -1 else 0) = n.tdiv d := by
  obtain ⟨e, hexcess, hpos, he⟩ := exists_excess hd (2 ^ 32 * 2 ^ l)
  have hpow : 2 ^ 32 * 2 ^ l = 2 ^ (l + 1) * 2 ^ 31 := by rw [← pow_add, ← pow_add, Nat.add_comm]
  have hneg : e * n.natAbs ≤ 2 ^ 32 * 2 ^ l := by
    rw [hpow]
    exact Nat.mul_le_mul (he.trans hle) (by omega)
  have hnonneg : 0 ≤ n → e * n.natAbs < 2 ^ 32 * 2 ^ l := by
    intro h
    rw [hpow]
    exact Nat.mul_lt_mul_of_le_of_lt (he.trans hle) (by omega) (Nat.two_pow_pos _)
  have hsum : n + n * m / 2 ^ 32 = n * (m + 2 ^ 32) / 2 ^ 32 := by
    rw [mul_add, Int.add_mul_ediv_right _ _ (by decide), add_comm]
  rw [← mul_ediv_eq_tdiv hexcess hd hpos hneg hnonneg, ← hm, hsum,
    Int.ediv_ediv_of_nonneg (by decide)]
  push_cast
  rfl

theorem toInt_signedShift {a s : BitVec 32} (hs : s.toNat ≤ 32) :
    (bvExtract (bvVarRightShift (a.signExtend 64) s) 31 0).toInt = a.toInt / 2 ^ s.toNat := by
  have hsize : Nat.size 64 ≤ 32 := Nat.size_le.mpr (by decide)
  rw [bvVarRightShift_eq _ _ (by decide) hsize, bvExtract_shifted _ hs]
  exact BitVec.toInt_sshiftRight.trans (Int.shiftRight_eq_div_pow _ _)

theorem toInt_xsign (n : BitVec 32) :
    (vc_iteExpr (bvBoolExtract n 31) (bvMinusOne 32) (bvZero 32)).toInt =
      if n.toInt < 0 then -1 else 0 := by
  rw [vc_iteExpr, bvBoolExtract_sign]
  by_cases h : n.toInt < 0 <;> simp [h] <;> rfl

/-- `(q0 ^ dsign) - dsign` changes the sign for a negative divisor. -/
theorem toInt_signed {q0 dsign : BitVec 32} {d : ℤ}
    (hsign : dsign = if d < 0 then BitVec.allOnes 32 else 0#32) (hq : q0.toInt ≠ -2 ^ 31) :
    ((q0 ^^^ dsign) - dsign).toInt = if d < 0 then -q0.toInt else q0.toInt := by
  have hbounds := toInt_bounds q0
  split_ifs at hsign ⊢ with hneg
  · have hneg : (q0 ^^^ dsign) - dsign = -q0 := by
      rw [hsign, BitVec.xor_allOnes, ← BitVec.neg_one_eq_allOnes, sub_neg_eq_add,
        BitVec.neg_eq_not_add]
    rw [hneg, BitVec.toInt_neg, bmod_word (by omega) (by omega)]
  · rw [hsign, BitVec.xor_zero, BitVec.sub_zero]

theorem constructSDivByConstant_eq {d : BitVec 32} (hd : 2 ≤ d.toInt.natAbs) (n : BitVec 32) :
    (constructSDivByConstant n (d.setWidth 64)).toInt = n.toInt.tdiv d.toInt := by
  obtain ⟨l, hle, hgt, hl, hm, hsign, hpost⟩ := computeSDivConstants32_spec hd
  have hn := toInt_bounds n
  have hmul := toInt_signedMulhi n (ComputeSDivConstants32 d).1
  have hquot := quotient_of_signedMulhi (by omega) hle hn hm
  have hrange : 2 ^ 32 * 2 ^ l / d.toInt.natAbs + 1 ≤ 2 ^ 32 := by
    refine Nat.succ_le_of_lt ((Nat.div_lt_iff_lt_mul (by omega)).mpr ?_)
    omega
  have hbounds := signedMulhi_bounds (m := (ComputeSDivConstants32 d).1.toInt) hn
  generalize 2 ^ 32 * 2 ^ l / d.toInt.natAbs = k at hm hrange
  have hnpm := hbounds (by omega) (by omega)
  have habs : (n.toInt.tdiv d.toInt.natAbs).natAbs ≤ 2 ^ 30 := by
    rw [Int.natAbs_tdiv, Int.natAbs_natCast]
    exact (Nat.div_le_div_left hd Nat.two_pos).trans (Nat.div_le_of_le_mul (by omega))
  simp only [constructSDivByConstant, bvConst32_self, setWidth_word]
  generalize ComputeSDivConstants32 d = consts at *
  obtain ⟨mprime, dsign, shpost⟩ := consts
  simp only at hmul hquot hsign hpost hnpm ⊢
  generalize bvExtract (constructMulByConstant (n.signExtend 64) (mprime.signExtend 64)) 63 32 =
    mulsh at hmul ⊢
  have hadd : (n + mulsh).toInt = n.toInt + n.toInt * mprime.toInt / 2 ^ 32 := by
    rw [BitVec.toInt_add, hmul, bmod_word hnpm.1 hnpm.2]
  have hshift := toInt_signedShift (a := n + mulsh) (s := shpost) (by omega)
  rw [hadd, hpost] at hshift
  generalize bvExtract (bvVarRightShift ((n + mulsh).signExtend 64) shpost) 31 0 =
    shift_shpost at hshift ⊢
  have hq0 : (shift_shpost - vc_iteExpr (bvBoolExtract n 31) (bvMinusOne 32) (bvZero 32)).toInt =
      n.toInt.tdiv d.toInt.natAbs := by
    rw [BitVec.toInt_sub, hshift, toInt_xsign, hquot, bmod_word (by omega) (by omega)]
  rw [toInt_signed hsign (by rw [hq0]; omega), hq0]
  split_ifs with hneg
  · have hd : d.toInt = -(d.toInt.natAbs : ℤ) := by omega
    rw [hd, Int.tdiv_neg, Int.natAbs_neg, Int.natAbs_natCast]
  · have hd : (d.toInt.natAbs : ℤ) = d.toInt := by omega
    rw [hd]

/-- The terms are exact: a constant is the difference of its two recoded parts, which share
no bit, products are products modulo `2^w`, and quotients are those of the numbers. -/
theorem byConstant_exact :
    (∀ x : BitVec 64,
      (∃ n, MultConstants.loop ⟨x, 0, 0⟩ = MultConstants.round^[n] ⟨x, 0, 0⟩ ∧
        (MultConstants.loop ⟨x, 0, 0⟩).x = 0#64) ∧
      (ComputeMultConstants64 x).1 - (ComputeMultConstants64 x).2 = x ∧
      (ComputeMultConstants64 x).1 &&& (ComputeMultConstants64 x).2 = 0#64) ∧
    (∀ w ≤ 64, ∀ (expr : BitVec w) (x : BitVec 64),
      constructMulByConstant expr x = expr * x.setWidth w) ∧
    (∀ d : BitVec 32, d ≠ 0#32 → ∀ n, constructUDivByConstant n (d.setWidth 64) = n / d) ∧
    ∀ d : BitVec 32, d ≠ 0#32 → d ≠ 1#32 → d ≠ -1#32 → ∀ n,
      (constructSDivByConstant n (d.setWidth 64)).toInt = n.toInt.tdiv d.toInt := by
  refine ⟨fun x => ⟨MultConstants.exists_rounds _, computeMultConstants64_spec x⟩,
    fun w hw expr x => constructMulByConstant_eq hw expr x,
    fun d hd n => constructUDivByConstant_eq hd n, ?_⟩
  intro d hzero hone hminus n
  have hzero : d.toInt ≠ 0 := fun h => hzero (BitVec.eq_of_toInt_eq h)
  have hone : d.toInt ≠ 1 := fun h => hone (BitVec.eq_of_toInt_eq h)
  have hminus : d.toInt ≠ -1 := fun h => hminus (BitVec.eq_of_toInt_eq h)
  exact constructSDivByConstant_eq (by omega) n

end TaseVerifier.STPBuilder
