import TaseVerifier.Expr.EqSound
import TaseVerifier.Solver.BuilderShifts
import TaseVerifier.Solver.FastCexExact

/-! The terms have the values of the expressions they are built for, in every model of the
arrays in which the reads find the bytes of the assignment. -/

namespace TaseVerifier

namespace APInt

variable {w : ℕ} (x y : BitVec w)

theorem udiv_mk : udiv ⟨w, x⟩ ⟨w, y⟩ = ⟨w, x.smtUDiv y⟩ := map₂_mk ..
theorem sdiv_mk : sdiv ⟨w, x⟩ ⟨w, y⟩ = ⟨w, x.smtSDiv y⟩ := map₂_mk ..
theorem urem_mk : urem ⟨w, x⟩ ⟨w, y⟩ = ⟨w, x % y⟩ := map₂_mk ..

end APInt

/-- A condition on the value, when the expression is a constant. -/
def Expr.ifConstant (p : APInt → Bool) : Expr → Bool
  | .constant c => p c
  | _ => true

namespace ExprHandle

variable {x y : APInt} {w : ℕ}

theorem ofValue_bv (h : x.width ≠ 1) : ofValue x = .bv x := if_neg h

theorem ofValue_ofBool (b : Bool) : ofValue (APInt.ofBool b) = .bool b := by
  rw [ofValue, if_pos (APInt.width_ofBool b), APInt.isTrue_ofBool]

theorem bvExpr_ofValue (op : APInt → APInt → APInt) (hx : x.width = w) (hy : y.width = w)
    (hw : w ≠ 1) : bvExpr op (ofValue x) (ofValue y) = some (.bv (op x y)) := by
  rw [ofValue_bv (hx ▸ hw), ofValue_bv (hy ▸ hw)]
  simp [bvExpr, getBV, hx, hy]

theorem cmpExpr_ofValue (op : APInt → APInt → APInt) (hx : x.width = w) (hy : y.width = w)
    (hw : w ≠ 1) : cmpExpr op (ofValue x) (ofValue y) = some (.bool (op x y).isTrue) := by
  rw [ofValue_bv (hx ▸ hw), ofValue_bv (hy ▸ hw)]
  simp [cmpExpr, getBV, hx, hy]

theorem bvExtract_ofValue (hx : x.width ≠ 1) {off n : ℕ} (hn : 0 < n) (hle : off + n ≤ x.width) :
    bvExtract (ofValue x) (off + n - 1) off = some (.bv (x.extract off n)) := by
  have hlen : off + n - 1 - off + 1 = n := by omega
  have hin : off ≤ off + n - 1 ∧ off + n - 1 < x.width := ⟨by omega, by omega⟩
  rw [ofValue_bv hx]
  simp [bvExtract, getBV, hlen, hin]

theorem const_eq (h : x.width ≠ 0) : const x = some (.bv x) := if_neg h

theorem iteExpr_ofValue (c : Bool) (hx : x.width = w) (hy : y.width = w) :
    iteExpr (.bool c) (ofValue x) (ofValue y) = some (ofValue (if c then x else y)) := by
  by_cases hw : w = 1
  · subst hw
    rw [x.eq_ofBool hx, y.eq_ofBool hy, ofValue_ofBool, ofValue_ofBool, ← apply_ite APInt.ofBool,
      ofValue_ofBool]
    rfl
  · rw [ofValue_bv (hx ▸ hw), ofValue_bv (hy ▸ hw), ofValue_bv]
    · cases c <;> simp [iteExpr, getBool, hx, hy]
    · cases c <;> simp [hx, hy, hw]

end ExprHandle

namespace bits64

/-- A power of two and the index of its bit. -/
theorem isPowerOfTwo_spec {x : BitVec 64} (h : isPowerOfTwo x = true) :
    indexOfSingleBit x < 64 ∧ x.toNat = 2 ^ indexOfSingleBit x := by
  rw [isPowerOfTwo, Bool.and_eq_true, decide_eq_true_eq, beq_iff_eq] at h
  obtain ⟨hne, hand⟩ := h
  have hpos : x.toNat ≠ 0 := (BitVec.toNat_pos_of_ne_zero hne).ne'
  have hsub : (x - 1#64).toNat = x.toNat - 1 := by
    have hlt := x.isLt
    rw [BitVec.toNat_sub]
    simp only [BitVec.toNat_ofNat]
    omega
  have hnat := congrArg BitVec.toNat hand
  rw [BitVec.toNat_and, hsub, BitVec.toNat_ofNat, Nat.zero_mod,
    Nat.and_sub_one_eq_zero_iff_isPowerOfTwo hpos] at hnat
  obtain ⟨k, hk⟩ := hnat
  have hk64 : k < 64 := (Nat.pow_lt_pow_iff_right Nat.one_lt_two).mp (hk ▸ x.isLt)
  have hx : x = BitVec.twoPow 64 k :=
    BitVec.eq_of_toNat_eq (by rw [hk, BitVec.toNat_twoPow_of_lt hk64])
  have hindex : indexOfSingleBit x = k := by
    rw [hx]
    exact indexOfSingleBit_twoPow ⟨k, hk64⟩
  rw [hindex]
  exact ⟨hk64, hk⟩

end bits64

namespace Builder

open ExprHandle STPBuilder

variable {b : Builder} {x y : APInt} {w : ℕ} {l r : Expr}

/-! ### Constants -/

theorem extract_eq (c : APInt) {off n : ℕ} (h : off + n ≤ c.width) :
    ConstantExpr.Extract c off n = c.extract off n := by
  rw [ConstantExpr.Extract, APInt.sshiftRight_setWidth c.val h]
  rfl

theorem concat_assoc (a c d : APInt) : (a.concat c).concat d = a.concat (c.concat d) := by
  refine APInt.ext_toNat (by simp [Nat.add_assoc]) ?_
  simp only [APInt.concat, APInt.toNat, BitVec.toNat_append, Nat.shiftLeft_or_distrib,
    Nat.or_assoc, ← Nat.shiftLeft_add]

/-- The loop puts the words above the lowest one before what there is. -/
theorem wideConstant_eq (tmp res : APInt) : wideConstant tmp res =
    if 64 < tmp.width then (tmp.extract 64 (tmp.width - 64)).concat res else res := by
  induction tmp, res using wideConstant.induct with
  | case1 tmp res hlt tmp' ih =>
    have htmp : tmp' = tmp.extract 64 (tmp.width - 64) := extract_eq tmp (by omega)
    have hwidth : tmp'.width = tmp.width - 64 := rfl
    unfold wideConstant
    simp only [hlt, if_true]
    change wideConstant tmp' _ = _
    rw [ih, ← htmp, extract_eq tmp' (by omega)]
    split_ifs with hmore
    · have hmin : min 64 tmp'.width = 64 := by omega
      have hjoin := APInt.concat_extract tmp' 0 (tmp'.width - 64) 64
      rw [Nat.zero_add, Nat.sub_add_cancel hmore.le, tmp'.extract_self rfl] at hjoin
      rw [hmin, ← concat_assoc, hjoin]
    · rw [Nat.min_eq_right (by omega), tmp'.extract_self rfl]
  | case2 tmp res hle =>
    unfold wideConstant
    rw [if_neg hle, if_neg hle]

theorem constructConstant_eq (c : APInt) (h : c.width ≠ 0) :
    constructConstant c = some (ofValue c, c.width) := by
  unfold constructConstant
  split_ifs with h1 h64
  · rw [ofValue, if_pos h1, h1]
  · rw [const_eq h, ofValue_bv h1]
    rfl
  · rw [wideConstant_eq, if_pos (by omega), extract_eq c (by omega), ofValue_bv h1]
    have hjoin := APInt.concat_extract c 0 (c.width - 64) 64
    rw [Nat.zero_add, Nat.sub_add_cancel (by omega), c.extract_self rfl] at hjoin
    rw [hjoin]

/-! ### Operators -/

/-- The term of an operand of width `w` with the value `x`. -/
def Denotes (t : Option (ExprHandle × ℕ)) (w : ℕ) (x : APInt) : Prop :=
  x.width = w ∧ t = some (ofValue x, w)

variable {L R : Option (ExprHandle × ℕ)}

theorem arithExpr_denotes (op : APInt → APInt → APInt) (hop : (op x y).width = x.width)
    (hl : Denotes L w x) (hr : Denotes R w y) (hw : w ≠ 1) :
    Denotes (arithExpr op L R) w (op x y) := by
  obtain ⟨hx, rfl⟩ := hl
  obtain ⟨hy, rfl⟩ := hr
  have hopw : (op x y).width = w := hop.trans hx
  have hval : ofValue (op x y) = .bv (op x y) := ofValue_bv (by rw [hopw]; exact hw)
  refine ⟨hopw, ?_⟩
  rw [hval]
  simp [arithExpr, hw, bvExpr_ofValue op hx hy hw]

theorem compareExpr_denotes (op : APInt → APInt → APInt) (hop : (op x y).width = 1)
    (hl : Denotes L w x) (hr : Denotes R w y) (hw : w ≠ 1) :
    Denotes (compareExpr op L R) 1 (op x y) := by
  obtain ⟨hx, rfl⟩ := hl
  obtain ⟨hy, rfl⟩ := hr
  refine ⟨hop, ?_⟩
  have hval : ofValue (op x y) = .bool (op x y).isTrue := if_pos hop
  rw [hval]
  simp [compareExpr, hw, cmpExpr_ofValue op hx hy hw]

theorem logicExpr_denotes {op : Bool → Bool → Bool} {bvOp : APInt → APInt → APInt}
    (hop : (bvOp x y).width = x.width)
    (hbool : ∀ p q, bvOp (APInt.ofBool p) (APInt.ofBool q) = APInt.ofBool (op p q))
    (hl : Denotes L w x) (hr : Denotes R w y) : Denotes (logicExpr op bvOp L R) w (bvOp x y) := by
  by_cases hw : w = 1
  · obtain ⟨hx, rfl⟩ := hl
    obtain ⟨hy, rfl⟩ := hr
    subst hw
    refine ⟨hop.trans hx, ?_⟩
    rw [x.eq_ofBool hx, y.eq_ofBool hy, hbool, ofValue_ofBool, ofValue_ofBool, ofValue_ofBool]
    rfl
  · obtain ⟨hx, rfl⟩ := hl
    obtain ⟨hy, rfl⟩ := hr
    have hopw : (bvOp x y).width = w := hop.trans hx
    have hval : ofValue (bvOp x y) = .bv (bvOp x y) := ofValue_bv (by rw [hopw]; exact hw)
    refine ⟨hopw, ?_⟩
    rw [hval]
    simp [logicExpr, hw, bvExpr_ofValue bvOp hx hy hw]

/-- An equality with a boolean constant is the other operand or its negation. -/
theorem constructEq_denotes (hl : Denotes L w x) (hr : Denotes R w y)
    (hc : ∀ c, l = .constant c → x = c) : Denotes (constructEq l L R) 1 (APInt.eq x y) := by
  obtain ⟨hx, rfl⟩ := hl
  obtain ⟨hy, rfl⟩ := hr
  refine ⟨rfl, ?_⟩
  by_cases hw : w = 1
  · subst hw
    have hval : APInt.eq x y = APInt.ofBool ((x.toNat == 1) == (y.toNat == 1)) := by
      rw [APInt.eq_eq_ofBool (hx.trans hy.symm), x.eq_ofBool hx, y.eq_ofBool hy, APInt.ofBool_inj]
      simp only [APInt.ofBool_inj, APInt.toNat_ofBool]
      cases x.toNat == 1 <;> cases y.toNat == 1 <;> rfl
    rw [hval, ofValue_ofBool, x.eq_ofBool hx, y.eq_ofBool hy, ofValue_ofBool, ofValue_ofBool]
    simp only [APInt.toNat_ofBool]
    unfold constructEq
    split
    next c =>
      have hcx : c = APInt.ofBool (x.toNat == 1) := (hc c rfl).symm.trans (x.eq_ofBool hx)
      subst hcx
      cases x.toNat == 1 <;> cases y.toNat == 1 <;> rfl
    next => cases x.toNat == 1 <;> cases y.toNat == 1 <;> rfl
  · have hbool : ofValue (APInt.eq x y) = .bool (APInt.eq x y).isTrue := if_pos rfl
    rw [hbool]
    simp [constructEq, hw, cmpExpr_ofValue APInt.eq hx hy hw]

theorem getBV_ofValue (hx : x.width = w) (hw : w ≠ 1) : (ofValue x).getBV = some x := by
  rw [ofValue_bv (hx ▸ hw)]
  rfl

theorem constructShift_denotes {k : BinaryKind} (hk : IsShift k) (hl : Denotes L w x)
    (hr : Denotes R w y) (hc : ∀ c, r = .constant c → y = c ∧ amountFits w c = true) (h1 : w ≠ 1)
    (h0 : w ≠ 0) (hw : w < 2 ^ 32) (h64 : k = .AShr → w ≤ 64) :
    Denotes (b.constructShift k r L R) w (k.apply x y) := by
  obtain ⟨hx, rfl⟩ := hl
  obtain ⟨hy, rfl⟩ := hr
  have hkw : (k.apply x y).width = w := by
    rw [k.width_apply, hx]
    obtain rfl | rfl | rfl := hk <;> rfl
  have hval : ofValue (k.apply x y) = .bv (k.apply x y) := ofValue_bv (by rw [hkw]; exact h1)
  refine ⟨hkw, ?_⟩
  rw [hval]
  unfold constructShift
  simp only [Option.bind_eq_bind, Option.bind_some, h1, if_false, getBV_ofValue hx h1,
    getBV_ofValue hy h1]
  obtain ⟨x', rfl⟩ := x.ofWidth hx
  obtain ⟨y', rfl⟩ := y.ofWidth hy
  split
  next c =>
    obtain ⟨hyc, hfits⟩ := hc c rfl
    subst hyc
    rw [bvShift_eq hk x' y' h0 hw h64 hfits]
    rfl
  next =>
    rw [bvVarShift_eq b hk x' y' hw h64]
    rfl

/-! ### Products and quotients -/

theorem constructMul_denotes (hl : Denotes L w x) (hr : Denotes R w y)
    (hc : ∀ c, l = .constant c → x = c) (hw : w ≠ 1) :
    Denotes (b.constructMul l L R) w (x.mul y) := by
  obtain ⟨hx, rfl⟩ := hl
  obtain ⟨hy, rfl⟩ := hr
  have hop : (x.mul y).width = w := hx
  have hval : ofValue (x.mul y) = .bv (x.mul y) := ofValue_bv (by rw [hop]; exact hw)
  refine ⟨hop, ?_⟩
  rw [hval]
  unfold constructMul
  simp only [Option.bind_eq_bind, Option.bind_some, hw, if_false, getBV_ofValue hy hw,
    bvExpr_ofValue APInt.mul hx hy hw]
  split
  next o c =>
    have hxc : x = c := hc c rfl
    subst hxc
    split_ifs with h64
    · obtain ⟨x', rfl⟩ := x.ofWidth hx
      obtain ⟨y', rfl⟩ := y.ofWidth hy
      have hle : w ≤ 64 := h64
      have hround : (x'.setWidth 64).setWidth w = x' := by
        rw [BitVec.setWidth_setWidth_of_le x' hle, BitVec.setWidth_eq]
      rw [constructMulByConstant_eq hle, hround, APInt.mul_mk, BitVec.mul_comm]
      rfl
    · rfl
  next => rfl

/-- The right operand of a quotient is a constant other than zero where it is expanded. -/
def divisorFits (b : Builder) (w : ℕ) (c : APInt) : Bool :=
  !decide (b = .STP true ∧ w = 32) || !c.isZero

theorem ne_zero_of_divisorFits {o : Builder} {d : BitVec w} (h : divisorFits o w ⟨w, d⟩ = true)
    (hopt : o = .STP true ∧ w = 32) : d ≠ 0#w := by
  rw [divisorFits, decide_eq_true hopt, Bool.not_true, Bool.false_or, Bool.not_eq_true'] at h
  intro h0
  rw [(APInt.isZero_mk _).mpr h0] at h
  exact Bool.false_ne_true h.symm

theorem toNat_of_isPowerOfTwo {d : BitVec w} (h64 : w ≤ 64)
    (hpow : bits64.isPowerOfTwo (d.setWidth 64) = true) :
    d.toNat = 2 ^ bits64.indexOfSingleBit (d.setWidth 64) := by
  obtain ⟨-, hspec⟩ := bits64.isPowerOfTwo_spec hpow
  rw [← hspec, BitVec.toNat_setWidth_of_le h64]

theorem udiv_of_isPowerOfTwo {n d : BitVec w} (h64 : w ≤ 64)
    (hpow : bits64.isPowerOfTwo (d.setWidth 64) = true) :
    bvRightShift n (bits64.indexOfSingleBit (d.setWidth 64)) = n.smtUDiv d := by
  have hd := toNat_of_isPowerOfTwo h64 hpow
  have hd0 : d ≠ 0#w := by
    rintro rfl
    rw [BitVec.toNat_zero] at hd
    exact absurd hd.symm (Nat.two_pow_pos _).ne'
  rw [bvRightShift_eq, BitVec.smtUDiv_eq, if_neg hd0]
  refine BitVec.eq_of_toNat_eq ?_
  rw [BitVec.toNat_ushiftRight, BitVec.toNat_udiv, hd, Nat.shiftRight_eq_div_pow]

theorem constructUDiv_denotes (hl : Denotes L w x) (hr : Denotes R w y)
    (hc : ∀ c, r = .constant c → y = c ∧ divisorFits b w c = true) (hw : w ≠ 1) :
    Denotes (b.constructUDiv r L R) w (x.udiv y) := by
  obtain ⟨hx, rfl⟩ := hl
  obtain ⟨hy, rfl⟩ := hr
  have hop : (x.udiv y).width = w := hx
  have hval : ofValue (x.udiv y) = .bv (x.udiv y) := ofValue_bv (by rw [hop]; exact hw)
  refine ⟨hop, ?_⟩
  rw [hval]
  unfold constructUDiv
  simp only [Option.bind_eq_bind, Option.bind_some, hw, if_false, getBV_ofValue hx hw,
    bvExpr_ofValue APInt.udiv hx hy hw]
  split
  next c =>
    obtain ⟨hyc, hfits⟩ := hc c rfl
    subst hyc
    obtain ⟨x', rfl⟩ := x.ofWidth hx
    obtain ⟨y', rfl⟩ := y.ofWidth hy
    split_ifs with h64 hpow hopt
    · rfl
    · rw [udiv_of_isPowerOfTwo (by omega) hpow, APInt.udiv_mk]
      rfl
    · have hd := ne_zero_of_divisorFits hfits hopt
      obtain ⟨-, rfl⟩ := hopt
      rw [BitVec.setWidth_eq, constructUDivByConstant_eq hd, APInt.udiv_mk, BitVec.smtUDiv_eq,
        if_neg hd]
      rfl
    · rfl
  next => rfl

theorem smtSDiv_eq_sdiv {n d : BitVec w} (hd : d ≠ 0#w) : n.smtSDiv d = n.sdiv d := by
  have hneg : -d ≠ 0#w := fun h => hd (BitVec.neg_eq_zero_iff.mp h)
  rw [BitVec.smtSDiv_eq, BitVec.sdiv_eq]
  cases n.msb <;> cases d.msb <;> simp [BitVec.smtUDiv_eq, hd, hneg]

theorem natAbs_toInt_of_ne {d : BitVec 32} (h0 : d ≠ 0#32) (h1 : d ≠ 1#32) (hm : d ≠ -1#32) :
    2 ≤ d.toInt.natAbs := by
  have h0' : d.toInt ≠ 0 := fun h => h0 (BitVec.eq_of_toInt_eq (by rw [h]; rfl))
  have h1' : d.toInt ≠ 1 := fun h => h1 (BitVec.eq_of_toInt_eq (by rw [h]; rfl))
  have hm' : d.toInt ≠ -1 := fun h => hm (BitVec.eq_of_toInt_eq (by rw [h]; rfl))
  omega

theorem constructSDivByConstant_eq_sdiv {d : BitVec 32} (hd : 2 ≤ d.toInt.natAbs)
    (n : BitVec 32) : constructSDivByConstant n (d.setWidth 64) = n.sdiv d := by
  have hquot := constructSDivByConstant_eq hd n
  refine BitVec.eq_of_toInt_eq ?_
  rw [BitVec.toInt_sdiv, ← hquot, BitVec.toInt_bmod_cancel]

theorem constructSDiv_denotes (hl : Denotes L w x) (hr : Denotes R w y)
    (hc : ∀ c, r = .constant c → y = c ∧ divisorFits b w c = true) (hw : w ≠ 1) :
    Denotes (b.constructSDiv r L R) w (x.sdiv y) := by
  obtain ⟨hx, rfl⟩ := hl
  obtain ⟨hy, rfl⟩ := hr
  have hop : (x.sdiv y).width = w := hx
  have hval : ofValue (x.sdiv y) = .bv (x.sdiv y) := ofValue_bv (by rw [hop]; exact hw)
  refine ⟨hop, ?_⟩
  rw [hval]
  unfold constructSDiv
  simp only [Option.bind_eq_bind, Option.bind_some, hw, if_false, getBV_ofValue hx hw,
    bvExpr_ofValue APInt.sdiv hx hy hw]
  split
  next c =>
    obtain ⟨hyc, hfits⟩ := hc c rfl
    subst hyc
    obtain ⟨x', rfl⟩ := x.ofWidth hx
    obtain ⟨y', rfl⟩ := y.ofWidth hy
    split_ifs with hopt
    · obtain ⟨hb, h1, hm, rfl⟩ := hopt
      have hd := ne_zero_of_divisorFits hfits ⟨hb, rfl⟩
      rw [BitVec.setWidth_eq, constructSDivByConstant_eq_sdiv (natAbs_toInt_of_ne hd h1 hm),
        APInt.sdiv_mk, smtSDiv_eq_sdiv hd]
      rfl
    · rfl
  next => rfl

theorem urem_of_isPowerOfTwo {n d : BitVec w} (h64 : w ≤ 64)
    (hpow : bits64.isPowerOfTwo (d.setWidth 64) = true) :
    (n % d).toNat = n.toNat % 2 ^ bits64.indexOfSingleBit (d.setWidth 64) := by
  rw [BitVec.toNat_umod, toNat_of_isPowerOfTwo h64 hpow]

theorem zero_concat (z : APInt) (n : ℕ) :
    (APInt.ofNat n 0).concat z = z.zext (n + z.width) := by
  have hz := z.toNat_lt
  have hlt : z.toNat < 2 ^ (n + z.width) :=
    hz.trans_le (Nat.pow_le_pow_right Nat.two_pos (by omega))
  refine APInt.ext_toNat rfl ?_
  simp only [APInt.toNat, APInt.concat, APInt.ofNat, APInt.zext, BitVec.toNat_append,
    BitVec.toNat_ofNat, Nat.zero_mod, Nat.zero_shiftLeft, Nat.zero_or, BitVec.toNat_setWidth]
  exact (Nat.mod_eq_of_lt hlt).symm

/-- The low bits of the dividend are the remainder by a power of two. -/
theorem zext_extract_eq {n m : BitVec w} {k : ℕ} (hk : k < w) (hm : m.toNat = n.toNat % 2 ^ k) :
    ((⟨w, n⟩ : APInt).extract 0 k).zext (w - k + k) = ⟨w, m⟩ := by
  have hlt : n.toNat % 2 ^ k < 2 ^ w := (Nat.mod_le _ _).trans_lt n.isLt
  refine APInt.ext_toNat (Nat.sub_add_cancel hk.le) ?_
  change (((n.extractLsb' 0 k).setWidth (w - k + k)).toNat) = m.toNat
  rw [hm, Nat.sub_add_cancel hk.le, BitVec.toNat_setWidth, BitVec.extractLsb'_toNat,
    Nat.shiftRight_zero, Nat.mod_eq_of_lt hlt]

theorem sub_udiv_mul (n d : BitVec w) : n - n / d * d = n % d := by
  have hsum : n % d + n / d * d = n := by
    refine BitVec.eq_of_toNat_eq ?_
    rw [BitVec.toNat_add, BitVec.toNat_mul, BitVec.toNat_umod, BitVec.toNat_udiv,
      Nat.add_mod_mod, Nat.mod_add_div', Nat.mod_eq_of_lt n.isLt]
  exact (BitVec.eq_sub_iff_add_eq.mpr hsum).symm

theorem constructURem_denotes (hl : Denotes L w x) (hr : Denotes R w y)
    (hc : ∀ c, r = .constant c → y = c ∧ divisorFits b w c = true) (hw : w ≠ 1) (h0 : w ≠ 0) :
    Denotes (b.constructURem r L R) w (x.urem y) := by
  obtain ⟨hx, rfl⟩ := hl
  obtain ⟨hy, rfl⟩ := hr
  have hop : (x.urem y).width = w := hx
  have hval : ofValue (x.urem y) = .bv (x.urem y) := ofValue_bv (by rw [hop]; exact hw)
  refine ⟨hop, ?_⟩
  rw [hval]
  unfold constructURem
  simp only [Option.bind_eq_bind, Option.bind_some, hw, if_false, getBV_ofValue hx hw,
    bvExpr_ofValue APInt.urem hx hy hw]
  split
  next c =>
    obtain ⟨hyc, hfits⟩ := hc c rfl
    subst hyc
    obtain ⟨x', rfl⟩ := x.ofWidth hx
    obtain ⟨y', rfl⟩ := y.ofWidth hy
    split_ifs with h64 hpow hone hopt
    · rfl
    · have hrem := urem_of_isPowerOfTwo (n := x') (by omega) hpow
      have hzero : x' % y' = 0#w := by
        refine BitVec.eq_of_toNat_eq ?_
        rw [hrem, hone, pow_zero, Nat.mod_one, BitVec.toNat_zero]
      rw [const_eq (by exact h0), APInt.urem_mk, hzero]
      rfl
    · have hrem := urem_of_isPowerOfTwo (n := x') (by omega) hpow
      have hd := toNat_of_isPowerOfTwo (d := y') (by omega) hpow
      generalize bits64.indexOfSingleBit (y'.setWidth 64) = k at hone hrem hd
      have hk : k < w := (Nat.pow_lt_pow_iff_right Nat.one_lt_two).mp (hd ▸ y'.isLt)
      have hlow := @bvExtract_ofValue ⟨w, x'⟩ hw 0 k (by omega)
        (by change 0 + k ≤ w; omega)
      rw [Nat.zero_add] at hlow
      have hval := zext_extract_eq hk hrem
      rw [hlow, const_eq (by change w - k ≠ 0; omega), APInt.urem_mk, ← hval]
      simp only [Option.bind_some, concatExpr, getBV, Option.bind_eq_bind, zero_concat]
      rfl
    · have hd := ne_zero_of_divisorFits hfits hopt
      obtain ⟨-, rfl⟩ := hopt
      have hround : (y'.setWidth 64).setWidth 32 = y' := by
        rw [BitVec.setWidth_setWidth_of_le y' (by omega), BitVec.setWidth_eq]
      simp only [BitVec.setWidth_eq]
      rw [constructUDivByConstant_eq hd, constructMulByConstant_eq (by omega), APInt.urem_mk,
        hround, sub_udiv_mul]
      rfl
    · rfl
  next => rfl

/-! ### Casts -/

theorem apply_ofBool (k : CastKind) (p : Bool) (v : ℕ) : k.apply (APInt.ofBool p) v =
    if p then (match k with | .ZExt => APInt.ofNat v 1 | .SExt => ⟨v, bvMinusOne v⟩)
    else APInt.ofNat v 0 := by
  cases k
  · refine APInt.ext_toNat (by cases p <;> rfl) ?_
    cases p <;> simp [CastKind.apply, APInt.zext, APInt.ofBool, APInt.toNat, APInt.ofNat]
  · cases p
    · change (⟨v, (BitVec.ofBool false).signExtend v⟩ : APInt) = ⟨v, BitVec.ofNat v 0⟩
      congr 1
    · change (⟨v, (BitVec.ofBool true).signExtend v⟩ : APInt) = ⟨v, BitVec.allOnes v⟩
      congr 1
      refine BitVec.eq_of_getLsbD_eq fun i hi => ?_
      rw [BitVec.getLsbD_signExtend, BitVec.getLsbD_allOnes]
      cases i <;> simp [hi]

theorem constructCast_denotes {k : CastKind} {v : ℕ} (hl : Denotes L w x) (hw : w < v) (h0 : w ≠ 0) :
    Denotes (constructCast k v L) v (k.apply x v) := by
  obtain ⟨hx, rfl⟩ := hl
  have hop : (k.apply x v).width = v := k.width_apply x v
  have hv : v ≠ 1 := by omega
  have hval : ofValue (k.apply x v) = .bv (k.apply x v) := ofValue_bv (by rw [hop]; exact hv)
  refine ⟨hop, ?_⟩
  rw [hval]
  by_cases h1 : w = 1
  · subst h1
    have hc : ∀ c : APInt, c.width = v → const c = some (.bv c) := fun c h => const_eq (by omega)
    rw [x.eq_ofBool hx, ofValue_ofBool, apply_ofBool]
    generalize (x.toNat == 1) = p
    cases k <;> cases p <;>
      simp [constructCast, hc, iteExpr, getBool, APInt.ofNat]
  · cases k with
    | ZExt =>
      rw [constructCast]
      simp only [Option.bind_eq_bind, Option.bind_some, h1, if_false]
      rw [const_eq (by change v - w ≠ 0; omega), ofValue_bv (hx ▸ h1)]
      simp only [Option.bind_some, concatExpr, getBV, Option.bind_eq_bind, zero_concat, hx]
      rw [Nat.sub_add_cancel hw.le]
      rfl
    | SExt =>
      rw [constructCast]
      simp [h1, ofValue_bv (hx ▸ h1), bvSignExtend, getBV, hx, hw.le]
      rfl

/-! ### Arrays -/

variable {M : ArrayModel} {σ : Assignment} {root : KleeArray}

/-- The bytes that the model gives to the arrays are those of the assignment. -/
def Models (M : ArrayModel) (σ : Assignment) : Prop :=
  ∀ a : KleeArray, a.isSymbolicArray = true → ∀ i : BitVec 32, i.toNat < a.size →
    M a i = σ a i.toNat

def ZeroBeyond (M : ArrayModel) : Prop :=
  ∀ (a : KleeArray) (i : BitVec 32), a.size ≤ i.toNat → M a i = 0#8

theorem writeConstant_eq (ht : root.wellTyped = true) (hc : root.isConstantArray = true) {n : ℕ}
    (hn : n < root.size) (array : BitVec 32 → BitVec 8) :
    ∃ byte, (⟨8, byte⟩ : APInt) = root.initialValue σ n ∧
      writeConstant root array n = some (Function.update array (BitVec.ofNat 32 n) byte) := by
  have hs : root.isSymbolicArray = false := by
    rw [KleeArray.isConstantArray, Bool.not_eq_true'] at hc
    exact hc
  rw [KleeArray.wellTyped, hs, Bool.false_or, Bool.and_eq_true, beq_iff_eq] at ht
  have hlen : n < root.constantValues.length := by omega
  have hwidth := List.all_eq_true.mp ht.1 _ (List.getElem_mem hlen)
  have hget := List.getElem?_eq_getElem hlen
  obtain ⟨byte, hbyte⟩ := APInt.ofWidth _ (beq_iff_eq.mp hwidth)
  refine ⟨byte, ?_, ?_⟩
  · rw [KleeArray.initialValue, hs, hget, hbyte]
    rfl
  · rw [writeConstant, hget, hbyte]
    simp [constructConstant_eq, ofValue, APInt.ofNat, Width.Int32, writeExpr, getBV, Width.Int8]
    exact congrArg _ (BitVec.setWidth_eq byte)

theorem foldlM_writeConstant (ht : root.wellTyped = true) (hc : root.isConstantArray = true)
    (hsize : root.size ≤ 2 ^ 32) {n : ℕ} (hn : n ≤ root.size) :
    ∃ array, (List.range n).foldlM (writeConstant root) (M root) = some array ∧
      ∀ i : BitVec 32, (i.toNat < n → ⟨8, array i⟩ = root.initialValue σ i.toNat) ∧
        (n ≤ i.toNat → array i = M root i) := by
  induction n with
  | zero => exact ⟨M root, rfl, fun i => ⟨fun h => absurd h (Nat.not_lt_zero _), fun _ => rfl⟩⟩
  | succ n ih =>
    obtain ⟨array, hfold, harray⟩ := ih (by omega)
    obtain ⟨byte, hvalue, hwrite⟩ := writeConstant_eq (σ := σ) ht hc hn array
    refine ⟨Function.update array (BitVec.ofNat 32 n) byte, ?_, fun i => ?_⟩
    · rw [List.range_succ, List.foldlM_append, hfold]
      simp [hwrite]
    · obtain heq | hne := eq_or_ne i.toNat n
      · have hi : i = BitVec.ofNat 32 n := by rw [← heq, BitVec.ofNat_toNat, BitVec.setWidth_eq]
        subst hi
        rw [Function.update_self, heq]
        exact ⟨fun _ => hvalue, fun h => absurd h (by omega)⟩
      · have hi : i ≠ BitVec.ofNat 32 n := by
          rintro rfl
          exact hne (by rw [BitVec.toNat_ofNat, Nat.mod_eq_of_lt (by omega)])
        rw [Function.update_of_ne hi]
        exact ⟨fun h => (harray i).1 (by omega), fun h => (harray i).2 (by omega)⟩

/-- The array term `t` gives the bytes `read`, below `size` or where the model is zero. -/
def Reads (M : ArrayModel) (t : Option (BitVec 32 → BitVec 8)) (size : ℕ) (read : APInt → APInt) :
    Prop :=
  ∃ array, t = some array ∧
    ∀ i : BitVec 32, ZeroBeyond M ∨ i.toNat < size → (⟨8, array i⟩ : APInt) = read ⟨32, i⟩

theorem getInitialArray_eq (ht : root.wellTyped = true) (hM : Models M σ)
    (hsize : root.isConstantArray = true → root.size ≤ 2 ^ 32) :
    ∃ array, getInitialArray M root = some array ∧
      ∀ i : BitVec 32, (i.toNat < root.size → ⟨8, array i⟩ = root.initialValue σ i.toNat) ∧
        (root.size ≤ i.toNat → array i = M root i) := by
  unfold getInitialArray
  split_ifs with hc
  · exact foldlM_writeConstant ht hc (hsize hc) le_rfl
  · have hs : root.isSymbolicArray = true := by
      simpa [KleeArray.isConstantArray] using hc
    refine ⟨M root, rfl, fun i => ⟨fun hi => ?_, fun _ => rfl⟩⟩
    rw [KleeArray.initialValue, if_pos hs, if_pos hi, hM root hs i hi]

theorem initialValue_beyond (ht : root.wellTyped = true) {i : ℕ} (hi : root.size ≤ i) :
    root.initialValue σ i = APInt.ofNat 8 0 := by
  rw [KleeArray.initialValue]
  split_ifs with hs hlt
  · omega
  · rfl
  · rw [KleeArray.wellTyped, Bool.and_eq_true, Bool.or_eq_true, beq_iff_eq] at ht
    have hlen := ht.2.resolve_left hs
    rw [List.getElem?_eq_none (by omega)]
    rfl

theorem getInitialArray_reads (ht : root.wellTyped = true) (hM : Models M σ)
    (hsize : root.isConstantArray = true → root.size ≤ 2 ^ 32) :
    Reads M (getInitialArray M root) root.size fun i => root.initialValue σ i.toNat := by
  obtain ⟨array, harray, hread⟩ := getInitialArray_eq ht hM hsize
  refine ⟨array, harray, fun i hi => ?_⟩
  obtain hlt | hle := Nat.lt_or_ge i.toNat root.size
  · exact (hread i).1 hlt
  · have hzero := hi.resolve_right hle.not_gt
    rw [(hread i).2 hle, hzero root i hle]
    exact (initialValue_beyond ht hle).symm

variable {t : Option (BitVec 32 → BitVec 8)} {size : ℕ} {read : APInt → APInt} {i : APInt}

theorem constructRead_denotes (hu : Reads M t size read) (hi : Denotes L 32 i)
    (hz : ZeroBeyond M ∨ i.toNat < size) : Denotes (constructRead t L) Width.Int8 (read i) := by
  obtain ⟨array, rfl, hread⟩ := hu
  obtain ⟨hw, rfl⟩ := hi
  obtain ⟨j, rfl⟩ := i.ofWidth hw
  rw [← hread j hz]
  refine ⟨rfl, ?_⟩
  simp [constructRead, readExpr, ofValue, getBV]

theorem constructUpdate_reads (hu : Reads M t size read) (hi : Denotes L 32 i)
    (hv : Denotes R 8 x) :
    Reads M (constructUpdate t L R) size fun j => if i = j then x else read j := by
  obtain ⟨array, rfl, hread⟩ := hu
  obtain ⟨hw, rfl⟩ := hi
  obtain ⟨hvw, rfl⟩ := hv
  obtain ⟨k, rfl⟩ := i.ofWidth hw
  obtain ⟨v, rfl⟩ := x.ofWidth hvw
  refine ⟨Function.update array k v, ?_, fun j hj => ?_⟩
  · simp [constructUpdate, writeExpr, ofValue, getBV]
  · by_cases hkj : k = j
    · subst hkj
      simp
    · have hne : (⟨32, k⟩ : APInt) ≠ ⟨32, j⟩ := by
        intro h
        exact hkj (by simpa using h)
      simp only [if_neg hne]
      rw [Function.update_of_ne (Ne.symm hkj), hread j hj]

/-! ### Expressions -/

theorem constructSelect_denotes {z : APInt} {C : Option (ExprHandle × ℕ)} (hc : Denotes C 1 z)
    (hl : Denotes L w x) (hr : Denotes R w y) :
    Denotes (constructSelect C L R) w (if z.isTrue then x else y) := by
  obtain ⟨hz, rfl⟩ := hc
  obtain ⟨hx, rfl⟩ := hl
  obtain ⟨hy, rfl⟩ := hr
  have hbool : ofValue z = .bool z.isTrue := if_pos hz
  refine ⟨by split_ifs <;> assumption, ?_⟩
  rw [constructSelect, hbool]
  simp [iteExpr_ofValue _ hx hy]

theorem constructConcat_denotes {v : ℕ} (hl : Denotes L w x) (hr : Denotes R v y) (hw1 : w ≠ 1)
    (hv1 : v ≠ 1) (hw : w ≠ 0) (hv : v ≠ 0) :
    Denotes (constructConcat (w + v) L R) (w + v) (x.concat y) := by
  obtain ⟨hx, rfl⟩ := hl
  obtain ⟨hy, rfl⟩ := hr
  have hwidth : (x.concat y).width = w + v := by rw [APInt.width_concat, hx, hy]
  refine ⟨hwidth, ?_⟩
  rw [ofValue_bv (x := x.concat y) (by omega), constructConcat]
  simp [concatExpr, getBV_ofValue hx hw1, getBV_ofValue hy hv1]

theorem constructExtract_denotes {off n : ℕ} (hl : Denotes L w x) (h1 : w ≠ 1) (hn : 0 < n)
    (hle : off + n ≤ w) : Denotes (constructExtract off n L) n (x.extract off n) := by
  obtain ⟨hx, rfl⟩ := hl
  have hext := bvExtract_ofValue (x := x) (by omega) hn (by omega : off + n ≤ x.width)
  refine ⟨rfl, ?_⟩
  rw [constructExtract]
  simp only [Option.bind_eq_bind, Option.bind_some]
  by_cases hn1 : n = 1
  · subst hn1
    rw [Nat.add_sub_cancel] at hext
    rw [if_pos rfl, ExprHandle.bvBoolExtract, hext, const_eq (by decide)]
    have hbit : (x.extract off 1).width = 1 := rfl
    rw [(x.extract off 1).eq_ofBool hbit]
    generalize ((x.extract off 1).toNat == 1) = p
    cases p <;> rfl
  · rw [if_neg hn1, hext, ofValue_bv (x := x.extract off n) hn1]
    rfl

theorem constructNot_denotes (hl : Denotes L w x) : Denotes (constructNot L) w x.not := by
  obtain ⟨hx, rfl⟩ := hl
  have hwidth : x.not.width = w := hx
  refine ⟨hwidth, ?_⟩
  rw [constructNot]
  simp only [Option.bind_eq_bind, Option.bind_some]
  by_cases h1 : w = 1
  · subst h1
    rw [x.eq_ofBool hx]
    generalize (x.toNat == 1) = p
    cases p <;> rfl
  · rw [if_neg h1, ofValue_bv (x := x.not) (by omega), bvNotExpr, getBV_ofValue hx h1]
    rfl

end Builder

/-- The kinds that the builders handle, with operands of width `w` as they assert them. -/
def BinaryKind.asserted (k : BinaryKind) (w : ℕ) : Bool :=
  match k with
  | .And | .Or | .Xor | .Eq => true
  | .Ne | .Ugt | .Uge | .Sgt | .Sge => false
  | _ => w != 1

/-- What no builder asserts of the operands of a kind. A constant amount that is cut to 32
bits, an arithmetic shift of more than 64 bits by the width or more and an expanded division
by zero give other values than the expression. -/
def BinaryKind.representable (b : Builder) (k : BinaryKind) (r : Expr) (w : ℕ) : Bool :=
  match k with
  | .UDiv | .SDiv | .URem => r.ifConstant (Builder.divisorFits b w)
  | .Shl | .LShr => decide (w < 2 ^ 32) && r.ifConstant (Builder.amountFits w)
  | .AShr => decide (w ≤ 64) && r.ifConstant (Builder.amountFits w)
  | _ => true

mutual
/-- The assertions of the builders. -/
def Expr.asserted : Expr → Bool
  | .constant _ => true
  | .notOptimized src => src.asserted
  | .read updates index => updates.asserted && index.asserted
  | .select c t f => c.asserted && t.asserted && f.asserted
  | .concat l r => l.asserted && r.asserted
  | .extract e _ _ => e.asserted
  | .not e => e.asserted
  | .cast _ src _ => src.asserted
  | .binary k l r => l.asserted && r.asserted && k.asserted l.getWidth
def UpdateList.asserted : UpdateList → Bool
  | .root _ => true
  | .node index value next => index.asserted && value.asserted && next.asserted
end

mutual
/-- What the builders rely on beyond their assertions: constants have a width, no truth value
is concatenated or extracted from, casts extend (which `Z3Builder` asserts of some), and the
operands of shifts and divisions are representable. -/
def Expr.representable (b : Builder) : Expr → Bool
  | .constant c => c.width != 0
  | .notOptimized src => src.representable b
  | .read updates index => updates.representable b && index.representable b
  | .select c t f => c.representable b && t.representable b && f.representable b
  | .concat l r => l.representable b && r.representable b && l.getWidth != 1 && r.getWidth != 1
  | .extract e _ _ => e.representable b && e.getWidth != 1
  | .not e => e.representable b
  | .cast _ src width => src.representable b && decide (src.getWidth < width)
  | .binary k l r => l.representable b && r.representable b && k.representable b r l.getWidth
def UpdateList.representable (b : Builder) : UpdateList → Bool
  | .root array => array.isSymbolicArray || decide (array.size ≤ 2 ^ 32)
  | .node index value next =>
    index.representable b && value.representable b && next.representable b
end

namespace Builder

open ExprHandle STPBuilder

variable {b : Builder} {x y : APInt} {w : ℕ} {l r : Expr} {L R : Option (ExprHandle × ℕ)}
  {M : ArrayModel} {σ : Assignment}

theorem getWidth_ne_zero : ∀ e : Expr, e.wellTyped = true → e.representable b = true → e.getWidth ≠ 0
  | .constant c, _, h => by simpa [Expr.representable] using h
  | .notOptimized src, ht, h => getWidth_ne_zero src ht h
  | .read _ _, _, _ => by simp [Expr.getWidth, Width.Int8]
  | .select c t f, ht, h => by
    simp only [Expr.wellTyped, Expr.representable, Bool.and_eq_true] at ht h
    exact getWidth_ne_zero t ht.1.1.1.2 h.1.2
  | .concat l r, ht, h => by
    simp only [Expr.wellTyped, Expr.representable, Bool.and_eq_true] at ht h
    have hl := getWidth_ne_zero l ht.1 h.1.1.1
    rw [Expr.getWidth]
    omega
  | .extract e off w, ht, h => by
    simp only [Expr.wellTyped, Bool.and_eq_true, decide_eq_true_eq] at ht
    rw [Expr.getWidth]
    omega
  | .not e, ht, h => getWidth_ne_zero e ht h
  | .cast _ e w, ht, h => by
    simp only [Expr.representable, Bool.and_eq_true, decide_eq_true_eq] at h
    rw [Expr.getWidth]
    omega
  | .binary k l r, ht, h => by
    simp only [Expr.wellTyped, Expr.representable, Bool.and_eq_true] at ht h
    have hl := getWidth_ne_zero l ht.1.1.1 h.1.1
    rw [Expr.getWidth]
    split_ifs
    · simp [Width.Bool]
    · exact hl

theorem of_ifConstant {p : APInt → Bool} {c : APInt} (h : r.ifConstant p = true)
    (hr : r = .constant c) : p c = true := by
  subst hr
  exact h

theorem constructBinary_denotes {k : BinaryKind} (ha : k.asserted w = true)
    (hk : k.representable b r w = true) (hl : Denotes L w x) (hr : Denotes R w y)
    (hlc : ∀ c, l = .constant c → x = c)
    (hrc : ∀ c, r = .constant c → y = c) (h0 : w ≠ 0) :
    Denotes (b.constructBinary k l r L R) (if k.isCmp then 1 else w) (k.apply x y) := by
  cases k with
  | Add => exact (arithExpr_denotes APInt.add rfl hl hr (bne_iff_ne.mp ha) : Denotes _ w _)
  | Sub => exact (arithExpr_denotes APInt.sub rfl hl hr (bne_iff_ne.mp ha) : Denotes _ w _)
  | Mul => exact (constructMul_denotes hl hr hlc (bne_iff_ne.mp ha) : Denotes _ w _)
  | SRem => exact (arithExpr_denotes APInt.srem rfl hl hr (bne_iff_ne.mp ha) : Denotes _ w _)
  | Ult => exact compareExpr_denotes APInt.ult rfl hl hr (bne_iff_ne.mp ha)
  | Ule => exact compareExpr_denotes APInt.ule rfl hl hr (bne_iff_ne.mp ha)
  | Slt => exact compareExpr_denotes APInt.slt rfl hl hr (bne_iff_ne.mp ha)
  | Sle => exact compareExpr_denotes APInt.sle rfl hl hr (bne_iff_ne.mp ha)
  | UDiv =>
    exact constructUDiv_denotes hl hr (fun c hc => ⟨hrc c hc, of_ifConstant hk hc⟩)
      (bne_iff_ne.mp ha)
  | SDiv =>
    exact constructSDiv_denotes hl hr (fun c hc => ⟨hrc c hc, of_ifConstant hk hc⟩)
      (bne_iff_ne.mp ha)
  | URem =>
    exact constructURem_denotes hl hr (fun c hc => ⟨hrc c hc, of_ifConstant hk hc⟩)
      (bne_iff_ne.mp ha) h0
  | And => exact logicExpr_denotes rfl (by decide) hl hr
  | Or => exact logicExpr_denotes rfl (by decide) hl hr
  | Xor => exact logicExpr_denotes rfl (by decide) hl hr
  | Eq => exact constructEq_denotes hl hr hlc
  | Shl =>
    simp only [BinaryKind.representable, Bool.and_eq_true, decide_eq_true_eq] at hk
    exact constructShift_denotes (.inl rfl) hl hr
      (fun c hc => ⟨hrc c hc, of_ifConstant hk.2 hc⟩) (bne_iff_ne.mp ha) h0 hk.1
      (fun h => nomatch h)
  | LShr =>
    simp only [BinaryKind.representable, Bool.and_eq_true, decide_eq_true_eq] at hk
    exact constructShift_denotes (.inr (.inl rfl)) hl hr
      (fun c hc => ⟨hrc c hc, of_ifConstant hk.2 hc⟩) (bne_iff_ne.mp ha) h0 hk.1
      (fun h => nomatch h)
  | AShr =>
    simp only [BinaryKind.representable, Bool.and_eq_true, decide_eq_true_eq] at hk
    exact constructShift_denotes (.inr (.inr rfl)) hl hr
      (fun c hc => ⟨hrc c hc, of_ifConstant hk.2 hc⟩) (bne_iff_ne.mp ha) h0
      (lt_of_le_of_lt hk.1 (by omega)) (fun _ => hk.1)
  | Ne | Ugt | Uge | Sgt | Sge => cases ha

mutual
/-- The term of an expression has the expression's value, when the arrays are zero beyond
their ends or the assignment makes no read beyond the end of an array. -/
theorem construct_denotes (hM : Models M σ) : ∀ e : Expr, e.wellTyped = true →
    e.asserted = true → e.representable b = true → ZeroBeyond M ∨ e.inBounds σ = true →
      Denotes (b.construct M e) e.getWidth (e.eval σ)
  | .constant c, _, _, hb, _ => by
    refine ⟨rfl, ?_⟩
    rw [construct]
    exact constructConstant_eq c (by simpa [Expr.representable] using hb)
  | .notOptimized src, ht, ha, hb, hz => by
    have hsrc := construct_denotes hM src ht ha hb hz
    rw [construct]
    exact hsrc
  | .read u i, ht, ha, hb, hz => by
    simp only [Expr.wellTyped, Expr.asserted, Expr.representable, Expr.inBounds, Bool.and_eq_true,
      beq_iff_eq, decide_eq_true_eq] at ht ha hb hz
    have hu := getArrayForUpdate_eq hM u ht.1.1 ha.1 hb.1 (hz.imp_right fun h => h.1.1)
    have hi := construct_denotes hM i ht.1.2 ha.2 hb.2 (hz.imp_right fun h => h.1.2)
    rw [ht.2] at hi
    rw [construct]
    exact constructRead_denotes hu hi (hz.imp_right fun h => h.2)
  | .select c t f, ht, ha, hb, hz => by
    simp only [Expr.wellTyped, Expr.asserted, Expr.representable, Expr.inBounds, Bool.and_eq_true,
      beq_iff_eq] at ht ha hb hz
    have hc := construct_denotes hM c ht.1.1.1.1 ha.1.1 hb.1.1 (hz.imp_right fun h => h.1.1)
    have ht' := construct_denotes hM t ht.1.1.1.2 ha.1.2 hb.1.2 (hz.imp_right fun h => h.1.2)
    have hf := construct_denotes hM f ht.1.1.2 ha.2 hb.2 (hz.imp_right fun h => h.2)
    rw [ht.1.2] at hc
    rw [← ht.2] at hf
    rw [construct]
    exact constructSelect_denotes hc ht' hf
  | .concat l r, ht, ha, hb, hz => by
    simp only [Expr.wellTyped, Expr.asserted, Expr.representable, Expr.inBounds, Bool.and_eq_true,
      bne_iff_ne, ne_eq] at ht ha hb hz
    have hl := construct_denotes hM l ht.1 ha.1 hb.1.1.1 (hz.imp_right fun h => h.1)
    have hr := construct_denotes hM r ht.2 ha.2 hb.1.1.2 (hz.imp_right fun h => h.2)
    have hl0 := getWidth_ne_zero l ht.1 hb.1.1.1
    have hr0 := getWidth_ne_zero r ht.2 hb.1.1.2
    rw [construct]
    exact constructConcat_denotes hl hr hb.1.2 hb.2 hl0 hr0
  | .extract e off w, ht, ha, hb, hz => by
    simp only [Expr.wellTyped, Expr.asserted, Expr.representable, Expr.inBounds, Bool.and_eq_true,
      bne_iff_ne, ne_eq, decide_eq_true_eq] at ht ha hb hz
    have he := construct_denotes hM e ht.1.1 ha hb.1 hz
    rw [construct]
    exact constructExtract_denotes he hb.2 ht.1.2 ht.2
  | .not e, ht, ha, hb, hz => by
    have he := construct_denotes hM e ht ha hb hz
    rw [construct]
    exact constructNot_denotes he
  | .cast k e w, ht, ha, hb, hz => by
    simp only [Expr.wellTyped, Expr.asserted, Expr.representable, Expr.inBounds, Bool.and_eq_true,
      decide_eq_true_eq] at ht ha hb hz
    have he := construct_denotes hM e ht.1 ha hb.1 hz
    rw [construct]
    exact constructCast_denotes he hb.2 (getWidth_ne_zero e ht.1 hb.1)
  | .binary k l r, ht, ha, hb, hz => by
    simp only [Expr.wellTyped, Expr.asserted, Expr.representable, Expr.inBounds, Bool.and_eq_true,
      beq_iff_eq] at ht ha hb hz
    have hl := construct_denotes hM l ht.1.1.1 ha.1.1 hb.1.1 (hz.imp_right fun h => h.1)
    have hr := construct_denotes hM r ht.1.1.2 ha.1.2 hb.1.2 (hz.imp_right fun h => h.2)
    rw [← ht.1.2] at hr
    rw [construct]
    exact constructBinary_denotes ha.2 hb.2 hl hr (fun c hc => by subst hc; rfl)
      (fun c hc => by subst hc; rfl) (getWidth_ne_zero l ht.1.1.1 hb.1.1)
theorem getArrayForUpdate_eq (hM : Models M σ) : ∀ u : UpdateList, u.wellTyped = true →
    u.asserted = true → u.representable b = true → ZeroBeyond M ∨ u.inBounds σ = true →
      Reads M (b.getArrayForUpdate M u) u.array.size (fun i => u.evalRead σ i)
  | .root a, ht, _, hb, _ => by
    have hsize : a.isConstantArray = true → a.size ≤ 2 ^ 32 := by
      rw [KleeArray.isConstantArray, Bool.not_eq_true']
      intro hc
      simpa [UpdateList.representable, hc] using hb
    rw [getArrayForUpdate]
    exact getInitialArray_reads ht hM hsize
  | .node j v next, ht, ha, hb, hz => by
    simp only [UpdateList.wellTyped, UpdateList.asserted, UpdateList.representable,
      UpdateList.inBounds, Bool.and_eq_true, beq_iff_eq] at ht ha hb hz
    have hj := construct_denotes hM j ht.1.1.1.1 ha.1.1 hb.1.1 (hz.imp_right fun h => h.1.1)
    have hv := construct_denotes hM v ht.1.1.1.2 ha.1.2 hb.1.2 (hz.imp_right fun h => h.1.2)
    have hnext := getArrayForUpdate_eq hM next ht.1.1.2 ha.2 hb.2 (hz.imp_right fun h => h.2)
    rw [ht.1.2] at hj
    rw [ht.2] at hv
    rw [getArrayForUpdate]
    exact constructUpdate_reads hnext hj hv
end

/-- Both builders, with and without expanded divisions, build a term with the expression's
value. -/
theorem construct_eq_eval (hM : Models M σ) {e : Expr} (ht : e.wellTyped = true)
    (ha : e.asserted = true) (hb : e.representable b = true)
    (hz : ZeroBeyond M ∨ e.inBounds σ = true) :
    b.construct M e = some (ofValue (e.eval σ), e.getWidth) :=
  (construct_denotes hM e ht ha hb hz).2

/-- The seventh part of a byte that is read from an array. -/
def seventh : Expr :=
  .binary .UDiv (.cast .ZExt (.read (.root { name := "message", size := 4, ufe := 0 })
    (.alloc 2 32)) 32) (.alloc 7 32)

theorem construct_eq_eval_seventh :
    (Builder.STP true).construct (fun _ _ => 200#8) seventh =
      some (ofValue (seventh.eval fun _ _ => 200#8), seventh.getWidth) := by
  have hM : Models (fun _ _ => 200#8) fun _ _ => 200#8 := fun _ _ _ _ => rfl
  have hi : (seventh.inBounds fun _ _ => 200#8) = true := by decide
  exact construct_eq_eval hM (by decide) (by decide) (by decide) (.inr hi)

-- Not so for an amount that is cut to 32 bits: the value of this shift is zero.
example :
    Builder.Z3.construct (fun _ _ => 1#8) (.binary .Shl (.cast .ZExt
      (.read (.root { name := "message", size := 4, ufe := 0 }) (.alloc 2 32)) 64)
        (.alloc (2 ^ 32) 64)) = some (.bv ⟨64, 1#64⟩, 64) := by
  decide

end Builder

end TaseVerifier
