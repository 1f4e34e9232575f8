import TaseVerifier.Expr.ExprUtil
import TaseVerifier.Solver.BuilderSound

/-! The builders read the amount of a shift by a constant into an `unsigned`. They build the
same terms for an expression and for the one in which all these amounts are cut to 32 bits,
which may have another value. -/

namespace TaseVerifier

/-- The low 32 bits of a value. -/
def APInt.cut32 (c : APInt) : APInt := APInt.ofNat c.width (c.toNat % 2 ^ 32)

def Expr.cut32 : Expr → Expr
  | .constant c => .constant c.cut32
  | e => e

/-- The right operand, with the constant amount of a shift cut to 32 bits. -/
def BinaryKind.cutAmount (k : BinaryKind) (r : Expr) : Expr := if k.isShift then r.cut32 else r

mutual
/-- The expression with its constant shift amounts cut to 32 bits. -/
def Expr.cutShifts : Expr → Expr
  | .constant c => .constant c
  | .notOptimized src => .notOptimized src.cutShifts
  | .read updates index => .read updates.cutShifts index.cutShifts
  | .select c t f => .select c.cutShifts t.cutShifts f.cutShifts
  | .concat l r => .concat l.cutShifts r.cutShifts
  | .extract e off w => .extract e.cutShifts off w
  | .not e => .not e.cutShifts
  | .cast k src w => .cast k src.cutShifts w
  | .binary k l r => .binary k l.cutShifts (k.cutAmount r.cutShifts)
def UpdateList.cutShifts : UpdateList → UpdateList
  | .root array => .root array
  | .node index value next => .node index.cutShifts value.cutShifts next.cutShifts
end

namespace Expr

theorem cut32_cases (r : Expr) :
    r.cut32 = r ∨ ∃ c, r = .constant c ∧ r.cut32 = .constant c.cut32 := by
  cases r with
  | constant c => exact .inr ⟨c, rfl, rfl⟩
  | _ => exact .inl rfl

/-- The right operand is the same, or a constant amount of a shift and its low bits. -/
theorem cutAmount_cases (k : BinaryKind) (r : Expr) : k.cutAmount r = r ∨
    k.isShift = true ∧ ∃ c, r = .constant c ∧ k.cutAmount r = .constant c.cut32 := by
  unfold BinaryKind.cutAmount
  split_ifs with hk
  · exact r.cut32_cases.imp_right fun h => ⟨hk, h⟩
  · exact .inl rfl

theorem getWidth_cutAmount (k : BinaryKind) (r : Expr) : (k.cutAmount r).getWidth = r.getWidth := by
  obtain h | ⟨-, c, rfl, h⟩ := cutAmount_cases k r
  · rw [h]
  · rw [h]
    rfl

theorem wellTyped_cutAmount (k : BinaryKind) (r : Expr) :
    (k.cutAmount r).wellTyped = r.wellTyped := by
  obtain h | ⟨-, c, rfl, h⟩ := cutAmount_cases k r
  · rw [h]
  · rw [h, wellTyped, wellTyped]

theorem asserted_cutAmount (k : BinaryKind) (r : Expr) :
    (k.cutAmount r).asserted = r.asserted := by
  obtain h | ⟨-, c, rfl, h⟩ := cutAmount_cases k r
  · rw [h]
  · rw [h, asserted, asserted]

theorem getWidth_cutShifts : ∀ e : Expr, e.cutShifts.getWidth = e.getWidth
  | .constant _ | .read _ _ | .extract _ _ _ | .cast _ _ _ => rfl
  | .notOptimized e | .not e => getWidth_cutShifts e
  | .select _ t _ => getWidth_cutShifts t
  | .concat l r => by
    rw [cutShifts, getWidth, getWidth, getWidth_cutShifts l, getWidth_cutShifts r]
  | .binary k l r => by
    rw [cutShifts, getWidth, getWidth, getWidth_cutShifts l]

end Expr

mutual
theorem Expr.wellTyped_cutShifts : ∀ e : Expr, e.cutShifts.wellTyped = e.wellTyped
  | .constant _ => rfl
  | .notOptimized src => Expr.wellTyped_cutShifts src
  | .read u i => by
    rw [Expr.cutShifts, Expr.wellTyped, Expr.wellTyped, UpdateList.wellTyped_cutShifts u,
      Expr.wellTyped_cutShifts i, i.getWidth_cutShifts]
  | .select c t f => by
    simp only [Expr.cutShifts, Expr.wellTyped, Expr.wellTyped_cutShifts c,
      Expr.wellTyped_cutShifts t, Expr.wellTyped_cutShifts f, Expr.getWidth_cutShifts]
  | .concat l r => by
    rw [Expr.cutShifts, Expr.wellTyped, Expr.wellTyped, Expr.wellTyped_cutShifts l,
      Expr.wellTyped_cutShifts r]
  | .extract e _ _ => by
    rw [Expr.cutShifts, Expr.wellTyped, Expr.wellTyped, Expr.wellTyped_cutShifts e,
      e.getWidth_cutShifts]
  | .not e => Expr.wellTyped_cutShifts e
  | .cast _ e _ => by
    rw [Expr.cutShifts, Expr.wellTyped, Expr.wellTyped, Expr.wellTyped_cutShifts e,
      e.getWidth_cutShifts]
  | .binary k l r => by
    simp only [Expr.cutShifts, Expr.wellTyped, Expr.wellTyped_cutAmount, Expr.getWidth_cutAmount,
      Expr.wellTyped_cutShifts l, Expr.wellTyped_cutShifts r, Expr.getWidth_cutShifts]
theorem UpdateList.wellTyped_cutShifts : ∀ u : UpdateList, u.cutShifts.wellTyped = u.wellTyped
  | .root _ => rfl
  | .node i v next => by
    simp only [UpdateList.cutShifts, UpdateList.wellTyped, Expr.wellTyped_cutShifts i,
      Expr.wellTyped_cutShifts v, UpdateList.wellTyped_cutShifts next, Expr.getWidth_cutShifts]
end

mutual
theorem Expr.asserted_cutShifts : ∀ e : Expr, e.cutShifts.asserted = e.asserted
  | .constant _ => rfl
  | .notOptimized src => Expr.asserted_cutShifts src
  | .read u i => by
    rw [Expr.cutShifts, Expr.asserted, Expr.asserted, UpdateList.asserted_cutShifts u,
      Expr.asserted_cutShifts i]
  | .select c t f => by
    rw [Expr.cutShifts, Expr.asserted, Expr.asserted, Expr.asserted_cutShifts c,
      Expr.asserted_cutShifts t, Expr.asserted_cutShifts f]
  | .concat l r => by
    rw [Expr.cutShifts, Expr.asserted, Expr.asserted, Expr.asserted_cutShifts l,
      Expr.asserted_cutShifts r]
  | .extract e _ _ => Expr.asserted_cutShifts e
  | .not e => Expr.asserted_cutShifts e
  | .cast _ e _ => Expr.asserted_cutShifts e
  | .binary k l r => by
    rw [Expr.cutShifts, Expr.asserted, Expr.asserted, Expr.asserted_cutAmount,
      Expr.asserted_cutShifts l, Expr.asserted_cutShifts r, l.getWidth_cutShifts]
theorem UpdateList.asserted_cutShifts : ∀ u : UpdateList, u.cutShifts.asserted = u.asserted
  | .root _ => rfl
  | .node i v next => by
    rw [UpdateList.cutShifts, UpdateList.asserted, UpdateList.asserted, Expr.asserted_cutShifts i,
      Expr.asserted_cutShifts v, UpdateList.asserted_cutShifts next]
end

namespace Builder

/-! ### The builders cut the amounts -/

variable {b : Builder} {M : ArrayModel} {L R : Option (ExprHandle × ℕ)}

theorem isShift_iff {k : BinaryKind} : k.isShift = true ↔ IsShift k := by
  cases k <;> simp [BinaryKind.isShift, IsShift]

theorem limitedValue_cut32 {c : APInt} (h : c.width ≤ 64) :
    limitedValue c.cut32 = limitedValue c := by
  have hpow : 2 ^ c.width ≤ 2 ^ 64 := Nat.pow_le_pow_right Nat.two_pos h
  have hlt := c.toNat_lt
  have hcut : c.cut32.toNat = c.toNat % 2 ^ 32 := by
    rw [APInt.cut32, APInt.toNat_ofNat, Nat.mod_eq_of_lt ((Nat.mod_le _ _).trans_lt hlt)]
  have hmod : c.toNat % 2 ^ 32 < 2 ^ 32 := Nat.mod_lt _ (Nat.two_pow_pos 32)
  rw [limitedValue, limitedValue, hcut, Nat.min_eq_left (by omega), Nat.min_eq_left (by omega),
    Nat.mod_mod]

theorem constructShift_cut32 {r : Expr} (hr : r.getWidth ≤ 64) (k : BinaryKind) :
    b.constructShift k r.cut32 L (b.construct M r.cut32) =
      b.constructShift k r L (b.construct M r) := by
  cases r with
  | constant c => simp only [Expr.cut32, constructShift, limitedValue_cut32 hr]
  | _ => rfl

-- Each operator looks at one operand, and there only for a constant.
theorem constructBinary_cutShifts (k : BinaryKind) (l r : Expr) :
    b.constructBinary k l.cutShifts r.cutShifts L R = b.constructBinary k l r L R := by
  cases k with
  | Mul => cases b <;> cases l <;> rfl
  | Eq => cases l <;> rfl
  | UDiv | SDiv | URem | Shl | LShr | AShr => cases r <;> rfl
  | _ => rfl

theorem constructBinary_cutAmount (k : BinaryKind) {l r : Expr} (hr : r.getWidth ≤ 64) :
    b.constructBinary k l (k.cutAmount r) L (b.construct M (k.cutAmount r)) =
      b.constructBinary k l r L (b.construct M r) := by
  by_cases hk : k.isShift = true
  · rw [BinaryKind.cutAmount, if_pos hk]
    obtain rfl | rfl | rfl := isShift_iff.mp hk <;> exact constructShift_cut32 hr _
  · rw [BinaryKind.cutAmount, if_neg hk]

mutual
/-- The term does not depend on the bits of the amounts that are cut off. -/
theorem construct_cutShifts : ∀ e : Expr, e.wellTyped = true → e.narrow = true →
    b.construct M e.cutShifts = b.construct M e
  | .constant _, _, _ => rfl
  | .notOptimized src, ht, h => by
    rw [Expr.cutShifts, construct, construct, construct_cutShifts src ht h]
  | .read u i, ht, h => by
    simp only [Expr.wellTyped, Expr.narrow, Bool.and_eq_true] at ht h
    rw [Expr.cutShifts, construct, construct, getArrayForUpdate_cutShifts u ht.1.1 h.1,
      construct_cutShifts i ht.1.2 h.2]
  | .select c t f, ht, h => by
    simp only [Expr.wellTyped, Expr.narrow, Bool.and_eq_true] at ht h
    rw [Expr.cutShifts, construct, construct, construct_cutShifts c ht.1.1.1.1 h.1.1,
      construct_cutShifts t ht.1.1.1.2 h.1.2, construct_cutShifts f ht.1.1.2 h.2]
  | .concat l r, ht, h => by
    simp only [Expr.wellTyped, Expr.narrow, Bool.and_eq_true] at ht h
    have hw := (Expr.concat l r).getWidth_cutShifts
    rw [Expr.cutShifts] at hw
    rw [Expr.cutShifts, construct, construct, hw, construct_cutShifts l ht.1 h.1.1,
      construct_cutShifts r ht.2 h.1.2]
  | .extract e _ _, ht, h => by
    simp only [Expr.wellTyped, Bool.and_eq_true] at ht
    rw [Expr.cutShifts, construct, construct, construct_cutShifts e ht.1.1 h]
  | .not e, ht, h => by
    rw [Expr.cutShifts, construct, construct, construct_cutShifts e ht h]
  | .cast _ e _, ht, h => by
    simp only [Expr.wellTyped, Expr.narrow, Bool.and_eq_true] at ht h
    rw [Expr.cutShifts, construct, construct, construct_cutShifts e ht.1 h.1]
  | .binary k l r, ht, h => by
    simp only [Expr.wellTyped, Expr.narrow, Bool.and_eq_true] at ht h
    have hw : r.cutShifts.getWidth ≤ 64 := by
      rw [r.getWidth_cutShifts]
      exact (r.narrow_width ht.1.1.2 h.2).2
    rw [Expr.cutShifts, construct, construct, constructBinary_cutAmount k hw,
      constructBinary_cutShifts, construct_cutShifts l ht.1.1.1 h.1,
      construct_cutShifts r ht.1.1.2 h.2]
theorem getArrayForUpdate_cutShifts : ∀ u : UpdateList, u.wellTyped = true → u.narrow = true →
    b.getArrayForUpdate M u.cutShifts = b.getArrayForUpdate M u
  | .root _, _, _ => rfl
  | .node i v next, ht, h => by
    simp only [UpdateList.wellTyped, UpdateList.narrow, Bool.and_eq_true] at ht h
    rw [UpdateList.cutShifts, getArrayForUpdate, getArrayForUpdate,
      getArrayForUpdate_cutShifts next ht.1.1.2 h.2, construct_cutShifts i ht.1.1.1.1 h.1.1,
      construct_cutShifts v ht.1.1.1.2 h.1.2]
end

end Builder

/-! ### Where the cut amounts give other values -/

/-- The amount is below `2 ^ 32`, or its low 32 bits shift the value to zero as well. -/
def BinaryKind.keepsAmount (k : BinaryKind) (x : APInt) : Expr → Bool
  | .constant c => !k.isShift || decide (c.toNat < 2 ^ 32) || (k.apply x c.cut32).isZero
  | _ => true

mutual
/-- All shifts by constants keep their values when the amounts are cut. -/
def Expr.keepsAmounts (σ : Assignment) : Expr → Bool
  | .constant _ => true
  | .notOptimized src => src.keepsAmounts σ
  | .read updates index => updates.keepsAmounts σ && index.keepsAmounts σ
  | .select c t f => c.keepsAmounts σ && t.keepsAmounts σ && f.keepsAmounts σ
  | .concat l r => l.keepsAmounts σ && r.keepsAmounts σ
  | .extract e _ _ => e.keepsAmounts σ
  | .not e => e.keepsAmounts σ
  | .cast _ src _ => src.keepsAmounts σ
  | .binary k l r => l.keepsAmounts σ && r.keepsAmounts σ && k.keepsAmount (l.eval σ) r
def UpdateList.keepsAmounts (σ : Assignment) : UpdateList → Bool
  | .root _ => true
  | .node index value next =>
    index.keepsAmounts σ && value.keepsAmounts σ && next.keepsAmounts σ
end

namespace Builder

variable {σ : Assignment} {k : BinaryKind} {w : ℕ}

theorem cut32_eq_self {c : APInt} (h : c.toNat < 2 ^ 32) : c.cut32 = c := by
  refine APInt.ext_toNat rfl ?_
  rw [APInt.cut32, APInt.toNat_ofNat, Nat.mod_eq_of_lt h, Nat.mod_eq_of_lt c.toNat_lt]

/-- A shift by the width or more gives zero. -/
theorem apply_overshift (hk : IsShift k) (x y : BitVec w) (hw : w ≤ 64) (hy : w ≤ y.toNat) :
    k.apply ⟨w, x⟩ ⟨w, y⟩ = ⟨w, 0#w⟩ := by
  obtain rfl | rfl | rfl := hk
  · rw [BinaryKind.apply, APInt.shl_mk, BitVec.shiftLeft_eq_zero hy]
  · rw [BinaryKind.apply, APInt.lshr_mk, BitVec.ushiftRight_eq_zero hy]
  · rw [BinaryKind.apply, ashr_eq_ashrOrZero x y hw, STPBuilder.ashrOrZero, if_neg (by omega)]

theorem apply_cut32_iff (hk : IsShift k) {c : APInt} (hx : x.width = c.width) (hw : c.width ≤ 64) :
    k.apply x c.cut32 = k.apply x c ↔
      c.toNat < 2 ^ 32 ∨ (k.apply x c.cut32).isZero = true := by
  by_cases hc : c.toNat < 2 ^ 32
  · rw [cut32_eq_self hc]
    exact ⟨fun _ => .inl hc, fun _ => rfl⟩
  · obtain ⟨x', rfl⟩ := x.ofWidth hx
    have hzero : k.apply ⟨c.width, x'⟩ c = ⟨c.width, 0#c.width⟩ :=
      apply_overshift hk x' c.val hw (by change c.width ≤ c.toNat; omega)
    have hwidth : (k.apply ⟨c.width, x'⟩ c.cut32).width = c.width := by
      rw [k.width_apply]
      obtain rfl | rfl | rfl := hk <;> rfl
    obtain ⟨z, hz⟩ := APInt.ofWidth _ hwidth
    rw [hzero, hz, APInt.isZero_mk, or_iff_right hc]
    simp

theorem cut32_cutShifts (r : Expr) (hr : r.isConstant = false) :
    r.cutShifts.cut32 = r.cutShifts := by
  cases r with
  | constant c => cases hr
  | _ => rfl

/-- Over operands that keep their values a node keeps its value where its amount does. -/
theorem eval_binary_iff {l r : Expr} (ht : (Expr.binary k l r).wellTyped = true)
    (h : r.narrow = true) (hl : l.cutShifts.eval σ = l.eval σ)
    (hr : r.cutShifts.eval σ = r.eval σ) :
    (Expr.binary k l r).cutShifts.eval σ = (Expr.binary k l r).eval σ ↔
      k.keepsAmount (l.eval σ) r = true := by
  simp only [Expr.wellTyped, Bool.and_eq_true, beq_iff_eq] at ht
  rw [Expr.cutShifts, Expr.eval, Expr.eval, hl]
  by_cases hk : k.isShift = true
  · rw [BinaryKind.cutAmount, if_pos hk]
    cases hconst : r.isConstant with
    | false =>
      rw [cut32_cutShifts r hconst, hr]
      cases r with
      | constant c => cases hconst
      | _ => simp [BinaryKind.keepsAmount]
    | true =>
      cases r with
      | constant c =>
        have hx : (l.eval σ).width = c.width := (l.width_eval σ ht.1.1.1).trans ht.1.2
        have hw := ((Expr.constant c).narrow_width rfl h).2
        have hkeeps : k.keepsAmount (l.eval σ) (.constant c) = true ↔
            c.toNat < 2 ^ 32 ∨ (k.apply (l.eval σ) c.cut32).isZero = true := by
          simp [BinaryKind.keepsAmount, hk]
        exact (apply_cut32_iff (isShift_iff.mp hk) hx hw).trans hkeeps.symm
      | _ => cases hconst
  · rw [BinaryKind.cutAmount, if_neg hk, hr]
    cases r <;> simp [BinaryKind.keepsAmount, hk]

theorem evalRead_cutShifts : ∀ u : UpdateList, (∀ s ∈ u.subexprs, s.cutShifts.eval σ = s.eval σ) →
    ∀ j, u.cutShifts.evalRead σ j = u.evalRead σ j
  | .root _, _, _ => rfl
  | .node i v next, h, j => by
    simp only [UpdateList.subexprs, List.forall_mem_append] at h
    rw [UpdateList.cutShifts, UpdateList.evalRead, UpdateList.evalRead,
      h.1.1 i i.mem_subexprs_self, h.1.2 v v.mem_subexprs_self, evalRead_cutShifts next h.2]

mutual
/-- The parts keep their values where all the amounts do. -/
theorem eval_subexprs_iff : ∀ e : Expr, e.wellTyped = true → e.narrow = true →
    ((∀ s ∈ e.subexprs, s.cutShifts.eval σ = s.eval σ) ↔ e.keepsAmounts σ = true)
  | .constant c, _, _ => by simp [Expr.subexprs, Expr.cutShifts, Expr.keepsAmounts]
  | .notOptimized src, ht, h => by
    have hsrc := eval_subexprs_iff src ht h
    rw [Expr.subexprs, List.forall_mem_cons, hsrc, Expr.keepsAmounts]
    exact and_iff_right_of_imp fun hk => hsrc.mpr hk src src.mem_subexprs_self
  | .read u i, ht, h => by
    simp only [Expr.wellTyped, Expr.narrow, Bool.and_eq_true] at ht h
    have hu := eval_updates_iff u ht.1.1 h.1
    have hi := eval_subexprs_iff i ht.1.2 h.2
    rw [Expr.subexprs, List.forall_mem_cons, List.forall_mem_append, hu, hi, Expr.keepsAmounts,
      Bool.and_eq_true]
    refine and_iff_right_of_imp fun hk => ?_
    rw [Expr.cutShifts, Expr.eval, Expr.eval, hi.mpr hk.2 i i.mem_subexprs_self,
      evalRead_cutShifts u (hu.mpr hk.1)]
  | .select c t f, ht, h => by
    simp only [Expr.wellTyped, Expr.narrow, Bool.and_eq_true] at ht h
    have hc := eval_subexprs_iff c ht.1.1.1.1 h.1.1
    have ht' := eval_subexprs_iff t ht.1.1.1.2 h.1.2
    have hf := eval_subexprs_iff f ht.1.1.2 h.2
    rw [Expr.subexprs, List.forall_mem_cons, List.forall_mem_append, List.forall_mem_append, hc,
      ht', hf, Expr.keepsAmounts, Bool.and_eq_true, Bool.and_eq_true]
    refine and_iff_right_of_imp fun hk => ?_
    rw [Expr.cutShifts, Expr.eval, Expr.eval, hc.mpr hk.1.1 c c.mem_subexprs_self,
      ht'.mpr hk.1.2 t t.mem_subexprs_self, hf.mpr hk.2 f f.mem_subexprs_self]
  | .concat l r, ht, h => by
    simp only [Expr.wellTyped, Expr.narrow, Bool.and_eq_true] at ht h
    have hl := eval_subexprs_iff l ht.1 h.1.1
    have hr := eval_subexprs_iff r ht.2 h.1.2
    rw [Expr.subexprs, List.forall_mem_cons, List.forall_mem_append, hl, hr, Expr.keepsAmounts,
      Bool.and_eq_true]
    refine and_iff_right_of_imp fun hk => ?_
    rw [Expr.cutShifts, Expr.eval, Expr.eval, hl.mpr hk.1 l l.mem_subexprs_self,
      hr.mpr hk.2 r r.mem_subexprs_self]
  | .extract e off n, ht, h => by
    simp only [Expr.wellTyped, Bool.and_eq_true] at ht
    have he := eval_subexprs_iff e ht.1.1 h
    rw [Expr.subexprs, List.forall_mem_cons, he, Expr.keepsAmounts]
    refine and_iff_right_of_imp fun hk => ?_
    rw [Expr.cutShifts, Expr.eval, Expr.eval, he.mpr hk e e.mem_subexprs_self]
  | .not e, ht, h => by
    have he := eval_subexprs_iff e ht h
    rw [Expr.subexprs, List.forall_mem_cons, he, Expr.keepsAmounts]
    refine and_iff_right_of_imp fun hk => ?_
    rw [Expr.cutShifts, Expr.eval, Expr.eval, he.mpr hk e e.mem_subexprs_self]
  | .cast _ e _, ht, h => by
    simp only [Expr.wellTyped, Expr.narrow, Bool.and_eq_true] at ht h
    have he := eval_subexprs_iff e ht.1 h.1
    rw [Expr.subexprs, List.forall_mem_cons, he, Expr.keepsAmounts]
    refine and_iff_right_of_imp fun hk => ?_
    rw [Expr.cutShifts, Expr.eval, Expr.eval, he.mpr hk e e.mem_subexprs_self]
  | .binary k l r, ht, h => by
    have htypes := ht
    simp only [Expr.wellTyped, Expr.narrow, Bool.and_eq_true] at ht h
    have hl := eval_subexprs_iff l ht.1.1.1 h.1
    have hr := eval_subexprs_iff r ht.1.1.2 h.2
    rw [Expr.subexprs, List.forall_mem_cons, List.forall_mem_append, hl, hr, Expr.keepsAmounts,
      Bool.and_eq_true, Bool.and_eq_true, and_comm]
    refine and_congr_right fun hk => ?_
    exact eval_binary_iff htypes h.2 (hl.mpr hk.1 l l.mem_subexprs_self)
      (hr.mpr hk.2 r r.mem_subexprs_self)
theorem eval_updates_iff : ∀ u : UpdateList, u.wellTyped = true → u.narrow = true →
    ((∀ s ∈ u.subexprs, s.cutShifts.eval σ = s.eval σ) ↔ u.keepsAmounts σ = true)
  | .root a, _, _ => by simp [UpdateList.subexprs, UpdateList.keepsAmounts]
  | .node i v next, ht, h => by
    simp only [UpdateList.wellTyped, UpdateList.narrow, Bool.and_eq_true] at ht h
    have hi := eval_subexprs_iff i ht.1.1.1.1 h.1.1
    have hv := eval_subexprs_iff v ht.1.1.1.2 h.1.2
    have hnext := eval_updates_iff next ht.1.1.2 h.2
    rw [UpdateList.subexprs, List.forall_mem_append, List.forall_mem_append, hi, hv, hnext,
      UpdateList.keepsAmounts, Bool.and_eq_true, Bool.and_eq_true]
end

end Builder

end TaseVerifier
