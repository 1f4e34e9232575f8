import TaseVerifier.Expr.Agrees

/-! The equality constructor keeps the meaning through each of its rules, and with
it the exclusive or, which is a comparison with zero on booleans. -/

namespace TaseVerifier

section Eq

variable {l r : Expr}

theorem EqExpr.comm_agrees (h : (Expr.binary .Eq l r).wellTyped = true) :
    Agrees (.binary .Eq l r) (.binary .Eq r l) :=
  agrees_comm h rfl fun w x y => by simp [BinaryKind.apply, BEq.comm]

theorem EqExpr.create'_agrees (h : (Expr.binary .Eq l r).wellTyped = true) :
    Agrees (.binary .Eq l r) (EqExpr.create' l r) := by
  unfold EqExpr.create'
  split_ifs with hlr
  · subst hlr
    refine ⟨rfl, rfl, fun σ => ?_⟩
    obtain ⟨x, hx⟩ := Expr.eval_mk (Expr.wellTyped_operands h).1 rfl σ
    simp only [Expr.eval, BinaryKind.apply, hx, APInt.eq_mk, beq_self_eq_true]
    rfl
  · exact .refl h

theorem EqExpr.foldOr_agrees {e rest : Expr} {c : APInt}
    (h : (Expr.binary .Eq (.constant c) e).wellTyped = true)
    (hrest : Agrees (.binary .Eq (.constant c) e) rest) :
    Agrees (.binary .Eq (.constant c) e) (EqExpr.foldOr e c rest) := by
  cases e with
  | constant k => exact (EqExpr.comm_agrees h).trans (agrees_fold .Eq k c)
  | _ => exact hrest

/-- The value of an equality is decided by the values of its operands. -/
theorem Expr.eval_eq (h : (Expr.binary .Eq l r).wellTyped = true) (σ : Assignment) :
    (Expr.binary .Eq l r).eval σ = APInt.ofBool (decide (l.eval σ = r.eval σ)) := by
  obtain ⟨hl, hr, hw⟩ := Expr.wellTyped_operands h
  refine APInt.eq_eq_ofBool ?_
  rw [l.width_eval σ hl, r.width_eval σ hr, hw]

theorem holds_eq {σ : Assignment} (h : (Expr.binary .Eq l r).wellTyped = true) :
    Holds σ (.binary .Eq l r) ↔ l.eval σ = r.eval σ := by
  rw [Holds, Expr.eval_eq h, APInt.isTrue_ofBool, decide_eq_true_eq]

/-- Two equalities agree when they hold under the same assignments. -/
theorem agrees_eq_iff {l' r' : Expr} (h : (Expr.binary .Eq l r).wellTyped = true)
    (h' : (Expr.binary .Eq l' r').wellTyped = true)
    (hiff : ∀ σ, l'.eval σ = r'.eval σ ↔ l.eval σ = r.eval σ) :
    Agrees (.binary .Eq l r) (.binary .Eq l' r') := by
  refine ⟨h', rfl, fun σ => ?_⟩
  rw [Expr.eval_eq h, Expr.eval_eq h', APInt.ofBool_inj, decide_eq_decide]
  exact hiff σ

theorem EqExpr.true_agrees {c : APInt} (h : (Expr.binary .Eq (.constant c) r).wellTyped = true)
    (hc : c.isTrue = true) : Agrees (.binary .Eq (.constant c) r) r := by
  obtain ⟨-, hr, hw⟩ := Expr.wellTyped_operands h
  simp only [APInt.isTrue, Bool.and_eq_true, beq_iff_eq, bne_iff_ne] at hc
  have hw1 : r.getWidth = 1 := by rw [← hw]; exact hc.1
  refine ⟨hr, hw1, fun σ => ?_⟩
  obtain ⟨b, hb⟩ := Expr.eval_bool hr hw1 σ
  rw [Expr.eval_eq h, hb]
  rcases c.bool_cases hc.1 with rfl | rfl
  · cases b <;> simp
  · exact absurd rfl hc.2

/-- `0 == (0 == a)` is `a`. -/
theorem EqExpr.false_false_agrees {c d : APInt} {a : Expr}
    (h : (Expr.binary .Eq (.constant c) (.binary .Eq (.constant d) a)).wellTyped = true)
    (hc : c.isTrue = false) (hd : d.isFalse = true) :
    Agrees (.binary .Eq (.constant c) (.binary .Eq (.constant d) a)) a := by
  obtain ⟨-, hr, hw⟩ := Expr.wellTyped_operands h
  obtain ⟨-, ha, hwa⟩ := Expr.wellTyped_operands hr
  simp only [APInt.isFalse, Bool.and_eq_true, beq_iff_eq] at hd
  have hwa1 : a.getWidth = 1 := by rw [← hwa]; exact hd.1
  refine ⟨ha, hwa1, fun σ => ?_⟩
  obtain ⟨b, hb⟩ := Expr.eval_bool ha hwa1 σ
  rw [Expr.eval_eq h, Expr.eval_eq hr, hb]
  rcases c.bool_cases hw with rfl | rfl
  · simp at hc
  · rcases d.bool_cases hd.1 with rfl | rfl
    · simp at hd
    · cases b <;> simp

/-- The negation of a disjunction. -/
theorem EqExpr.not_or_agrees {c : APInt} {a b : Expr}
    (h : (Expr.binary .Eq (.constant c) (.binary .Or a b)).wellTyped = true)
    (hc : c.isTrue = false) (hw : c.width = 1) :
    Agrees (.binary .Eq (.constant c) (.binary .Or a b))
      (.binary .And (.binary .Eq (.constant (APInt.ofNat a.getWidth 0)) a)
        (.binary .Eq (.constant (APInt.ofNat b.getWidth 0)) b)) := by
  obtain ⟨-, hr, hwr⟩ := Expr.wellTyped_operands h
  obtain ⟨ha, hb, hab⟩ := Expr.wellTyped_operands hr
  have hwa : a.getWidth = 1 := hwr.symm.trans hw
  have hwb : b.getWidth = 1 := hab.symm.trans hwa
  have hta : (Expr.binary .Eq (.constant (APInt.ofNat a.getWidth 0)) a).wellTyped = true :=
    Expr.wellTyped_binary rfl ha rfl rfl
  have htb : (Expr.binary .Eq (.constant (APInt.ofNat b.getWidth 0)) b).wellTyped = true :=
    Expr.wellTyped_binary rfl hb rfl rfl
  refine ⟨Expr.wellTyped_binary hta htb rfl rfl, rfl, fun σ => ?_⟩
  obtain ⟨x, hx⟩ := Expr.eval_bool ha hwa σ
  obtain ⟨y, hy⟩ := Expr.eval_bool hb hwb σ
  have hc0 : c = APInt.ofBool false := (c.bool_cases hw).resolve_left (by rintro rfl; simp at hc)
  rw [Expr.eval_eq h, Expr.eval_binary, Expr.eval_eq hta, Expr.eval_eq htb, Expr.eval_binary, hx,
    hy, hc0, hwa, hwb, Expr.eval_constant, Expr.eval_constant]
  cases x <;> cases y <;> decide

theorem CastKind.zext_apply (k : CastKind) (a : APInt) {w : ℕ} (h : a.width ≤ w) :
    (k.apply a w).zext a.width = a := by
  obtain ⟨v, x⟩ := a
  cases k with
  | ZExt => simp [CastKind.apply, APInt.zext, BitVec.setWidth_setWidth_of_le x h]
  | SExt =>
    simp only [CastKind.apply, APInt.zext, APInt.sext, APInt.mk.injEq, heq_eq_eq, true_and]
    ext i hi
    have : i < w := by simp only at h; omega
    simp [BitVec.getElem_signExtend, this, hi]

/-- A constant that is the extension of its own truncation equals an extension
exactly when the truncation equals the operand. -/
theorem EqExpr.cast_agrees {k : CastKind} {c : APInt} {a : Expr} {w : ℕ}
    (h : (Expr.binary .Eq (.constant c) (.cast k a w)).wellTyped = true)
    (hc : c = k.apply (c.zext a.getWidth) c.width) :
    Agrees (.binary .Eq (.constant c) (.cast k a w))
      (.binary .Eq (.constant (c.zext a.getWidth)) a) := by
  obtain ⟨-, hr, hw⟩ := Expr.wellTyped_operands h
  simp only [Expr.wellTyped, Bool.and_eq_true, decide_eq_true_eq] at hr
  obtain rfl : c.width = w := hw
  refine agrees_eq_iff h (Expr.wellTyped_binary rfl hr.1 rfl rfl) fun σ => ?_
  have hwa := a.width_eval σ hr.1
  simp only [Expr.eval]
  constructor
  · intro he
    rw [← he]
    exact hc
  · intro he
    rw [he, ← hwa]
    exact k.zext_apply _ (hwa ▸ hr.2)

theorem EqExpr.cast_agrees_false {k : CastKind} {c : APInt} {a : Expr} {w : ℕ}
    (h : (Expr.binary .Eq (.constant c) (.cast k a w)).wellTyped = true)
    (hc : ¬ c = k.apply (c.zext a.getWidth) c.width) :
    Agrees (.binary .Eq (.constant c) (.cast k a w)) (Expr.alloc 0 Width.Bool) := by
  obtain ⟨-, hr, hw⟩ := Expr.wellTyped_operands h
  simp only [Expr.wellTyped, Bool.and_eq_true, decide_eq_true_eq] at hr
  obtain rfl : c.width = w := hw
  refine ⟨rfl, rfl, fun σ => ?_⟩
  have hwa := a.width_eval σ hr.1
  have hne : ¬ c = k.apply (a.eval σ) c.width := by
    intro he
    have : c.zext a.getWidth = a.eval σ := by
      rw [he, ← hwa]
      exact k.zext_apply _ (hwa ▸ hr.2)
    exact hc (this ▸ he)
  rw [Expr.eval_eq h, Expr.eval, Expr.eval, decide_eq_false hne]
  rfl

/-- A constant summand moves to the other side. -/
theorem EqExpr.add_agrees {c d : APInt} {b : Expr}
    (h : (Expr.binary .Eq (.constant c) (.binary .Add (.constant d) b)).wellTyped = true) :
    Agrees (.binary .Eq (.constant c) (.binary .Add (.constant d) b))
      (.binary .Eq (.constant (c.sub d)) b) := by
  obtain ⟨-, hr, hw⟩ := Expr.wellTyped_operands h
  obtain ⟨-, hb, hwb⟩ := Expr.wellTyped_operands hr
  obtain ⟨w, z⟩ := d
  obtain ⟨x, rfl⟩ := c.ofWidth (w := w) hw
  refine agrees_eq_iff h (Expr.wellTyped_binary rfl hb hwb rfl) fun σ => ?_
  obtain ⟨y, hy⟩ := Expr.eval_mk (w := w) hb hwb.symm σ
  simp only [Expr.eval, hy, BinaryKind.apply, APInt.add_mk, APInt.sub_mk, APInt.mk.injEq, heq_eq_eq,
    true_and]
  rw [BitVec.sub_eq_iff_eq_add, BitVec.add_comm y z]

theorem EqExpr.sub_agrees {c d : APInt} {b : Expr}
    (h : (Expr.binary .Eq (.constant c) (.binary .Sub (.constant d) b)).wellTyped = true) :
    Agrees (.binary .Eq (.constant c) (.binary .Sub (.constant d) b))
      (.binary .Eq (.constant (d.sub c)) b) := by
  obtain ⟨-, hr, hw⟩ := Expr.wellTyped_operands h
  obtain ⟨-, hb, hwb⟩ := Expr.wellTyped_operands hr
  obtain ⟨w, z⟩ := d
  obtain ⟨x, rfl⟩ := c.ofWidth (w := w) hw
  refine agrees_eq_iff h (Expr.wellTyped_binary rfl hb hwb rfl) fun σ => ?_
  obtain ⟨y, hy⟩ := Expr.eval_mk (w := w) hb hwb.symm σ
  simp only [Expr.eval, hy, BinaryKind.apply, APInt.sub_mk, APInt.mk.injEq, heq_eq_eq, true_and]
  rw [BitVec.sub_eq_iff_eq_add, BitVec.eq_sub_iff_add_eq, BitVec.add_comm, eq_comm]

theorem EqExpr.createPartialR_agrees (c : APInt) (r : Expr)
    (h : (Expr.binary .Eq (.constant c) r).wellTyped = true) :
    Agrees (.binary .Eq (.constant c) r) (EqExpr.createPartialR c r) := by
  fun_induction EqExpr.createPartialR c r with
  | case1 => exact EqExpr.true_agrees h ‹_›
  | case2 c hw hc d a hd => exact EqExpr.false_false_agrees h (by simpa using hc) hd
  | case3 => exact EqExpr.create'_agrees h
  | case4 c hw hc a b iha ihb =>
    have hor := EqExpr.not_or_agrees h (by simpa using hc) hw
    obtain ⟨hta, htb, -⟩ := Expr.wellTyped_operands hor.wellTyped
    have hand := Agrees.binary hor.wellTyped (EqExpr.foldOr_agrees hta (iha hta))
      (EqExpr.foldOr_agrees htb (ihb htb))
    exact (hor.trans hand).trans (AndExpr.create_agrees hand.wellTyped)
  | case5 => exact EqExpr.create'_agrees h
  | case6 c hw a w trunc hc ih =>
    have ha := EqExpr.cast_agrees h hc
    exact ha.trans (EqExpr.foldOr_agrees ha.wellTyped (ih ha.wellTyped))
  | case7 c hw a w trunc hc => exact EqExpr.cast_agrees_false h hc
  | case8 c hw a w trunc hc ih =>
    have ha := EqExpr.cast_agrees h hc
    exact ha.trans (EqExpr.foldOr_agrees ha.wellTyped (ih ha.wellTyped))
  | case9 c hw a w trunc hc => exact EqExpr.cast_agrees_false h hc
  | case10 c hw d b ih =>
    have ha := EqExpr.add_agrees h
    exact ha.trans (ih ha.wellTyped)
  | case11 c hw d b ih =>
    have ha := EqExpr.sub_agrees h
    exact ha.trans (ih ha.wellTyped)
  | case12 => exact EqExpr.create'_agrees h

theorem EqExpr.create_agrees (h : (Expr.binary .Eq l r).wellTyped = true) :
    Agrees (.binary .Eq l r) (EqExpr.create l r) := by
  unfold EqExpr.create
  split
  · exact agrees_fold ..
  · exact EqExpr.createPartialR_agrees _ _ h
  · have hc := EqExpr.comm_agrees h
    exact hc.trans (EqExpr.createPartialR_agrees _ _ hc.wellTyped)
  · exact EqExpr.create'_agrees h

/-- `createIsZero` compares with zero. -/
theorem Expr.createIsZero_agrees {e : Expr} (h : e.wellTyped = true) :
    Agrees (.binary .Eq e (.alloc 0 e.getWidth)) e.createIsZero :=
  EqExpr.create_agrees (Expr.wellTyped_binary h rfl rfl rfl)

end Eq

section Xor

variable {l r : Expr} {c : APInt}

theorem XorExpr.createPartialR_agrees (h : (Expr.binary .Xor (.constant c) r).wellTyped = true) :
    Agrees (.binary .Xor (.constant c) r) (XorExpr.createPartialR c r) := by
  obtain ⟨-, hr, hw⟩ := Expr.wellTyped_operands h
  unfold XorExpr.createPartialR
  split_ifs with h1 h2
  · obtain ⟨w, y⟩ := c
    refine ⟨hr, hw.symm, fun σ => ?_⟩
    obtain ⟨x, hx⟩ := Expr.eval_mk (w := w) hr hw.symm σ
    simp [Expr.eval, BinaryKind.apply, hx, (APInt.isZero_mk y).mp h1]
  · -- the constant is one, and exclusive or with one is a comparison with zero
    have hwr : r.getWidth = 1 := hw.symm.trans h2
    have hc : c = APInt.ofBool true := (c.bool_cases h2).resolve_right (by rintro rfl; exact h1 rfl)
    have he : (Expr.binary .Eq (.constant (APInt.ofNat Width.Bool 0)) r).wellTyped = true :=
      Expr.wellTyped_binary rfl hr hwr.symm rfl
    refine Agrees.trans ⟨he, ?_, fun σ => ?_⟩ (EqExpr.createPartialR_agrees _ _ he)
    · rw [hc]; rfl
    · obtain ⟨x, hx⟩ := Expr.eval_bool hr hwr σ
      rw [Expr.eval_eq he, Expr.eval_binary, hx, hc, Expr.eval_constant, Expr.eval_constant]
      cases x <;> decide
  · exact .refl h

theorem XorExpr.create_agrees (h : (Expr.binary .Xor l r).wellTyped = true) :
    Agrees (.binary .Xor l r) (XorExpr.create l r) := by
  unfold XorExpr.create
  split
  · exact agrees_fold ..
  · exact XorExpr.createPartialR_agrees h
  · have hc := agrees_comm h rfl fun w x y => by simp [BinaryKind.apply, BitVec.xor_comm]
    exact hc.trans (XorExpr.createPartialR_agrees hc.wellTyped)
  · exact .refl h

end Xor

end TaseVerifier
