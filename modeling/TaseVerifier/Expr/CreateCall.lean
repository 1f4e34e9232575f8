import TaseVerifier.Expr.ConstArrayOpt

/-! The smart constructors as one family of calls, with the option `const-array-opt` on or
off. Under every assignment that gives no divisor the value zero and, with the option on, reads
inside the arrays, a call returns an expression of the operation's width whose value is the
operation applied to the values of the operands. The exception is an arithmetic shift of
booleans by one. -/

namespace TaseVerifier

/-- A call of a smart constructor on its operands. -/
inductive CreateCall where
  | read (updates : UpdateList) (index : Expr)
  | select (cond trueExpr falseExpr : Expr)
  | concat (left right : Expr)
  | extract (expr : Expr) (offset width : ℕ)
  | cast (kind : CastKind) (src : Expr) (width : ℕ)
  | binary (kind : BinaryKind) (left right : Expr)

namespace CreateCall

def create (constArrayOpt : Bool) : CreateCall → Except Abort Expr
  | .read u i => pure (ConstArrayOpt.ReadExpr.create constArrayOpt u i)
  | .select c t f => pure (SelectExpr.create c t f)
  | .concat l r => pure (ConcatExpr.create l r)
  | .extract e off w => pure (ExtractExpr.create e off w)
  | .cast k e w => pure (CastExpr.create k e w)
  | .binary k l r => ConstArrayOpt.BinaryExpr.create constArrayOpt k l r

/-- Well-typed operands that meet the assertions of the constructor. A cast to fewer bits
truncates. -/
def WellTyped : CreateCall → Prop
  | .read u i => u.wellTyped = true ∧ i.wellTyped = true ∧ i.getWidth = Width.Int32
  | .select c t f => c.wellTyped = true ∧ t.wellTyped = true ∧ f.wellTyped = true ∧
    c.getWidth = Width.Bool ∧ t.getWidth = f.getWidth
  | .concat l r => l.wellTyped = true ∧ r.wellTyped = true
  | .extract e off w => e.wellTyped = true ∧ 0 < w ∧ off + w ≤ e.getWidth
  | .cast _ e w => e.wellTyped = true ∧ 0 < w
  | .binary _ l r => l.wellTyped = true ∧ r.wellTyped = true ∧ l.getWidth = r.getWidth

/-- The width of the operation. -/
def width : CreateCall → ℕ
  | .read _ _ => Width.Int8
  | .select _ t _ => t.getWidth
  | .concat l r => l.getWidth + r.getWidth
  | .extract _ _ w => w
  | .cast _ _ w => w
  | .binary k l _ => if k.isCmp then Width.Bool else l.getWidth

/-- The operation applied to the values of the operands. -/
def value (σ : Assignment) : CreateCall → APInt
  | .read u i => u.evalRead σ (i.eval σ)
  | .select c t f => if (c.eval σ).isTrue then t.eval σ else f.eval σ
  | .concat l r => (l.eval σ).concat (r.eval σ)
  | .extract e off w => (e.eval σ).extract off w
  | .cast k e w => k.apply (e.eval σ) w
  | .binary k l r => k.apply (l.eval σ) (r.eval σ)

/-- A divisor is not zero. -/
def Divides (σ : Assignment) : CreateCall → Prop
  | .binary k _ r => k.isDivision = true → (r.eval σ).isZero = false
  | _ => True

/-- The reads of the operands are inside their arrays. -/
def ReadsInside (σ : Assignment) : CreateCall → Prop
  | .read u i => u.readsInside σ ∧ i.readsInside σ
  | .select c t f => c.readsInside σ ∧ t.readsInside σ ∧ f.readsInside σ
  | .concat l r => l.readsInside σ ∧ r.readsInside σ
  | .extract e _ _ => e.readsInside σ
  | .cast _ e _ => e.readsInside σ
  | .binary _ l r => l.readsInside σ ∧ r.readsInside σ

/-- The arithmetic shift of the boolean one by its whole width, with an operand that is no
constant, so that nothing is folded. -/
def Overshifts (σ : Assignment) : CreateCall → Prop
  | .binary .AShr l r => l.getWidth = Width.Bool ∧ ¬ (l.isConstant = true ∧ r.isConstant = true) ∧
    Holds σ l ∧ Holds σ r
  | _ => False

/-- What a call is to return. -/
def Returns (σ : Assignment) (c : CreateCall) (e : Expr) : Prop :=
  e.wellTyped = true ∧ e.getWidth = c.width ∧ e.eval σ = c.value σ

theorem returns_of_agrees {σ : Assignment} {c : CreateCall} {n e : Expr} (h : Agrees n e)
    (hw : n.getWidth = c.width) (hv : n.eval σ = c.value σ) : c.Returns σ e :=
  ⟨h.wellTyped, h.getWidth.trans hw, (h.eval σ).trans hv⟩

/-- Casts to more bits extend, casts to fewer bits truncate. -/
theorem cast_returns {σ : Assignment} {k : CastKind} {e : Expr} {w : ℕ}
    (h : (CreateCall.cast k e w).WellTyped) :
    (CreateCall.cast k e w).Returns σ (CastExpr.create k e w) := by
  obtain ⟨he, hpos⟩ := h
  by_cases hle : e.getWidth ≤ w
  · have ht : (Expr.cast k e w).wellTyped = true := by simp [Expr.wellTyped, he, hle]
    exact returns_of_agrees (CastExpr.create_agrees ht) rfl rfl
  · have ht : (Expr.extract e 0 w).wellTyped = true :=
      Expr.wellTyped_extract.mpr ⟨he, hpos, by omega⟩
    have hcreate : CastExpr.create k e w = ExtractExpr.create e 0 w := by
      unfold CastExpr.create
      rw [if_neg (by omega), if_pos (by omega)]
    rw [hcreate]
    refine returns_of_agrees (ExtractExpr.create_agrees ht) rfl ?_
    obtain ⟨x, hx⟩ := Expr.eval_mk he rfl σ
    have hlow : x.extractLsb' 0 w = x.setWidth w := by
      ext i hi
      simp
    rw [Expr.eval, value, hx]
    cases k with
    | ZExt => simp [CastKind.apply, APInt.extract, APInt.zext, hlow]
    | SExt =>
      simp [CastKind.apply, APInt.extract, APInt.sext, hlow,
        BitVec.signExtend_eq_setWidth_of_le x (Nat.le_of_not_le hle)]

/-- On booleans a divisor that is not zero is one. -/
theorem bool_division_returns {σ : Assignment} {k : BinaryKind} {l r : Expr}
    (hk : k.isDivision = true) (hl : l.wellTyped = true) (hr : r.wellTyped = true)
    (hlw : l.getWidth = Width.Bool) (hrw : r.getWidth = Width.Bool)
    (hd : (r.eval σ).isZero = false) :
    ∃ e, BinaryExpr.create k l r = .ok e ∧ (CreateCall.binary k l r).Returns σ e := by
  obtain ⟨x, hx⟩ := Expr.eval_bool hl hlw σ
  obtain ⟨y, hy⟩ := Expr.eval_bool hr hrw σ
  have hy1 : y = true := by
    rw [hy] at hd
    cases y with
    | true => rfl
    | false => exact absurd hd (by decide)
  subst hy1
  have hfold : ∀ (bool : Expr → Expr), (∀ e, e.wellTyped = true → (bool e).wellTyped = true) →
      (∀ e, e.getWidth = Width.Bool → (bool e).getWidth = Width.Bool) →
      (bool l).eval σ = k.apply (l.eval σ) (r.eval σ) →
      ∃ e, divCreate k bool l r = .ok e ∧ (CreateCall.binary k l r).Returns σ e := by
    intro bool hbt hbw hb
    have hcmp : k.isCmp = false := by
      revert hk
      cases k <;> decide
    have hwidth : (CreateCall.binary k l r).width = Width.Bool := by simp [width, hcmp, hlw]
    unfold divCreate
    split
    next cl cr =>
      have hz : cr.isZero = false := hd
      exact ⟨.constant (k.apply cl cr), by rw [hz]; rfl, rfl, k.width_apply cl cr, rfl⟩
    next =>
      rw [if_pos hlw]
      exact ⟨_, rfl, hbt l hl, (hbw l hlw).trans hwidth.symm, hb⟩
  cases k with
  | UDiv | SDiv =>
    refine hfold id (fun _ h => h) (fun _ h => h) ?_
    rw [hx, hy, id, hx]
    cases x <;> decide
  | URem | SRem =>
    refine hfold (fun _ => Expr.alloc 0 Width.Bool) (fun _ _ => rfl) (fun _ _ => rfl) ?_
    rw [hx, hy, Expr.eval_alloc]
    cases x <;> decide
  | _ => cases hk

/-- What a call is to return under the assignments of interest. -/
theorem returns_of_agreesOn {σ : Assignment} {c : CreateCall} {n e : Expr}
    (h : AgreesOn (· = σ) n e) (hw : n.getWidth = c.width) (hv : n.eval σ = c.value σ) :
    c.Returns σ e :=
  ⟨h.wellTyped, h.getWidth.trans hw, (h.eval σ rfl).trans hv⟩

/-- A boolean shifted arithmetically is its own result, which is right for the amount zero. -/
theorem bool_ashr_create {σ : Assignment} {l r : Expr}
    (h : (CreateCall.binary .AShr l r).WellTyped) (hb : l.getWidth = Width.Bool) :
    (AShrExpr.create l r).wellTyped = true ∧ (AShrExpr.create l r).getWidth = Width.Bool ∧
      (¬ (CreateCall.binary .AShr l r).Overshifts σ →
        (AShrExpr.create l r).eval σ = (CreateCall.binary .AShr l r).value σ) ∧
      ((CreateCall.binary .AShr l r).Overshifts σ →
        (AShrExpr.create l r).eval σ = APInt.ofBool true ∧
          (CreateCall.binary .AShr l r).value σ = APInt.ofBool false) := by
  obtain ⟨hl, hr, hw⟩ := h
  obtain ⟨x, hx⟩ := Expr.eval_bool hl hb σ
  obtain ⟨y, hy⟩ := Expr.eval_bool hr (hw.symm.trans hb) σ
  have hvalue : (CreateCall.binary .AShr l r).value σ = APInt.ofBool (x && !y) := by
    rw [value, hx, hy]
    cases x <;> cases y <;> decide
  have hover : (CreateCall.binary .AShr l r).Overshifts σ ↔
      ¬ (l.isConstant = true ∧ r.isConstant = true) ∧ x = true ∧ y = true := by
    simp only [Overshifts, hb, true_and, Holds, hx, hy, APInt.isTrue_ofBool]
  by_cases hconst : l.isConstant = true ∧ r.isConstant = true
  · obtain ⟨cl, rfl⟩ := Expr.isConstant_iff.mp hconst.1
    obtain ⟨cr, rfl⟩ := Expr.isConstant_iff.mp hconst.2
    exact ⟨rfl, (BinaryKind.width_apply .AShr cl cr).trans hb, fun _ => rfl,
      fun ho => absurd hconst (hover.mp ho).1⟩
  · have hcreate : AShrExpr.create l r = l := by
      unfold AShrExpr.create plainCreate
      split
      · exact absurd ⟨rfl, rfl⟩ hconst
      · exact if_pos hb
    rw [hcreate, hvalue, hx, hover]
    refine ⟨hl, hb, fun hn => ?_, fun ho => ?_⟩
    · cases x <;> cases y <;> simp_all
    · simp [ho.2.1, ho.2.2]

section Binary

variable {constArrayOpt : Bool} {σ : Assignment} {k : BinaryKind} {l r : Expr}

/-- All binary constructors but the arithmetic shift of booleans. -/
theorem binary_returns (h : (CreateCall.binary k l r).WellTyped)
    (hd : (CreateCall.binary k l r).Divides σ)
    (hin : constArrayOpt = true → (CreateCall.binary k l r).ReadsInside σ)
    (hk : ¬ (k = .AShr ∧ l.getWidth = Width.Bool)) :
    ∃ e, ConstArrayOpt.BinaryExpr.create constArrayOpt k l r = .ok e ∧
      (CreateCall.binary k l r).Returns σ e := by
  obtain ⟨hl, hr, hw⟩ := h
  by_cases hbool : k.isDivision = true ∧ l.getWidth = Width.Bool
  · obtain ⟨e, he, hret⟩ := bool_division_returns hbool.1 hl hr hbool.2 (hw ▸ hbool.2) (hd hbool.1)
    refine ⟨e, ?_, hret⟩
    rw [← he]
    revert hbool
    cases k <;> simp [BinaryKind.isDivision, ConstArrayOpt.BinaryExpr.create]
  have ht : (Expr.binary k l r).wellTyped = true := by
    simp only [Expr.wellTyped, hl, hr, hw, BinaryKind.notOnBool, Bool.and_eq_true, beq_self_eq_true,
      Bool.not_eq_true', Bool.and_eq_false_iff, Bool.or_eq_false_iff, true_and]
    rw [← hw]
    by_cases hlw : l.getWidth = Width.Bool
    · left
      exact ⟨by simpa [hlw] using hbool, by simpa [hlw] using hk⟩
    · right
      simpa using hlw
  have hplain : (k ≠ .Eq ∧ k ≠ .Ne) → ∃ e,
      ConstArrayOpt.BinaryExpr.create constArrayOpt k l r = .ok e ∧
        (CreateCall.binary k l r).Returns σ e := by
    intro hne
    obtain ⟨e, he⟩ := BinaryExpr.create_ok k l r fun hk c hc => by
      subst hc
      exact hd hk
    refine ⟨e, ?_, returns_of_agrees (BinaryExpr.create_agrees ht he) rfl rfl⟩
    rw [← he]
    cases k <;> first | rfl | simp at hne
  cases k with
  | Eq => exact ⟨_, rfl, returns_of_agreesOn (ConstArrayOpt.EqExpr.create_agreesOn ht hin) rfl rfl⟩
  | Ne => exact ⟨_, rfl, returns_of_agreesOn (ConstArrayOpt.NeExpr.create_agreesOn ht hin) rfl rfl⟩
  | _ => exact hplain (by decide)

end Binary

/-- Every smart constructor preserves meaning, but for the arithmetic shift of a boolean one by
one, where the constructor gives its left operand and the operation zero. -/
theorem create_returns (constArrayOpt : Bool) (σ : Assignment) (c : CreateCall) (hw : c.WellTyped)
    (hd : c.Divides σ) (hin : constArrayOpt = true → c.ReadsInside σ) :
    ∃ e, c.create constArrayOpt = .ok e ∧ e.wellTyped = true ∧ e.getWidth = c.width ∧
      (¬ c.Overshifts σ → e.eval σ = c.value σ) ∧
      (c.Overshifts σ → e.eval σ = APInt.ofBool true ∧ c.value σ = APInt.ofBool false) := by
  have hreturns : ∀ {e : Expr}, ¬ c.Overshifts σ → c.create constArrayOpt = .ok e → c.Returns σ e →
      ∃ e, c.create constArrayOpt = .ok e ∧ e.wellTyped = true ∧ e.getWidth = c.width ∧
        (¬ c.Overshifts σ → e.eval σ = c.value σ) ∧
        (c.Overshifts σ → e.eval σ = APInt.ofBool true ∧ c.value σ = APInt.ofBool false) :=
    fun hn he hr => ⟨_, he, hr.1, hr.2.1, fun _ => hr.2.2, fun ho => absurd ho hn⟩
  cases c with
  | read u i =>
    have ht : (Expr.read u i).wellTyped = true := by simp [Expr.wellTyped, hw.1, hw.2.1, hw.2.2]
    exact hreturns id rfl (returns_of_agreesOn (c := .read u i)
      (ConstArrayOpt.ReadExpr.create_agreesOn ht fun ho => ⟨(hin ho).2, (hin ho).1⟩) rfl rfl)
  | select c t f =>
    obtain ⟨hc, ht, hf, hcw, htf⟩ := hw
    have hs : (Expr.select c t f).wellTyped = true := by simp [Expr.wellTyped, hc, ht, hf, hcw, htf]
    exact hreturns id rfl
      (returns_of_agrees (c := .select c t f) (SelectExpr.create_agrees hs) rfl rfl)
  | concat l r =>
    have ht := Expr.wellTyped_concat.mpr hw
    exact hreturns id rfl
      (returns_of_agrees (c := .concat l r) (ConcatExpr.create_agrees ht) rfl rfl)
  | extract e off w =>
    have ht := Expr.wellTyped_extract.mpr hw
    exact hreturns id rfl
      (returns_of_agrees (c := .extract e off w) (ExtractExpr.create_agrees ht) rfl rfl)
  | cast k e w => exact hreturns id rfl (cast_returns hw)
  | binary k l r =>
    by_cases hk : k = .AShr ∧ l.getWidth = Width.Bool
    · obtain ⟨rfl, hb⟩ := hk
      obtain ⟨ht, hwidth, hv⟩ := bool_ashr_create (σ := σ) hw hb
      exact ⟨_, rfl, ht, hwidth.trans hb.symm, hv⟩
    · obtain ⟨e, he, hret⟩ := binary_returns hw hd hin hk
      refine hreturns (fun ho => hk ?_) he hret
      cases k <;> simp_all [Overshifts]

/-- A read of a constant array compared with a value that it holds twice, with the option on. -/
theorem create_returns_eq :
    let table := Expr.read (.root ⟨"t", 3, 0, [⟨8, 5#8⟩, ⟨8, 7#8⟩, ⟨8, 5#8⟩]⟩)
      (.concat (.alloc 0 24) (.read (.root ⟨"a", 1, 1, []⟩) (.alloc 0 32)))
    ∃ e, (CreateCall.binary .Eq (.alloc 5 8) table).create true = .ok e ∧ e.wellTyped = true ∧
      e.getWidth = 1 ∧ e.eval (fun _ _ => 2#8) = APInt.ofBool true := by
  obtain ⟨e, he, ht, hw, hv, -⟩ := create_returns true (fun _ _ => 2#8)
    (.binary .Eq (.alloc 5 8) (.read (.root ⟨"t", 3, 0, [⟨8, 5#8⟩, ⟨8, 7#8⟩, ⟨8, 5#8⟩]⟩)
      (.concat (.alloc 0 24) (.read (.root ⟨"a", 1, 1, []⟩) (.alloc 0 32)))))
    ⟨by decide +kernel, by decide +kernel, rfl⟩ nofun
    (fun _ => ⟨trivial, trivial, ⟨trivial, ⟨trivial, trivial, by decide +kernel⟩⟩, by decide +kernel⟩)
  exact ⟨e, he, ht, hw, (hv id).trans (by decide +kernel)⟩

/-- Two booleans, not constant and both one: the shift gives its left operand, the operation
zero. -/
theorem create_overshifts :
    let l := Expr.extract (.read (.root ⟨"a", 1, 0, []⟩) (.alloc 0 32)) 0 1
    (CreateCall.binary .AShr l l).WellTyped ∧
      (CreateCall.binary .AShr l l).create false = .ok l ∧
      l.eval (fun _ _ => 1#8) = APInt.ofBool true ∧
      (CreateCall.binary .AShr l l).value (fun _ _ => 1#8) = APInt.ofBool false := by
  refine ⟨⟨by decide +kernel, by decide +kernel, rfl⟩, by decide +kernel, by decide +kernel,
    by decide +kernel⟩

end CreateCall

end TaseVerifier
