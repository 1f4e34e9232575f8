import TaseVerifier.Expr.AddSubSound

/-! The remaining constructors keep the meaning: applied to well-typed operands, each
returns a well-typed expression of the same width and value as the plain node it
stands for. -/

namespace TaseVerifier

section Binary

variable {l r : Expr} {c : APInt}

theorem MulExpr.createPartialR_agrees (h : (Expr.binary .Mul (.constant c) r).wellTyped = true) :
    Agrees (.binary .Mul (.constant c) r) (MulExpr.createPartialR c r) := by
  obtain ⟨-, hr, hw⟩ := Expr.wellTyped_operands h
  obtain ⟨w, y⟩ := c
  have hwr : r.getWidth = w := hw.symm
  unfold MulExpr.createPartialR
  split_ifs with h1 h2 h3
  · obtain rfl : w = 1 := h1
    have ha : (Expr.binary .And r (.constant ⟨1, y⟩)).wellTyped = true :=
      Expr.wellTyped_binary hr rfl hwr rfl
    refine Agrees.trans ⟨ha, hwr, fun σ => ?_⟩ (AndExpr.createPartial_agrees hr hwr)
    obtain ⟨x, hx⟩ := Expr.eval_mk hr hwr σ
    simp only [Expr.eval, hx, BinaryKind.apply, APInt.and_mk, APInt.mul_mk]
    rcases BitVec.eq_zero_or_eq_one x with rfl | rfl <;>
      rcases BitVec.eq_zero_or_eq_one y with rfl | rfl <;> rfl
  · refine ⟨hr, hwr, fun σ => ?_⟩
    obtain ⟨x, hx⟩ := Expr.eval_mk hr hwr σ
    simp [Expr.eval, hx, BinaryKind.apply, APInt.isOne_mk y h2]
  · refine ⟨rfl, rfl, fun σ => ?_⟩
    obtain ⟨x, hx⟩ := Expr.eval_mk hr hwr σ
    simp [Expr.eval, hx, BinaryKind.apply, (APInt.isZero_mk y).mp h3]
  · exact .refl h

/-- Two nodes over boolean operands agree by their truth table. -/
theorem agrees_bool {k k' : BinaryKind} (h : (Expr.binary k l r).wellTyped = true)
    (h' : (Expr.binary k' l r).wellTyped = true) (hw : l.getWidth = 1)
    (htable : ∀ x y, k'.apply (APInt.ofBool x) (APInt.ofBool y) =
      k.apply (APInt.ofBool x) (APInt.ofBool y)) :
    Agrees (.binary k l r) (.binary k' l r) := by
  obtain ⟨hl, hr, hlr⟩ := Expr.wellTyped_operands h
  refine ⟨h', ?_, fun σ => ?_⟩
  · simp only [Expr.getWidth, hw]
    simp [Width.Bool]
  · obtain ⟨x, hx⟩ := Expr.eval_bool hl hw σ
    obtain ⟨y, hy⟩ := Expr.eval_bool hr (hlr.symm.trans hw) σ
    simp only [Expr.eval_binary, hx, hy, htable]

theorem MulExpr.create_agrees (h : (Expr.binary .Mul l r).wellTyped = true) :
    Agrees (.binary .Mul l r) (MulExpr.create l r) := by
  obtain ⟨hl, hr, hw⟩ := Expr.wellTyped_operands h
  unfold MulExpr.create
  split
  · exact agrees_fold ..
  · exact MulExpr.createPartialR_agrees h
  · have hc := agrees_comm h rfl fun w x y => by simp [BinaryKind.apply, BitVec.mul_comm]
    exact hc.trans (MulExpr.createPartialR_agrees hc.wellTyped)
  split_ifs with h1
  · exact agrees_bool h (Expr.wellTyped_binary hl hr hw rfl) h1 (by decide)
  · exact .refl h

theorem divCreate_agrees {k : BinaryKind} {bool : Expr → Expr} {e : Expr}
    (hk : k.isDivision = true) (h : (Expr.binary k l r).wellTyped = true)
    (he : divCreate k bool l r = .ok e) : Agrees (.binary k l r) e := by
  have hw : ¬ l.getWidth = Width.Bool := by
    simp only [Expr.wellTyped, BinaryKind.notOnBool, hk, Bool.true_or, Bool.and_eq_true,
      Bool.true_and, Bool.not_eq_true', beq_eq_false_iff_ne] at h
    exact h.2
  unfold divCreate at he
  split at he
  · split at he
    · cases he
    · cases he
      exact agrees_fold ..
  · cases he
    rw [if_neg hw]
    exact .refl h

/-- `BCREATE` and `CMPCREATE` keep the meaning when the boolean form does. -/
theorem plainCreate_agrees {k : BinaryKind} {bool : Expr → Expr → Expr}
    (h : (Expr.binary k l r).wellTyped = true)
    (hbool : l.getWidth = 1 → Agrees (.binary k l r) (bool l r)) :
    Agrees (.binary k l r) (plainCreate k bool l r) := by
  unfold plainCreate
  split
  · exact agrees_fold ..
  split_ifs with h1
  · exact hbool h1
  · exact .refl h

/-- The value of `createIsZero` on a boolean is the negation. -/
theorem Expr.createIsZero_bool {e : Expr} (h : e.wellTyped = true) (hw : e.getWidth = 1) :
    e.createIsZero.wellTyped = true ∧ e.createIsZero.getWidth = 1 ∧
      ∀ σ b, e.eval σ = APInt.ofBool b → e.createIsZero.eval σ = APInt.ofBool !b := by
  have hz := Expr.createIsZero_agrees h
  refine ⟨hz.wellTyped, hz.getWidth, fun σ b hb => ?_⟩
  have ht : (Expr.binary .Eq e (.alloc 0 e.getWidth)).wellTyped = true :=
    Expr.wellTyped_binary h rfl rfl rfl
  rw [hz.eval, Expr.eval_eq ht, hb, hw, Expr.eval_alloc]
  cases b <;> rfl

theorem Expr.isBool_createIsZero {e : Expr} (he : e.isBool = true) :
    e.createIsZero.isBool = true := by
  obtain ⟨ht, hw⟩ := isBool_iff.mp he
  obtain ⟨hz, hzw, -⟩ := Expr.createIsZero_bool ht hw
  exact isBool_iff.mpr ⟨hz, hzw⟩

theorem holds_createIsZero {e : Expr} (he : e.isBool = true) (σ : Assignment) :
    Holds σ e.createIsZero ↔ ¬ Holds σ e := by
  obtain ⟨ht, hw⟩ := isBool_iff.mp he
  obtain ⟨b, hb⟩ := Expr.eval_bool ht hw σ
  rw [Holds, Holds, (Expr.createIsZero_bool ht hw).2.2 σ b hb, hb]
  cases b <;> simp

theorem holds_or {σ : Assignment} {l r : Expr} (hl : l.isBool = true) (hr : r.isBool = true) :
    (OrExpr.create l r).isBool = true ∧ (Holds σ (OrExpr.create l r) ↔ Holds σ l ∨ Holds σ r) := by
  obtain ⟨hlt, hlw⟩ := isBool_iff.mp hl
  obtain ⟨hrt, hrw⟩ := isBool_iff.mp hr
  have ha := OrExpr.create_agrees (Expr.wellTyped_binary (k := .Or) hlt hrt (hlw.trans hrw.symm) rfl)
  refine ⟨isBool_iff.mpr ⟨ha.wellTyped, ha.getWidth.trans hlw⟩, ?_⟩
  obtain ⟨x, hx⟩ := Expr.eval_bool hlt hlw σ
  obtain ⟨y, hy⟩ := Expr.eval_bool hrt hrw σ
  rw [Holds, Holds, Holds, ha.eval, Expr.eval_binary, hx, hy]
  cases x <;> cases y <;> decide

/-- A boolean node written with the right operand negated. -/
theorem agrees_neg_right {k op : BinaryKind} {create : Expr → Expr → Expr}
    (hcreate : ∀ {l r}, (Expr.binary op l r).wellTyped = true → Agrees (.binary op l r) (create l r))
    (h : (Expr.binary k l r).wellTyped = true) (hw : l.getWidth = 1) (hop : op.notOnBool = false)
    (htable : ∀ x y, op.apply (APInt.ofBool x) (APInt.ofBool !y) =
      k.apply (APInt.ofBool x) (APInt.ofBool y)) :
    Agrees (.binary k l r) (create l r.createIsZero) := by
  obtain ⟨hl, hr, hlr⟩ := Expr.wellTyped_operands h
  have hwr : r.getWidth = 1 := hlr.symm.trans hw
  obtain ⟨hz, hzw, hzv⟩ := Expr.createIsZero_bool hr hwr
  have ht : (Expr.binary op l r.createIsZero).wellTyped = true :=
    Expr.wellTyped_binary hl hz (hw.trans hzw.symm) hop
  refine Agrees.trans ⟨ht, ?_, fun σ => ?_⟩ (hcreate ht)
  · simp [Expr.getWidth, hw, Width.Bool]
  · obtain ⟨x, hx⟩ := Expr.eval_bool hl hw σ
    obtain ⟨y, hy⟩ := Expr.eval_bool hr hwr σ
    rw [Expr.eval_binary, Expr.eval_binary, hx, hzv σ y hy, htable, hy]

/-- A boolean node written with the left operand negated. -/
theorem agrees_neg_left {k op : BinaryKind} {create : Expr → Expr → Expr}
    (hcreate : ∀ {l r}, (Expr.binary op l r).wellTyped = true → Agrees (.binary op l r) (create l r))
    (h : (Expr.binary k l r).wellTyped = true) (hw : l.getWidth = 1) (hop : op.notOnBool = false)
    (htable : ∀ x y, op.apply (APInt.ofBool !x) (APInt.ofBool y) =
      k.apply (APInt.ofBool x) (APInt.ofBool y)) :
    Agrees (.binary k l r) (create l.createIsZero r) := by
  obtain ⟨hl, hr, hlr⟩ := Expr.wellTyped_operands h
  have hwr : r.getWidth = 1 := hlr.symm.trans hw
  obtain ⟨hz, hzw, hzv⟩ := Expr.createIsZero_bool hl hw
  have ht : (Expr.binary op l.createIsZero r).wellTyped = true :=
    Expr.wellTyped_binary hz hr (hzw.trans hwr.symm) hop
  refine Agrees.trans ⟨ht, ?_, fun σ => ?_⟩ (hcreate ht)
  · simp [Expr.getWidth, hw, hzw, Width.Bool]
  · obtain ⟨x, hx⟩ := Expr.eval_bool hl hw σ
    obtain ⟨y, hy⟩ := Expr.eval_bool hr hwr σ
    rw [Expr.eval_binary, Expr.eval_binary, hzv σ x hx, hy, htable, hx]

theorem ShlExpr.create_agrees (h : (Expr.binary .Shl l r).wellTyped = true) :
    Agrees (.binary .Shl l r) (ShlExpr.create l r) :=
  plainCreate_agrees h fun hw => agrees_neg_right AndExpr.create_agrees h hw rfl (by decide)

theorem LShrExpr.create_agrees (h : (Expr.binary .LShr l r).wellTyped = true) :
    Agrees (.binary .LShr l r) (LShrExpr.create l r) :=
  plainCreate_agrees h fun hw => agrees_neg_right AndExpr.create_agrees h hw rfl (by decide)

theorem AShrExpr.create_agrees (h : (Expr.binary .AShr l r).wellTyped = true) :
    Agrees (.binary .AShr l r) (AShrExpr.create l r) := by
  refine plainCreate_agrees h fun hw => ?_
  simp [Expr.wellTyped, BinaryKind.notOnBool, Width.Bool, hw] at h

theorem UltExpr.create_agrees (h : (Expr.binary .Ult l r).wellTyped = true) :
    Agrees (.binary .Ult l r) (UltExpr.create l r) :=
  plainCreate_agrees h fun hw => agrees_neg_left AndExpr.create_agrees h hw rfl (by decide)

theorem UleExpr.create_agrees (h : (Expr.binary .Ule l r).wellTyped = true) :
    Agrees (.binary .Ule l r) (UleExpr.create l r) :=
  plainCreate_agrees h fun hw => agrees_neg_left OrExpr.create_agrees h hw rfl (by decide)

theorem SltExpr.create_agrees (h : (Expr.binary .Slt l r).wellTyped = true) :
    Agrees (.binary .Slt l r) (SltExpr.create l r) :=
  plainCreate_agrees h fun hw => agrees_neg_right AndExpr.create_agrees h hw rfl (by decide)

theorem SleExpr.create_agrees (h : (Expr.binary .Sle l r).wellTyped = true) :
    Agrees (.binary .Sle l r) (SleExpr.create l r) :=
  plainCreate_agrees h fun hw => agrees_neg_right OrExpr.create_agrees h hw rfl (by decide)

theorem NeExpr.create_agrees (h : (Expr.binary .Ne l r).wellTyped = true) :
    Agrees (.binary .Ne l r) (NeExpr.create l r) := by
  obtain ⟨hl, hr, hw⟩ := Expr.wellTyped_operands h
  have he : (Expr.binary .Eq l r).wellTyped = true := Expr.wellTyped_binary hl hr hw rfl
  have hc := EqExpr.create_agrees he
  have ht : (Expr.binary .Eq (.alloc 0 Width.Bool) (EqExpr.create l r)).wellTyped = true :=
    Expr.wellTyped_binary rfl hc.wellTyped hc.getWidth.symm rfl
  refine Agrees.trans ⟨ht, rfl, fun σ => ?_⟩ (EqExpr.create_agrees ht)
  obtain ⟨b, hb⟩ := Expr.eval_bool he rfl σ
  rw [Expr.eval_eq ht, hc.eval, hb, Expr.eval_alloc]
  have hne : (Expr.binary .Ne l r).eval σ = (APInt.ofBool b).not := by rw [← hb]; rfl
  rw [hne]
  cases b <;> decide

/-- The comparisons written with their operands exchanged. -/
theorem agrees_swap {k k' : BinaryKind} {create : Expr → Expr → Expr}
    (hcreate : ∀ {l r}, (Expr.binary k' l r).wellTyped = true → Agrees (.binary k' l r) (create l r))
    (h : (Expr.binary k l r).wellTyped = true) (hk : k.isCmp = true) (hk' : k'.isCmp = true)
    (hd : k'.notOnBool = false) (hswap : ∀ a b, k'.apply b a = k.apply a b) :
    Agrees (.binary k l r) (create r l) := by
  obtain ⟨hl, hr, hw⟩ := Expr.wellTyped_operands h
  have ht : (Expr.binary k' r l).wellTyped = true := Expr.wellTyped_binary hr hl hw.symm hd
  refine Agrees.trans ⟨ht, ?_, fun σ => hswap _ _⟩ (hcreate ht)
  simp [Expr.getWidth, hk, hk']

/-- A constructor stops at the constant zero as the divisor, and nowhere else. -/
theorem BinaryExpr.create_ok (k : BinaryKind) (l r : Expr)
    (h : k.isDivision = true → ∀ c, r = .constant c → c.isZero = false) :
    ∃ e, BinaryExpr.create k l r = .ok e := by
  have hdiv : k.isDivision = true → ∀ bool, ∃ e, divCreate k bool l r = .ok e := by
    intro hk bool
    unfold divCreate
    split
    next cl cr => exact ⟨_, by rw [h hk cr rfl]; rfl⟩
    next => exact ⟨_, rfl⟩
  cases k with
  | UDiv | SDiv | URem | SRem => exact hdiv rfl _
  | _ => exact ⟨_, rfl⟩

/-- Every binary constructor that returns gives a stand-in for its plain node. -/
theorem BinaryExpr.create_agrees {k : BinaryKind} {e : Expr}
    (h : (Expr.binary k l r).wellTyped = true) (he : BinaryExpr.create k l r = .ok e) :
    Agrees (.binary k l r) e := by
  cases k with
  | UDiv | SDiv | URem | SRem => exact divCreate_agrees rfl h he
  | Add => cases he; exact AddExpr.create_agrees l r ⟨h, rfl⟩
  | Sub => cases he; exact SubExpr.create_agrees l r ⟨h, rfl⟩
  | Mul => cases he; exact MulExpr.create_agrees h
  | And => cases he; exact AndExpr.create_agrees h
  | Or => cases he; exact OrExpr.create_agrees h
  | Xor => cases he; exact XorExpr.create_agrees h
  | Shl => cases he; exact ShlExpr.create_agrees h
  | LShr => cases he; exact LShrExpr.create_agrees h
  | AShr => cases he; exact AShrExpr.create_agrees h
  | Eq => cases he; exact EqExpr.create_agrees h
  | Ne => cases he; exact NeExpr.create_agrees h
  | Ult => cases he; exact UltExpr.create_agrees h
  | Ule => cases he; exact UleExpr.create_agrees h
  | Slt => cases he; exact SltExpr.create_agrees h
  | Sle => cases he; exact SleExpr.create_agrees h
  | Ugt => cases he; exact agrees_swap UltExpr.create_agrees h rfl rfl rfl fun _ _ => rfl
  | Uge => cases he; exact agrees_swap UleExpr.create_agrees h rfl rfl rfl fun _ _ => rfl
  | Sgt => cases he; exact agrees_swap SltExpr.create_agrees h rfl rfl rfl fun _ _ => rfl
  | Sge => cases he; exact agrees_swap SleExpr.create_agrees h rfl rfl rfl fun _ _ => rfl

end Binary

section Read

variable {ul : UpdateList} {index : Expr}

/-- A comparison that folds is decided the same way under every assignment. -/
theorem EqExpr.create_constant {l r : Expr} {c : APInt}
    (h : (Expr.binary .Eq l r).wellTyped = true) (hc : EqExpr.create l r = .constant c)
    (σ : Assignment) : l.eval σ = r.eval σ ↔ c.isTrue = true := by
  have ha := (EqExpr.create_agrees h).eval σ
  rw [hc, Expr.eval_eq h, Expr.eval_constant] at ha
  rw [ha, APInt.isTrue_ofBool, decide_eq_true_eq]

/-- What the walk over the update list found out about the cell read. -/
theorem ReadExpr.scan_spec (hi : index.wellTyped = true) (hw : index.getWidth = Width.Int32)
    (hul : ul.wellTyped = true) :
    match ReadExpr.scan index ul with
    | .inl v => v.wellTyped = true ∧ v.getWidth = Width.Int8 ∧
        ∀ σ, ul.evalRead σ (index.eval σ) = v.eval σ
    | .inr false => ∀ σ, ul.evalRead σ (index.eval σ) =
        ul.array.initialValue σ (index.eval σ).toNat
    | .inr true => True := by
  fun_induction ReadExpr.scan index ul with
  | case1 => exact fun σ => rfl
  | case2 i v next c hc htrue =>
    simp only [UpdateList.wellTyped, Bool.and_eq_true, beq_iff_eq] at hul
    have he : (Expr.binary .Eq index i).wellTyped = true :=
      Expr.wellTyped_binary hi hul.1.1.1.1 (hw.trans hul.1.2.symm) rfl
    refine ⟨hul.1.1.1.2, hul.2, fun σ => ?_⟩
    rw [UpdateList.evalRead, if_pos ((EqExpr.create_constant he hc σ).mpr htrue).symm]
  | case3 i v next c hc hfalse ih =>
    simp only [UpdateList.wellTyped, Bool.and_eq_true, beq_iff_eq] at hul
    have he : (Expr.binary .Eq index i).wellTyped = true :=
      Expr.wellTyped_binary hi hul.1.1.1.1 (hw.trans hul.1.2.symm) rfl
    have hskip : ∀ σ, (UpdateList.node i v next).evalRead σ (index.eval σ) =
        next.evalRead σ (index.eval σ) := by
      intro σ
      rw [UpdateList.evalRead, if_neg]
      exact fun h => hfalse ((EqExpr.create_constant he hc σ).mp h.symm)
    have ih := ih hul.1.1.2
    split at ih
    · exact ⟨ih.1, ih.2.1, fun σ => (hskip σ).trans (ih.2.2 σ)⟩
    · exact fun σ => (hskip σ).trans (ih σ)
    · trivial
  | case4 => trivial

theorem UpdateList.wellTyped_array : ∀ ul : UpdateList, ul.wellTyped = true → ul.array.wellTyped = true
  | .root _, h => h
  | .node _ _ next, h => by
    simp only [UpdateList.wellTyped, Bool.and_eq_true] at h
    exact next.wellTyped_array h.1.1.2

theorem ReadExpr.create_agrees (h : (Expr.read ul index).wellTyped = true) :
    Agrees (.read ul index) (ReadExpr.create ul index) := by
  have ht := h
  simp only [Expr.wellTyped, Bool.and_eq_true, beq_iff_eq] at ht
  have hspec := ReadExpr.scan_spec ht.1.2 ht.2 ht.1.1
  unfold ReadExpr.create
  split
  next v hv =>
    rw [hv] at hspec
    exact ⟨hspec.1, hspec.2.1, fun σ => (hspec.2.2 σ).symm⟩
  next sw hsw =>
    rw [hsw] at hspec
    split_ifs with hc
    · simp only [Bool.and_eq_true, Bool.not_eq_true'] at hc
      rw [hc.2] at hspec
      split
      next c =>
        split_ifs
        · -- a constant cell: the root's table holds the value read
          have hval : ∀ σ, ul.evalRead σ c =
              ul.array.constantValues[c.toNat]?.getD (APInt.ofNat Width.Int8 0) := by
            intro σ
            have := hspec σ
            rw [Expr.eval_constant] at this
            rw [this, KleeArray.initialValue, if_neg]
            · rfl
            · simpa [KleeArray.isConstantArray] using hc.1
          refine ⟨rfl, ?_, fun σ => (hval σ).symm⟩
          rw [Expr.getWidth_constant, ← hval (fun _ _ => 0)]
          exact ul.width_evalRead _ ht.1.1 c
        · exact .refl h
      next => exact .refl h
    · exact .refl h

end Read

theorem SelectExpr.create_agrees {c t f : Expr} (h : (Expr.select c t f).wellTyped = true) :
    Agrees (.select c t f) (SelectExpr.create c t f) := by
  have ht := h
  simp only [Expr.wellTyped, Bool.and_eq_true, beq_iff_eq] at ht
  obtain ⟨⟨⟨⟨hc, htt⟩, hf⟩, hcw⟩, htf⟩ := ht
  -- a boolean select over `c` is a conjunction or disjunction by its truth table
  have hbool : ∀ (k : BinaryKind) (e : Expr) (u : Expr), t.getWidth = 1 → k.notOnBool = false →
      k.isCmp = false → Operand 1 e → Operand 1 u →
      (∀ σ, k.apply (e.eval σ) (u.eval σ) = (Expr.select c t f).eval σ) →
      Agrees (.select c t f) (.binary k e u) := by
    intro k e u hw hk hcmp he hu hev
    refine ⟨Expr.wellTyped_binary he.1 hu.1 (he.2.trans hu.2.symm) hk, ?_, hev⟩
    simp [Expr.getWidth, hcmp, he.2, hw]
  unfold SelectExpr.create
  split
  next cc =>
    split_ifs with h1
    · exact ⟨htt, rfl, fun σ => by simp [Expr.eval, h1]⟩
    · exact ⟨hf, htf.symm, fun σ => by simp [Expr.eval, h1]⟩
  split_ifs with h1 h2
  · subst h1
    exact ⟨htt, rfl, fun σ => by simp [Expr.eval]⟩
  · have hfw : f.getWidth = 1 := htf.symm.trans h2
    obtain ⟨hz, hzw, hzv⟩ := Expr.createIsZero_bool hc hcw
    split
    next ct =>
      rcases ct.bool_cases h2 with rfl | rfl
      · have ha := hbool .Or c f h2 rfl rfl ⟨hc, hcw⟩ ⟨hf, hfw⟩ fun σ => by
          obtain ⟨x, hx⟩ := Expr.eval_bool hc hcw σ
          obtain ⟨y, hy⟩ := Expr.eval_bool hf hfw σ
          simp only [Expr.eval, hx, hy]
          cases x <;> cases y <;> decide
        exact ha.trans (OrExpr.create_agrees ha.wellTyped)
      · have ha := hbool .And c.createIsZero f h2 rfl rfl ⟨hz, hzw⟩ ⟨hf, hfw⟩ fun σ => by
          obtain ⟨x, hx⟩ := Expr.eval_bool hc hcw σ
          obtain ⟨y, hy⟩ := Expr.eval_bool hf hfw σ
          simp only [Expr.eval, hx, hzv σ x hx, hy]
          cases x <;> cases y <;> decide
        exact ha.trans (AndExpr.create_agrees ha.wellTyped)
    next cf _ =>
      rcases cf.bool_cases hfw with rfl | rfl
      · have ha := hbool .Or c.createIsZero t h2 rfl rfl ⟨hz, hzw⟩ ⟨htt, h2⟩ fun σ => by
          obtain ⟨x, hx⟩ := Expr.eval_bool hc hcw σ
          obtain ⟨y, hy⟩ := Expr.eval_bool htt h2 σ
          simp only [Expr.eval, hx, hzv σ x hx, hy]
          cases x <;> cases y <;> decide
        exact ha.trans (OrExpr.create_agrees ha.wellTyped)
      · have ha := hbool .And c t h2 rfl rfl ⟨hc, hcw⟩ ⟨htt, h2⟩ fun σ => by
          obtain ⟨x, hx⟩ := Expr.eval_bool hc hcw σ
          obtain ⟨y, hy⟩ := Expr.eval_bool htt h2 σ
          simp only [Expr.eval, hx, hy]
          cases x <;> cases y <;> decide
        exact ha.trans (AndExpr.create_agrees ha.wellTyped)
    next => exact .refl h
  · exact .refl h

section Window

variable {e l r : Expr} {off w : ℕ}

theorem Expr.wellTyped_extract : (Expr.extract e off w).wellTyped = true ↔
    e.wellTyped = true ∧ 0 < w ∧ off + w ≤ e.getWidth := by
  simp [Expr.wellTyped, and_assoc]

theorem Expr.wellTyped_concat : (Expr.concat l r).wellTyped = true ↔
    l.wellTyped = true ∧ r.wellTyped = true := by
  simp [Expr.wellTyped]

/-- Concatenation keeps the meaning when the extract constructor it merges with does. -/
theorem ConcatExpr.merge_agrees {extract : Expr → ℕ → ℕ → Expr}
    (hext : ∀ e off w, (Expr.extract e off w).wellTyped = true →
      Agrees (.extract e off w) (extract e off w))
    (h : (Expr.concat l r).wellTyped = true) :
    Agrees (.concat l r) (ConcatExpr.merge extract l r) := by
  unfold ConcatExpr.merge
  split
  · exact ⟨rfl, rfl, fun σ => rfl⟩
  next e o w e' o' w' =>
    split_ifs with hadj
    · obtain ⟨rfl, rfl⟩ := hadj
      simp only [Expr.wellTyped_concat, Expr.wellTyped_extract] at h
      have ht : (Expr.extract e o' (w + w')).wellTyped = true := by
        rw [Expr.wellTyped_extract]
        exact ⟨h.1.1, by omega, by omega⟩
      refine Agrees.trans ⟨ht, rfl, fun σ => ?_⟩ (hext _ _ _ ht)
      simp only [Expr.eval, APInt.concat_extract]
    · exact .refl h
  · exact .refl h

theorem ExtractExpr.createF_agrees (n : ℕ) (e : Expr) (off w : ℕ)
    (h : (Expr.extract e off w).wellTyped = true) :
    Agrees (.extract e off w) (ExtractExpr.createF n e off w) := by
  induction n generalizing e off w with
  | zero => exact .refl h
  | succ n ih =>
    obtain ⟨he, hpos, hle⟩ := Expr.wellTyped_extract.mp h
    unfold ExtractExpr.createF
    split_ifs with hw
    · obtain rfl : off = 0 := by omega
      refine ⟨he, hw.symm, fun σ => ?_⟩
      rw [Expr.eval, APInt.extract_self _ (hw.trans (e.width_eval σ he).symm)]
    split
    next c =>
      refine ⟨rfl, rfl, fun σ => ?_⟩
      simp only [Expr.eval, ConstantExpr.Extract, APInt.extract]
      rw [APInt.sshiftRight_setWidth c.val hle]
    next l r =>
      obtain ⟨hl, hr⟩ := Expr.wellTyped_concat.mp he
      simp only [Expr.getWidth] at hle
      have hrw := fun σ => r.width_eval σ hr
      split_ifs with h1 h2
      · have ht : (Expr.extract l (off - r.getWidth) w).wellTyped = true := by
          rw [Expr.wellTyped_extract]; exact ⟨hl, hpos, by omega⟩
        refine Agrees.trans ⟨ht, rfl, fun σ => ?_⟩ (ih _ _ _ ht)
        simp only [Expr.eval]
        rw [APInt.extract_concat_left _ _ (by rw [hrw]; exact h1), hrw]
      · have ht : (Expr.extract r off w).wellTyped = true := by
          rw [Expr.wellTyped_extract]; exact ⟨hr, hpos, h2⟩
        refine Agrees.trans ⟨ht, rfl, fun σ => ?_⟩ (ih _ _ _ ht)
        simp only [Expr.eval]
        rw [APInt.extract_concat_right _ _ (by rw [hrw]; exact h2)]
      · have htl : (Expr.extract l 0 (w + off - r.getWidth)).wellTyped = true := by
          rw [Expr.wellTyped_extract]; exact ⟨hl, by omega, by omega⟩
        have htr : (Expr.extract r off (r.getWidth - off)).wellTyped = true := by
          rw [Expr.wellTyped_extract]; exact ⟨hr, by omega, by omega⟩
        have hel := ih _ _ _ htl
        have her := ih _ _ _ htr
        have ht := Expr.wellTyped_concat.mpr ⟨hel.wellTyped, her.wellTyped⟩
        refine Agrees.trans ⟨ht, ?_, fun σ => ?_⟩ (ConcatExpr.merge_agrees ih ht)
        · simp only [Expr.getWidth, hel.getWidth, her.getWidth]
          omega
        · simp only [Expr.eval, hel.eval, her.eval]
          rw [APInt.extract_concat_split _ _ (by rw [hrw]; omega) (by rw [hrw]; omega), hrw]
    next => exact .refl h

theorem ExtractExpr.create_agrees (h : (Expr.extract e off w).wellTyped = true) :
    Agrees (.extract e off w) (ExtractExpr.create e off w) :=
  ExtractExpr.createF_agrees _ e off w h

theorem ConcatExpr.create_agrees (h : (Expr.concat l r).wellTyped = true) :
    Agrees (.concat l r) (ConcatExpr.create l r) :=
  ConcatExpr.merge_agrees (fun _ _ _ => ExtractExpr.create_agrees) h

theorem NotExpr.create_agrees (h : (Expr.not e).wellTyped = true) :
    Agrees (.not e) (NotExpr.create e) := by
  cases e with
  | constant c => exact ⟨rfl, rfl, fun σ => rfl⟩
  | _ => exact .refl h

theorem CastKind.apply_self (k : CastKind) (a : APInt) : k.apply a a.width = a := by
  cases k <;> simp [CastKind.apply, APInt.zext, APInt.sext]

theorem CastExpr.create_agrees {k : CastKind} (h : (Expr.cast k e w).wellTyped = true) :
    Agrees (.cast k e w) (CastExpr.create k e w) := by
  have ht := h
  simp only [Expr.wellTyped, Bool.and_eq_true, decide_eq_true_eq] at ht
  unfold CastExpr.create
  split_ifs with h1 h2
  · refine ⟨ht.1, h1.symm, fun σ => ?_⟩
    rw [Expr.eval, h1, ← e.width_eval σ ht.1, k.apply_self]
  · omega
  · split
    next c => exact ⟨rfl, k.width_apply c w, fun σ => rfl⟩
    next => exact .refl h

end Window

end TaseVerifier
