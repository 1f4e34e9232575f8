import TaseVerifier.Expr.Create

/-! When one expression may stand for another: both are well typed, of one width
and equal under every assignment. The simplifying constructors return such a
stand-in for the plain node; here for conjunction and disjunction. -/

namespace TaseVerifier

/-- `e'` may stand for `e`. -/
structure Agrees (e e' : Expr) : Prop where
  wellTyped : e'.wellTyped = true
  getWidth : e'.getWidth = e.getWidth
  eval : ∀ σ, e'.eval σ = e.eval σ

theorem Agrees.refl {e : Expr} (h : e.wellTyped = true) : Agrees e e := ⟨h, rfl, fun _ => rfl⟩

theorem Agrees.trans {a b c : Expr} (h : Agrees a b) (h' : Agrees b c) : Agrees a c :=
  ⟨h'.wellTyped, h'.getWidth.trans h.getWidth, fun σ => (h'.eval σ).trans (h.eval σ)⟩

/-- The value of a well-typed expression as a bit vector of its width. -/
theorem Expr.eval_mk {e : Expr} (h : e.wellTyped = true) {w : ℕ} (hw : e.getWidth = w)
    (σ : Assignment) : ∃ x : BitVec w, e.eval σ = ⟨w, x⟩ :=
  (e.eval σ).ofWidth ((e.width_eval σ h).trans hw)

/-- The value of a boolean expression. -/
theorem Expr.eval_bool {e : Expr} (h : e.wellTyped = true) (hw : e.getWidth = 1)
    (σ : Assignment) : ∃ b, e.eval σ = APInt.ofBool b := by
  rcases (e.eval σ).bool_cases ((e.width_eval σ h).trans hw) with h | h
  · exact ⟨true, h⟩
  · exact ⟨false, h⟩

theorem Expr.wellTyped_binary {k : BinaryKind} {l r : Expr} (hl : l.wellTyped = true)
    (hr : r.wellTyped = true) (hw : l.getWidth = r.getWidth) (hk : k.notOnBool = false) :
    (Expr.binary k l r).wellTyped = true := by
  simp [Expr.wellTyped, hl, hr, hw, hk]

/-- What the constructors may assume of the operands of a binary node. -/
theorem Expr.wellTyped_operands {k : BinaryKind} {l r : Expr}
    (h : (Expr.binary k l r).wellTyped = true) :
    l.wellTyped = true ∧ r.wellTyped = true ∧ l.getWidth = r.getWidth := by
  simp only [Expr.wellTyped, Bool.and_eq_true, beq_iff_eq] at h
  exact ⟨h.1.1.1, h.1.1.2, h.1.2⟩

/-- Operands that agree pairwise may be exchanged. -/
theorem Agrees.binary {k : BinaryKind} {l l' r r' : Expr} (h : (Expr.binary k l r).wellTyped = true)
    (hl : Agrees l l') (hr : Agrees r r') : Agrees (.binary k l r) (.binary k l' r') := by
  refine ⟨?_, ?_, fun σ => ?_⟩
  · simp only [Expr.wellTyped, Bool.and_eq_true, beq_iff_eq] at h ⊢
    refine ⟨⟨⟨hl.wellTyped, hr.wellTyped⟩, ?_⟩, ?_⟩
    · rw [hl.getWidth, hr.getWidth, h.1.2]
    · rw [hl.getWidth]; exact h.2
  · simp only [Expr.getWidth, hl.getWidth]
  · simp only [Expr.eval, hl.eval, hr.eval]

@[simp] theorem Expr.wellTyped_constant (c : APInt) : (Expr.constant c).wellTyped = true := rfl
@[simp] theorem Expr.getWidth_constant (c : APInt) : (Expr.constant c).getWidth = c.width := rfl
@[simp] theorem Expr.eval_constant (σ : Assignment) (c : APInt) : (Expr.constant c).eval σ = c := rfl
@[simp] theorem Expr.wellTyped_alloc (v w : ℕ) : (Expr.alloc v w).wellTyped = true := rfl
@[simp] theorem Expr.getWidth_alloc (v w : ℕ) : (Expr.alloc v w).getWidth = w := rfl
@[simp] theorem Expr.eval_alloc (σ : Assignment) (v w : ℕ) :
    (Expr.alloc v w).eval σ = APInt.ofNat w v := rfl

theorem Expr.eval_binary (σ : Assignment) (k : BinaryKind) (l r : Expr) :
    (Expr.binary k l r).eval σ = k.apply (l.eval σ) (r.eval σ) := rfl

/-- A node over two constants folds to the constant of its operation. -/
theorem agrees_fold (k : BinaryKind) (a b : APInt) :
    Agrees (.binary k (.constant a) (.constant b)) (.constant (k.apply a b)) := by
  refine ⟨rfl, ?_, fun σ => rfl⟩
  simp [Expr.getWidth, k.width_apply, Width.Bool]

attribute [local simp] BinaryKind.apply

section And

variable {l r : Expr}

theorem AndExpr.createPartial_agrees {c : APInt} (hl : l.wellTyped = true)
    (hw : l.getWidth = c.width) :
    Agrees (.binary .And l (.constant c)) (AndExpr.createPartial l c) := by
  have hb : (Expr.binary .And l (.constant c)).wellTyped = true :=
    Expr.wellTyped_binary hl rfl hw rfl
  obtain ⟨w, y⟩ := c
  unfold AndExpr.createPartial
  split_ifs with h1 h2
  · refine ⟨hl, rfl, fun σ => ?_⟩
    obtain ⟨x, hx⟩ := Expr.eval_mk hl hw σ
    simp [Expr.eval, hx, (APInt.isAllOnes_mk y).mp h1]
  · refine ⟨rfl, hw.symm, fun σ => ?_⟩
    obtain ⟨x, hx⟩ := Expr.eval_mk hl hw σ
    simp [Expr.eval, hx, (APInt.isZero_mk y).mp h2]
  · exact .refl hb

/-- The commutative operations may exchange their operands. -/
theorem agrees_comm {k : BinaryKind} (h : (Expr.binary k l r).wellTyped = true)
    (hk : k.notOnBool = false)
    (hc : ∀ (w : ℕ) (x y : BitVec w), k.apply ⟨w, x⟩ ⟨w, y⟩ = k.apply ⟨w, y⟩ ⟨w, x⟩) :
    Agrees (.binary k l r) (.binary k r l) := by
  obtain ⟨hl, hr, hw⟩ := Expr.wellTyped_operands h
  refine ⟨Expr.wellTyped_binary hr hl hw.symm hk, ?_, fun σ => ?_⟩
  · simp [Expr.getWidth, hw]
  · obtain ⟨x, hx⟩ := Expr.eval_mk hl hw σ
    obtain ⟨y, hy⟩ := Expr.eval_mk hr rfl σ
    simp only [Expr.eval, hx, hy, hc]

theorem AndExpr.create_agrees (h : (Expr.binary .And l r).wellTyped = true) :
    Agrees (.binary .And l r) (AndExpr.create l r) := by
  obtain ⟨hl, hr, hw⟩ := Expr.wellTyped_operands h
  unfold AndExpr.create
  split
  · exact agrees_fold ..
  · refine (agrees_comm h rfl fun w x y => ?_).trans (AndExpr.createPartial_agrees hr hw.symm)
    simp [BitVec.and_comm]
  · exact AndExpr.createPartial_agrees hl hw
  · exact .refl h

end And

section Or

variable {l r : Expr}

theorem OrExpr.createPartial_agrees {c : APInt} (hl : l.wellTyped = true)
    (hw : l.getWidth = c.width) :
    Agrees (.binary .Or l (.constant c)) (OrExpr.createPartial l c) := by
  have hb : (Expr.binary .Or l (.constant c)).wellTyped = true :=
    Expr.wellTyped_binary hl rfl hw rfl
  obtain ⟨w, y⟩ := c
  unfold OrExpr.createPartial
  split_ifs with h1 h2
  · refine ⟨rfl, hw.symm, fun σ => ?_⟩
    obtain ⟨x, hx⟩ := Expr.eval_mk hl hw σ
    simp [Expr.eval, hx, (APInt.isAllOnes_mk y).mp h1]
  · refine ⟨hl, rfl, fun σ => ?_⟩
    obtain ⟨x, hx⟩ := Expr.eval_mk hl hw σ
    simp [Expr.eval, hx, (APInt.isZero_mk y).mp h2]
  · exact .refl hb

theorem OrExpr.create_agrees (h : (Expr.binary .Or l r).wellTyped = true) :
    Agrees (.binary .Or l r) (OrExpr.create l r) := by
  obtain ⟨hl, hr, hw⟩ := Expr.wellTyped_operands h
  unfold OrExpr.create
  split
  · exact agrees_fold ..
  · refine (agrees_comm h rfl fun w x y => ?_).trans (OrExpr.createPartial_agrees hr hw.symm)
    simp [BitVec.or_comm]
  · exact OrExpr.createPartial_agrees hl hw
  · exact .refl h

end Or

end TaseVerifier
