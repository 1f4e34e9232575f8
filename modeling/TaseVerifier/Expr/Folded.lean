import TaseVerifier.Expr.CreateSound

/-! The first rule of the canonical form, that no expression has all constant arguments,
at sums and differences. It keeps a sum of a symbolic operand and a constant symbolic:
the constructors regroup constants on the left and would fold such an operand away. -/

namespace TaseVerifier

/-- No sum or difference has two constant operands. Reads are not looked into. -/
def Expr.folded : Expr → Bool
  | .constant _ => true
  | .read _ _ => true
  | .notOptimized src => src.folded
  | .select c t f => c.folded && t.folded && f.folded
  | .concat l r => l.folded && r.folded
  | .extract e _ _ => e.folded
  | .not e => e.folded
  | .cast _ e _ => e.folded
  | .binary k l r => l.folded && r.folded &&
      !((k == .Add || k == .Sub) && l.isConstant && r.isConstant)

variable {e l r : Expr} {off w : ℕ}

/-! ### Sums with a constant -/

theorem foldConst_symbolic {op : APInt → APInt → APInt} {c : APInt} {rest : Expr}
    (he : e.isConstant = false) (hr : rest.isConstant = false) :
    (foldConst op c e rest).isConstant = false := by
  cases e with
  | constant _ => cases he
  | _ => exact hr

/-- The second operand of a sum or difference whose first operand is constant. -/
theorem Expr.folded_second {k : BinaryKind} {b : APInt} (hk : k = .Add ∨ k = .Sub)
    (h : (Expr.binary k (.constant b) r).folded = true) : r.folded = true ∧ r.isConstant = false := by
  rcases hk with rfl | rfl <;> simpa [Expr.folded, Expr.isConstant] using h

mutual
theorem AddExpr.createPartialR_symbolic (c : APInt) (r : Expr) (hc : c.width ≠ Width.Bool)
    (hf : r.folded = true) (hr : r.isConstant = false) :
    (AddExpr.createPartialR c r).isConstant = false := by
  unfold AddExpr.createPartialR
  rw [if_neg hc]
  split_ifs with hz
  · exact hr
  · split
    next b d =>
      obtain ⟨hd, hd'⟩ := Expr.folded_second (.inl rfl) hf
      exact foldConst_symbolic hd' (AddExpr.createPartialR_symbolic _ d hc hd hd')
    next b d =>
      obtain ⟨hd, hd'⟩ := Expr.folded_second (.inr rfl) hf
      exact foldConst_symbolic hd' (SubExpr.createPartialR_symbolic _ d hc hd hd')
    next => rfl
termination_by sizeOf r
theorem SubExpr.createPartialR_symbolic (c : APInt) (r : Expr) (hc : c.width ≠ Width.Bool)
    (hf : r.folded = true) (hr : r.isConstant = false) :
    (SubExpr.createPartialR c r).isConstant = false := by
  unfold SubExpr.createPartialR
  rw [if_neg hc]
  split
  next b d =>
    obtain ⟨hd, hd'⟩ := Expr.folded_second (.inl rfl) hf
    exact foldConst_symbolic hd' (SubExpr.createPartialR_symbolic _ d hc hd hd')
  next b d =>
    obtain ⟨hd, hd'⟩ := Expr.folded_second (.inr rfl) hf
    exact foldConst_symbolic hd' (AddExpr.createPartialR_symbolic _ d hc hd hd')
  next => rfl
termination_by sizeOf r
end

theorem AddExpr.create_symbolic {c : APInt} (hc : c.width ≠ Width.Bool) (hf : l.folded = true)
    (hl : l.isConstant = false) : (AddExpr.create l (.constant c)).isConstant = false := by
  have h : AddExpr.create l (.constant c) = AddExpr.createPartialR c l := by
    cases l with
    | constant _ => cases hl
    | _ =>
      rw [AddExpr.create]
      · rfl
      · simp
  rw [h]
  exact AddExpr.createPartialR_symbolic c l hc hf hl

/-! ### Extracts -/

theorem ConcatExpr.folded_merge {extract : Expr → ℕ → ℕ → Expr}
    (hext : ∀ e off w, e.folded = true → (extract e off w).folded = true)
    (hl : l.folded = true) (hr : r.folded = true) : (ConcatExpr.merge extract l r).folded = true := by
  unfold ConcatExpr.merge
  split
  · rfl
  · split_ifs
    · exact hext _ _ _ hl
    · simpa [Expr.folded] using ⟨hl, hr⟩
  · simp [Expr.folded, hl, hr]

theorem ExtractExpr.folded_createF (n : ℕ) (e : Expr) (off w : ℕ) (h : e.folded = true) :
    (ExtractExpr.createF n e off w).folded = true := by
  induction n generalizing e off w with
  | zero => exact h
  | succ n ih =>
    unfold ExtractExpr.createF
    split_ifs with hw
    · exact h
    split
    · rfl
    next l r =>
      simp only [Expr.folded, Bool.and_eq_true] at h
      split_ifs
      · exact ih _ _ _ h.1
      · exact ih _ _ _ h.2
      · exact ConcatExpr.folded_merge ih (ih _ _ _ h.1) (ih _ _ _ h.2)
    · exact h

theorem ZExtExpr.folded_create (h : e.folded = true) : (ZExtExpr.create e w).folded = true := by
  unfold ZExtExpr.create CastExpr.create
  split_ifs
  · exact h
  · exact ExtractExpr.folded_createF _ e 0 w h
  · cases e <;> exact h

end TaseVerifier
