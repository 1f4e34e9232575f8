import TaseVerifier.Expr.CreateSound

/-! Visitors rebuild a node from the results for its children. If each result may stand
for its child under the assignments of interest, the rebuilt node may stand for the
node under these assignments. -/

namespace TaseVerifier

/-- `e'` may stand for `e` under the assignments that meet `H`. -/
structure AgreesOn (H : Assignment → Prop) (e e' : Expr) : Prop where
  wellTyped : e'.wellTyped = true
  getWidth : e'.getWidth = e.getWidth
  eval : ∀ σ, H σ → e'.eval σ = e.eval σ

namespace AgreesOn

variable {H : Assignment → Prop}

theorem refl {e : Expr} (h : e.wellTyped = true) : AgreesOn H e e := ⟨h, rfl, fun _ _ => rfl⟩

theorem trans_agrees {e e' e'' : Expr} (h : AgreesOn H e e') (h' : Agrees e' e'') :
    AgreesOn H e e'' :=
  ⟨h'.wellTyped, h'.getWidth.trans h.getWidth, fun σ hσ => (h'.eval σ).trans (h.eval σ hσ)⟩

theorem trans {e e' e'' : Expr} (h : AgreesOn H e e') (h' : AgreesOn H e' e'') :
    AgreesOn H e e'' :=
  ⟨h'.wellTyped, h'.getWidth.trans h.getWidth, fun σ hσ => (h'.eval σ hσ).trans (h.eval σ hσ)⟩

theorem of_agrees {e e' : Expr} (h : Agrees e e') : AgreesOn H e e' :=
  ⟨h.wellTyped, h.getWidth, fun σ _ => h.eval σ⟩

theorem read {u : UpdateList} {i i' : Expr} (h : (Expr.read u i).wellTyped = true)
    (hi : AgreesOn H i i') : AgreesOn H (.read u i) (ReadExpr.create u i') := by
  simp only [Expr.wellTyped, Bool.and_eq_true, beq_iff_eq] at h
  have ht : (Expr.read u i').wellTyped = true := by
    simp [Expr.wellTyped, h.1.1, hi.wellTyped, hi.getWidth, h.2]
  exact trans_agrees ⟨ht, rfl, fun σ hσ => by simp only [Expr.eval, hi.eval σ hσ]⟩
    (ReadExpr.create_agrees ht)

theorem select {c c' t t' f f' : Expr} (h : (Expr.select c t f).wellTyped = true)
    (hc : AgreesOn H c c') (ht : AgreesOn H t t') (hf : AgreesOn H f f') :
    AgreesOn H (.select c t f) (SelectExpr.create c' t' f') := by
  simp only [Expr.wellTyped, Bool.and_eq_true, beq_iff_eq] at h
  have hs : (Expr.select c' t' f').wellTyped = true := by
    simp [Expr.wellTyped, hc.wellTyped, ht.wellTyped, hf.wellTyped, hc.getWidth, ht.getWidth,
      hf.getWidth, h.1.2, h.2]
  exact trans_agrees ⟨hs, ht.getWidth, fun σ hσ => by
    simp only [Expr.eval, hc.eval σ hσ, ht.eval σ hσ, hf.eval σ hσ]⟩ (SelectExpr.create_agrees hs)

theorem concat {l l' r r' : Expr} (hl : AgreesOn H l l') (hr : AgreesOn H r r') :
    AgreesOn H (.concat l r) (ConcatExpr.create l' r') := by
  have ht := Expr.wellTyped_concat.mpr ⟨hl.wellTyped, hr.wellTyped⟩
  refine trans_agrees ⟨ht, ?_, fun σ hσ => ?_⟩ (ConcatExpr.create_agrees ht)
  · simp only [Expr.getWidth, hl.getWidth, hr.getWidth]
  · simp only [Expr.eval, hl.eval σ hσ, hr.eval σ hσ]

theorem extract {e e' : Expr} {off w : ℕ} (h : (Expr.extract e off w).wellTyped = true)
    (he : AgreesOn H e e') : AgreesOn H (.extract e off w) (ExtractExpr.create e' off w) := by
  obtain ⟨-, hpos, hle⟩ := Expr.wellTyped_extract.mp h
  have ht : (Expr.extract e' off w).wellTyped = true :=
    Expr.wellTyped_extract.mpr ⟨he.wellTyped, hpos, by rw [he.getWidth]; exact hle⟩
  exact trans_agrees ⟨ht, rfl, fun σ hσ => by simp only [Expr.eval, he.eval σ hσ]⟩
    (ExtractExpr.create_agrees ht)

theorem not {e e' : Expr} (he : AgreesOn H e e') : AgreesOn H (.not e) (NotExpr.create e') := by
  have ht : (Expr.not e').wellTyped = true := he.wellTyped
  exact trans_agrees ⟨ht, he.getWidth, fun σ hσ => by simp only [Expr.eval, he.eval σ hσ]⟩
    (NotExpr.create_agrees ht)

theorem cast {k : CastKind} {e e' : Expr} {w : ℕ} (h : (Expr.cast k e w).wellTyped = true)
    (he : AgreesOn H e e') : AgreesOn H (.cast k e w) (CastExpr.create k e' w) := by
  simp only [Expr.wellTyped, Bool.and_eq_true, decide_eq_true_eq] at h
  have ht : (Expr.cast k e' w).wellTyped = true := by
    simp [Expr.wellTyped, he.wellTyped, he.getWidth, h.2]
  exact trans_agrees ⟨ht, rfl, fun σ hσ => by simp only [Expr.eval, he.eval σ hσ]⟩
    (CastExpr.create_agrees ht)

theorem binary {k : BinaryKind} {l l' r r' e : Expr} (h : (Expr.binary k l r).wellTyped = true)
    (hl : AgreesOn H l l') (hr : AgreesOn H r r') (he : BinaryExpr.create k l' r' = .ok e) :
    AgreesOn H (.binary k l r) e := by
  simp only [Expr.wellTyped, Bool.and_eq_true, beq_iff_eq] at h
  obtain ⟨⟨-, hlr⟩, hdiv⟩ := h
  have ht : (Expr.binary k l' r').wellTyped = true := by
    simp only [Expr.wellTyped, hl.wellTyped, hr.wellTyped, hl.getWidth, hr.getWidth, hlr,
      Bool.and_self, beq_self_eq_true]
    rw [← hlr]
    exact hdiv
  refine trans_agrees ⟨ht, ?_, fun σ hσ => ?_⟩ (BinaryExpr.create_agrees ht he)
  · simp only [Expr.getWidth, hl.getWidth]
  · simp only [Expr.eval, hl.eval σ hσ, hr.eval σ hσ]

end AgreesOn

end TaseVerifier
