import TaseVerifier.Expr.Rebuild

/-! The replacement visitor: one expression is exchanged for another wherever it
occurs, and the nodes above an exchange are rebuilt by the simplifying
constructors. Update lists are not visited, only the index of a read is. The
visitor's table of visited nodes holds its own results and is left out. -/

namespace TaseVerifier

namespace ExprReplaceVisitor

variable (src dst : Expr)

/-- `visitExprPost`, called unless the node was rebuilt to a constant. -/
def visitExprPost (e : Expr) : Expr :=
  if e.isConstant then e else if e = src then dst else e

/-- `visitExpr` with the descent into the children as `doChildren`. -/
def visitExpr (e : Expr) (doChildren : Except Abort Expr) : Except Abort Expr :=
  if e = src then pure dst else visitExprPost src dst <$> doChildren

/-- `visitActual` on a node that is not a constant rebuilds it when a child changed. -/
def visit : Expr → Except Abort Expr
  | .constant c => pure (.constant c)
  | .notOptimized s => visitExpr src dst (.notOptimized s) do
    let s' ← visit s
    pure (if s' = s then .notOptimized s else NotOptimizedExpr.create s')
  | .read u i => visitExpr src dst (.read u i) do
    let i' ← visit i
    pure (if i' = i then .read u i else ReadExpr.create u i')
  | .select c t f => visitExpr src dst (.select c t f) do
    let c' ← visit c
    let t' ← visit t
    let f' ← visit f
    pure (if c' = c ∧ t' = t ∧ f' = f then .select c t f else SelectExpr.create c' t' f')
  | .concat l r => visitExpr src dst (.concat l r) do
    let l' ← visit l
    let r' ← visit r
    pure (if l' = l ∧ r' = r then .concat l r else ConcatExpr.create l' r')
  | .extract e off w => visitExpr src dst (.extract e off w) do
    let e' ← visit e
    pure (if e' = e then .extract e off w else ExtractExpr.create e' off w)
  | .not e => visitExpr src dst (.not e) do
    let e' ← visit e
    pure (if e' = e then .not e else NotExpr.create e')
  | .cast k e w => visitExpr src dst (.cast k e w) do
    let e' ← visit e
    pure (if e' = e then .cast k e w else CastExpr.create k e' w)
  | .binary k l r => visitExpr src dst (.binary k l r) do
    let l' ← visit l
    let r' ← visit r
    if l' = l ∧ r' = r then pure (.binary k l r) else BinaryExpr.create k l' r'

/-- What a visit that returns has done, node by node. -/
inductive Visits : Expr → Expr → Prop
  | same (e : Expr) : Visits e e
  | replaced {e : Expr} : Visits e src → src.isConstant = false → Visits e dst
  | notOptimized {s s' : Expr} : Visits s s' → s' ≠ s →
      Visits (.notOptimized s) (NotOptimizedExpr.create s')
  | read {u : UpdateList} {i i' : Expr} : Visits i i' → i' ≠ i →
      Visits (.read u i) (ReadExpr.create u i')
  | select {c c' t t' f f' : Expr} : Visits c c' → Visits t t' → Visits f f' →
      ¬ (c' = c ∧ t' = t ∧ f' = f) → Visits (.select c t f) (SelectExpr.create c' t' f')
  | concat {l l' r r' : Expr} : Visits l l' → Visits r r' → ¬ (l' = l ∧ r' = r) →
      Visits (.concat l r) (ConcatExpr.create l' r')
  | extract {e e' : Expr} {off w : ℕ} : Visits e e' → e' ≠ e →
      Visits (.extract e off w) (ExtractExpr.create e' off w)
  | not {e e' : Expr} : Visits e e' → e' ≠ e → Visits (.not e) (NotExpr.create e')
  | cast {k : CastKind} {e e' : Expr} {w : ℕ} : Visits e e' → e' ≠ e →
      Visits (.cast k e w) (CastExpr.create k e' w)
  | binary {k : BinaryKind} {l l' r r' e : Expr} : Visits l l' → Visits r r' →
      ¬ (l' = l ∧ r' = r) → BinaryExpr.create k l' r' = .ok e → Visits (.binary k l r) e

variable {src dst}

theorem bind_eq_ok {ε α β : Type} {x : Except ε α} {f : α → Except ε β} {b : β} :
    x >>= f = .ok b ↔ ∃ a, x = .ok a ∧ f a = .ok b := by
  cases x with
  | error e =>
    constructor
    · intro h
      cases h
    · rintro ⟨a, h, -⟩
      cases h
  | ok a =>
    constructor
    · exact fun h => ⟨a, rfl, h⟩
    · rintro ⟨a', h, h'⟩
      cases h
      exact h'

theorem visits_of_visitExpr {e e' : Expr} {doChildren : Except Abort Expr}
    (hc : e.isConstant = false) (h : visitExpr src dst e doChildren = .ok e')
    (hkids : ∀ e₁, doChildren = .ok e₁ → Visits src dst e e₁) : Visits src dst e e' := by
  unfold visitExpr at h
  split_ifs at h with hsrc
  · cases h
    subst hsrc
    exact .replaced (.same e) hc
  · cases hd : doChildren with
    | error a => rw [hd] at h; cases h
    | ok e₁ =>
      rw [hd] at h
      cases h
      have hv := hkids e₁ hd
      unfold visitExprPost
      split_ifs with h1 h2
      · exact hv
      · subst h2
        exact .replaced hv (by simpa using h1)
      · exact hv

theorem visits_of_visit : ∀ {e e' : Expr}, visit src dst e = .ok e' → Visits src dst e e'
  | .constant _, _, h => by cases h; exact .same _
  | .notOptimized s, e', h => by
    refine visits_of_visitExpr rfl h fun e₁ h₁ => ?_
    obtain ⟨s', hs, h₁⟩ := bind_eq_ok.mp h₁
    cases h₁
    split_ifs with hne
    · exact .same _
    · exact .notOptimized (visits_of_visit hs) hne
  | .read u i, e', h => by
    refine visits_of_visitExpr rfl h fun e₁ h₁ => ?_
    obtain ⟨i', hi, h₁⟩ := bind_eq_ok.mp h₁
    cases h₁
    split_ifs with hne
    · exact .same _
    · exact .read (visits_of_visit hi) hne
  | .select c t f, e', h => by
    refine visits_of_visitExpr rfl h fun e₁ h₁ => ?_
    obtain ⟨c', hc, h₁⟩ := bind_eq_ok.mp h₁
    obtain ⟨t', ht, h₁⟩ := bind_eq_ok.mp h₁
    obtain ⟨f', hf, h₁⟩ := bind_eq_ok.mp h₁
    cases h₁
    split_ifs with hne
    · exact .same _
    · exact .select (visits_of_visit hc) (visits_of_visit ht) (visits_of_visit hf) hne
  | .concat l r, e', h => by
    refine visits_of_visitExpr rfl h fun e₁ h₁ => ?_
    obtain ⟨l', hl, h₁⟩ := bind_eq_ok.mp h₁
    obtain ⟨r', hr, h₁⟩ := bind_eq_ok.mp h₁
    cases h₁
    split_ifs with hne
    · exact .same _
    · exact .concat (visits_of_visit hl) (visits_of_visit hr) hne
  | .extract e off w, e', h => by
    refine visits_of_visitExpr rfl h fun e₁ h₁ => ?_
    obtain ⟨k', hk, h₁⟩ := bind_eq_ok.mp h₁
    cases h₁
    split_ifs with hne
    · exact .same _
    · exact .extract (visits_of_visit hk) hne
  | .not e, e', h => by
    refine visits_of_visitExpr rfl h fun e₁ h₁ => ?_
    obtain ⟨k', hk, h₁⟩ := bind_eq_ok.mp h₁
    cases h₁
    split_ifs with hne
    · exact .same _
    · exact .not (visits_of_visit hk) hne
  | .cast k e w, e', h => by
    refine visits_of_visitExpr rfl h fun e₁ h₁ => ?_
    obtain ⟨k', hk, h₁⟩ := bind_eq_ok.mp h₁
    cases h₁
    split_ifs with hne
    · exact .same _
    · exact .cast (visits_of_visit hk) hne
  | .binary k l r, e', h => by
    refine visits_of_visitExpr rfl h fun e₁ h₁ => ?_
    obtain ⟨l', hl, h₁⟩ := bind_eq_ok.mp h₁
    obtain ⟨r', hr, h₁⟩ := bind_eq_ok.mp h₁
    split_ifs at h₁ with hne
    · cases h₁
      exact .same _
    · exact .binary (visits_of_visit hl) (visits_of_visit hr) hne h₁

/-- A computation that can only stop at a zero divisor. -/
def OnlyDivides {α : Type} (x : Except Abort α) : Prop := ∀ a, x = .error a → a = .divideByZero

theorem onlyDivides_pure {α : Type} (a : α) : OnlyDivides (pure a : Except Abort α) :=
  fun _ h => by cases h

theorem OnlyDivides.bind {α β : Type} {x : Except Abort α} {f : α → Except Abort β}
    (hx : OnlyDivides x) (hf : ∀ a, OnlyDivides (f a)) : OnlyDivides (x >>= f) := by
  cases x with
  | error a =>
    intro b h
    cases h
    exact hx a rfl
  | ok a => exact hf a

theorem onlyDivides_create (k : BinaryKind) (l r : Expr) : OnlyDivides (BinaryExpr.create k l r) := by
  have hdiv : ∀ (k : BinaryKind) (bool : Expr → Expr), OnlyDivides (divCreate k bool l r) := by
    intro k bool a h
    unfold divCreate at h
    split at h
    · split_ifs at h <;> cases h
      rfl
    · cases h
  cases k with
  | UDiv | SDiv | URem | SRem => exact hdiv _ _
  | _ => exact onlyDivides_pure _

theorem onlyDivides_visitExpr {e : Expr} {doChildren : Except Abort Expr}
    (h : OnlyDivides doChildren) : OnlyDivides (visitExpr src dst e doChildren) := by
  unfold visitExpr
  split_ifs
  · exact onlyDivides_pure _
  · cases doChildren with
    | error a =>
      intro b hb
      cases hb
      exact h a rfl
    | ok e => exact fun _ hb => by cases hb

theorem onlyDivides_visit : ∀ e : Expr, OnlyDivides (visit src dst e)
  | .constant _ => onlyDivides_pure _
  | .notOptimized s | .read _ s | .extract s _ _ | .not s | .cast _ s _ =>
    onlyDivides_visitExpr ((onlyDivides_visit s).bind fun _ => onlyDivides_pure _)
  | .select c t f => onlyDivides_visitExpr ((onlyDivides_visit c).bind fun _ =>
      (onlyDivides_visit t).bind fun _ => (onlyDivides_visit f).bind fun _ => onlyDivides_pure _)
  | .concat l r => onlyDivides_visitExpr ((onlyDivides_visit l).bind fun _ =>
      (onlyDivides_visit r).bind fun _ => onlyDivides_pure _)
  | .binary k l r => onlyDivides_visitExpr ((onlyDivides_visit l).bind fun l' =>
      (onlyDivides_visit r).bind fun r' => by
        split_ifs
        · exact onlyDivides_pure _
        · exact onlyDivides_create k l' r')

/-- `e'` may stand for `e` wherever the replaced expression has the value it is
replaced by. -/
abbrev AgreesUnder (src dst : Expr) : Expr → Expr → Prop :=
  AgreesOn fun σ => src.eval σ = dst.eval σ

/-- A visit keeps type and width, and the value where the replacement is justified. -/
theorem Visits.agreesUnder {e e' : Expr} (h : Visits src dst e e') (hd : dst.wellTyped = true)
    (hw : src.getWidth = dst.getWidth) (he : e.wellTyped = true) : AgreesUnder src dst e e' := by
  induction h with
  | same e => exact .refl he
  | replaced _ _ ih =>
    have ih := ih he
    exact ⟨hd, hw.symm.trans ih.getWidth, fun σ hσ => hσ.symm.trans (ih.eval σ hσ)⟩
  | notOptimized _ _ ih =>
    have ih := ih he
    exact ⟨ih.wellTyped, ih.getWidth, ih.eval⟩
  | read _ _ ih =>
    refine .read he (ih ?_)
    simp only [Expr.wellTyped, Bool.and_eq_true] at he
    exact he.1.2
  | select _ _ _ _ ihc iht ihf =>
    have hkids := he
    simp only [Expr.wellTyped, Bool.and_eq_true] at hkids
    obtain ⟨⟨⟨⟨hc, ht⟩, hf⟩, -⟩, -⟩ := hkids
    exact .select he (ihc hc) (iht ht) (ihf hf)
  | concat _ _ _ ihl ihr =>
    obtain ⟨hl, hr⟩ := Expr.wellTyped_concat.mp he
    exact .concat (ihl hl) (ihr hr)
  | extract _ _ ih => exact .extract he (ih (Expr.wellTyped_extract.mp he).1)
  | not _ _ ih => exact .not (ih he)
  | cast _ _ ih =>
    refine .cast he (ih ?_)
    simp only [Expr.wellTyped, Bool.and_eq_true] at he
    exact he.1
  | binary _ _ _ hcreate ihl ihr =>
    obtain ⟨hl, hr, -⟩ := Expr.wellTyped_operands he
    exact .binary he (ihl hl) (ihr hr) hcreate

end ExprReplaceVisitor

end TaseVerifier
