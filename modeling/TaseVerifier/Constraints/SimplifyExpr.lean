import TaseVerifier.Constraints.AddSpec
import TaseVerifier.Expr.ExprVisitor

/-! Simplifying an expression. `simplifyExpr` replaces what the constraints make equal to a
constant, in all constraints at once; the exclusive-or optimization rewrites extracts, then
equalities, then nested exclusive ors. -/

namespace TaseVerifier

/-! ### The code -/

/-- The first entry of a key is the one that is kept. -/
def exprReplaceVisitor2 (replacements : List (Expr × Expr)) : ExprVisitor where
  recursive := true
  visitExprPost e :=
    match replacements.lookup e with
    | some e' => .changeTo e'
    | none => .doChildren

def extractExprVisitor : ExprVisitor where
  visitExpr
    | .extract (.binary .Xor l r) off w =>
      .changeTo (XorExpr.create (ExtractExpr.create l off w) (ExtractExpr.create r off w))
    | _ => .doChildren

def xorLiftVisitor : ExprVisitor where
  visitExpr
    | .binary .Eq (.constant c) (.binary .Xor (.constant x) r) =>
      .changeTo (EqExpr.create (XorExpr.create (.constant x) (.constant c))
        (XorExpr.create (.constant x) (.binary .Xor (.constant x) r)))
    | _ => .doChildren

def xorPropagateVisitor : ExprVisitor where
  visitExpr
    | .binary .Xor (.constant c) (.binary .Xor l r) =>
      if l = .constant c then .changeTo r else .doChildren
    | _ => .doChildren

namespace ConstraintManager

/-- What is inserted for a constraint: the operand of an equality with a constant, or the
constraint itself, and the constant. -/
def equality : Expr → Expr × Expr
  | .binary .Eq (.constant c) r => (r, .constant c)
  | e => (e, .alloc 1 Width.Bool)

def simplifyExpr (constraints : List Expr) (e : Expr) : Except Abort Expr :=
  if e.isConstant then pure e else (exprReplaceVisitor2 (constraints.map equality)).visit e

def simplifyWithXorOptimization (e : Expr) : Except Abort Expr := do
  let e ← extractExprVisitor.visit e
  let e ← xorLiftVisitor.visit e
  xorPropagateVisitor.visit e

end ConstraintManager

/-! ### Replacements -/

section Replace

variable {cs : List Expr}

theorem equality_isConstant (c : Expr) : (ConstraintManager.equality c).2.isConstant = true := by
  unfold ConstraintManager.equality
  split <;> rfl

/-- Under a constraint its entry is justified. -/
theorem equality_agrees {c : Expr} (hc : c.isBool = true) :
    AgreesOn (Holds · c) (ConstraintManager.equality c).1 (ConstraintManager.equality c).2 := by
  obtain ⟨ht, hw⟩ := isBool_iff.mp hc
  unfold ConstraintManager.equality
  split
  next k r =>
    obtain ⟨-, -, hkr⟩ := Expr.wellTyped_operands ht
    exact ⟨rfl, hkr, fun σ hσ => (holds_eq ht).mp hσ⟩
  next =>
    refine ⟨rfl, hw.symm, fun σ hσ => ?_⟩
    obtain ⟨b, hb⟩ := Expr.eval_bool ht hw σ
    have htrue : (APInt.ofBool b).isTrue = true := hb ▸ hσ
    rw [Expr.eval_alloc, hb]
    cases b
    · cases htrue
    · rfl

theorem mem_of_lookup {α β : Type} [DecidableEq α] {a : α} {b : β} :
    ∀ {ps : List (α × β)}, ps.lookup a = some b → (a, b) ∈ ps
  | (a', b') :: ps, h => by
    rw [List.lookup_cons] at h
    split at h
    next heq =>
      obtain rfl := Option.some.inj h
      rw [beq_iff_eq.mp heq]
      exact List.mem_cons_self
    next => exact List.mem_cons_of_mem _ (mem_of_lookup h)

theorem visitExprPost_replace {e e' : Expr}
    (h : (exprReplaceVisitor2 (cs.map ConstraintManager.equality)).visitExprPost e = .changeTo e') :
    ∃ c ∈ cs, ConstraintManager.equality c = (e, e') := by
  simp only [exprReplaceVisitor2] at h
  split at h
  next e₁ hlookup =>
    cases h
    obtain ⟨c, hc, heq⟩ := List.mem_map.mp (mem_of_lookup hlookup)
    exact ⟨c, hc, heq⟩
  next => cases h

theorem sound_replace (hcs : ∀ c ∈ cs, c.isBool = true) :
    (exprReplaceVisitor2 (cs.map ConstraintManager.equality)).Sound (Satisfies · cs) where
  visitExpr _ _ _ h := by cases h
  visitExprPost e e' _ _ h := by
    obtain ⟨c, hc, heq⟩ := visitExprPost_replace h
    have ha := equality_agrees (hcs c hc)
    rw [heq] at ha
    exact ⟨ha.wellTyped, ha.getWidth, fun σ hσ => ha.eval σ (hσ c hc)⟩

theorem toConstants_replace :
    (exprReplaceVisitor2 (cs.map ConstraintManager.equality)).ToConstants where
  visitExpr _ _ h := by cases h
  visitExprPost e e' h := by
    obtain ⟨c, -, heq⟩ := visitExprPost_replace h
    have hc := equality_isConstant c
    rwa [heq] at hc

theorem keepsDefined_replace (σ : Assignment) :
    (exprReplaceVisitor2 (cs.map ConstraintManager.equality)).KeepsDefined σ where
  visitExpr _ _ _ h := by cases h
  visitExprPost e e' _ h := by
    obtain ⟨c, rfl⟩ := Expr.isConstant_iff.mp (toConstants_replace.visitExprPost e e' h)
    rfl

end Replace

/-! ### Exclusive ors -/

namespace APInt

variable {a b c : APInt}

theorem xor_extract (h : a.width = b.width) (off w : ℕ) :
    (a.extract off w).xor (b.extract off w) = (a.xor b).extract off w := by
  obtain ⟨n, x⟩ := a
  obtain ⟨m, y⟩ := b
  obtain rfl : n = m := h
  rw [xor_mk]
  simp only [extract, xor_mk]
  rw [BitVec.extractLsb'_xor]

theorem xor_cancel (h : a.width = b.width) : a.xor (a.xor b) = b := by
  obtain ⟨n, x⟩ := a
  obtain ⟨m, y⟩ := b
  obtain rfl : n = m := h
  rw [xor_mk, xor_mk, ← BitVec.xor_assoc, BitVec.xor_self, BitVec.zero_xor]

theorem eq_xor_xor (hb : a.width = b.width) (hc : a.width = c.width) :
    eq (a.xor b) (a.xor c) = eq b c := by
  obtain ⟨n, x⟩ := a
  obtain ⟨m, y⟩ := b
  obtain ⟨k, z⟩ := c
  obtain rfl : n = m := hb
  obtain rfl : n = k := hc
  rw [xor_mk, xor_mk, eq_mk, eq_mk]
  congr 1
  rw [Bool.eq_iff_iff, beq_iff_eq, beq_iff_eq]
  exact BitVec.xor_right_inj x

end APInt

section Xor

variable {H : Assignment → Prop} {l r : Expr} {c x : APInt} {off w : ℕ}

theorem extractXor_agrees (h : (Expr.extract (.binary .Xor l r) off w).wellTyped = true) :
    AgreesOn H (.extract (.binary .Xor l r) off w)
      (XorExpr.create (ExtractExpr.create l off w) (ExtractExpr.create r off w)) := by
  obtain ⟨ht, hpos, hle⟩ := Expr.wellTyped_extract.mp h
  obtain ⟨hl, hr, hlr⟩ := Expr.wellTyped_operands ht
  have hle : off + w ≤ l.getWidth := hle
  have hlt : (Expr.extract l off w).wellTyped = true := Expr.wellTyped_extract.mpr ⟨hl, hpos, hle⟩
  have hrt : (Expr.extract r off w).wellTyped = true :=
    Expr.wellTyped_extract.mpr ⟨hr, hpos, hlr ▸ hle⟩
  have hnode : (Expr.binary .Xor (.extract l off w) (.extract r off w)).wellTyped = true :=
    Expr.wellTyped_binary hlt hrt rfl rfl
  have hsame : AgreesOn H (.extract (.binary .Xor l r) off w)
      (.binary .Xor (.extract l off w) (.extract r off w)) := by
    refine ⟨hnode, rfl, fun σ _ => ?_⟩
    have hw : (l.eval σ).width = (r.eval σ).width := by
      rw [l.width_eval σ hl, r.width_eval σ hr, hlr]
    exact APInt.xor_extract hw off w
  exact hsame.trans (.binary hnode (.extract hlt (.refl hl)) (.extract hrt (.refl hr)) rfl)

theorem xorLift_agrees
    (h : (Expr.binary .Eq (.constant c) (.binary .Xor (.constant x) r)).wellTyped = true) :
    AgreesOn H (.binary .Eq (.constant c) (.binary .Xor (.constant x) r))
      (EqExpr.create (XorExpr.create (.constant x) (.constant c))
        (XorExpr.create (.constant x) (.binary .Xor (.constant x) r))) := by
  obtain ⟨-, hxor, hcx⟩ := Expr.wellTyped_operands h
  have hleft : (Expr.binary .Xor (.constant x) (.constant c)).wellTyped = true :=
    Expr.wellTyped_binary rfl rfl hcx.symm rfl
  have hright : (Expr.binary .Xor (.constant x) (.binary .Xor (.constant x) r)).wellTyped = true :=
    Expr.wellTyped_binary rfl hxor rfl rfl
  have hnode : (Expr.binary .Eq (.binary .Xor (.constant x) (.constant c))
      (.binary .Xor (.constant x) (.binary .Xor (.constant x) r))).wellTyped = true :=
    Expr.wellTyped_binary hleft hright rfl rfl
  have hsame : AgreesOn H (.binary .Eq (.constant c) (.binary .Xor (.constant x) r))
      (.binary .Eq (.binary .Xor (.constant x) (.constant c))
        (.binary .Xor (.constant x) (.binary .Xor (.constant x) r))) := by
    refine ⟨hnode, rfl, fun σ _ => ?_⟩
    have hw : x.width = ((Expr.binary .Xor (.constant x) r).eval σ).width :=
      (Expr.width_eval σ _ hxor).symm
    exact APInt.eq_xor_xor hcx.symm hw
  exact hsame.trans (.binary hnode (.binary hleft (.refl rfl) (.refl rfl) rfl)
    (.binary hright (.refl rfl) (.refl hxor) rfl) rfl)

theorem xorPropagate_agrees
    (h : (Expr.binary .Xor (.constant c) (.binary .Xor (.constant c) r)).wellTyped = true) :
    AgreesOn H (.binary .Xor (.constant c) (.binary .Xor (.constant c) r)) r := by
  obtain ⟨-, hxor, -⟩ := Expr.wellTyped_operands h
  obtain ⟨-, hr, hcr⟩ := Expr.wellTyped_operands hxor
  refine ⟨hr, hcr.symm, fun σ _ => ?_⟩
  have hw : c.width = (r.eval σ).width := by
    rw [r.width_eval σ hr]
    exact hcr
  exact (APInt.xor_cancel hw).symm

theorem sound_extract : extractExprVisitor.Sound H where
  visitExpr e e' ht h := by
    simp only [extractExprVisitor] at h
    split at h
    · cases h
      exact extractXor_agrees ht
    · cases h
  visitExprPost _ _ _ _ h := by cases h

theorem sound_xorLift : xorLiftVisitor.Sound H where
  visitExpr e e' ht h := by
    simp only [xorLiftVisitor] at h
    split at h
    · cases h
      exact xorLift_agrees ht
    · cases h
  visitExprPost _ _ _ _ h := by cases h

theorem sound_xorPropagate : xorPropagateVisitor.Sound H where
  visitExpr e e' ht h := by
    simp only [xorPropagateVisitor] at h
    split at h
    · split_ifs at h with hc
      · cases h
        subst hc
        exact xorPropagate_agrees ht
    · cases h
  visitExprPost _ _ _ _ h := by cases h

variable (σ : Assignment)

theorem keepsDefined_extract : extractExprVisitor.KeepsDefined σ where
  visitExpr e e' hd h := by
    have D := hereditary_defined σ
    simp only [extractExprVisitor] at h
    split at h
    next l r off w =>
      cases h
      obtain ⟨hl, hr⟩ := (D.binary .Xor l r rfl).mp ((D.extract _ off w).mp hd)
      exact D.xor_create (D.extract_create off w hl) (D.extract_create off w hr)
    · cases h
  visitExprPost _ _ _ h := by cases h

theorem keepsDefined_xorLift : xorLiftVisitor.KeepsDefined σ where
  visitExpr e e' hd h := by
    have D := hereditary_defined σ
    simp only [xorLiftVisitor] at h
    split at h
    next c x r =>
      cases h
      have hxor := ((D.binary .Eq (.constant c) _ rfl).mp hd).2
      exact D.eq_create (D.xor_create (D.constant x) (D.constant c))
        (D.xor_create (D.constant x) hxor)
    · cases h
  visitExprPost _ _ _ h := by cases h

theorem keepsDefined_xorPropagate : xorPropagateVisitor.KeepsDefined σ where
  visitExpr e e' hd h := by
    have D := hereditary_defined σ
    simp only [xorPropagateVisitor] at h
    split at h
    next c l r =>
      split_ifs at h
      cases h
      exact ((D.binary .Xor l e' rfl).mp ((D.binary .Xor (.constant c) _ rfl).mp hd).2).2
    · cases h
  visitExprPost _ _ _ h := by cases h

end Xor

namespace ConstraintManager

open ExprReplaceVisitor (bind_eq_ok OnlyDivides)

/-- A simplification of an expression, given what is known of the arrays: it stops at a zero
divisor only, what it returns has the value of the expression, and it does return where the
expression has a value. -/
def Simplifies (H : Assignment → Prop) (simplify : Expr → Except Abort Expr) : Prop :=
  ∀ e : Expr, e.wellTyped = true →
    OnlyDivides (simplify e) ∧
      (∀ e', simplify e = .ok e' → AgreesOn H e e') ∧
      ∀ σ, H σ → e.defined σ = true → ∃ e', simplify e = .ok e' ∧ e'.defined σ = true

theorem Simplifies.visit {H : Assignment → Prop} {v : ExprVisitor} (hv : v.Sound H)
    (hb : v.Bounded) (hd : ∀ σ, v.KeepsDefined σ) : Simplifies H v.visit := by
  intro e ht
  obtain ⟨h₁, h₂, h₃⟩ := hv.visit hb ht
  exact ⟨h₁, h₂, fun σ hσ => h₃ σ hσ (hd σ)⟩

theorem Simplifies.comp {H : Assignment → Prop} {f g : Expr → Except Abort Expr}
    (hf : Simplifies H f) (hg : Simplifies H g) : Simplifies H fun e => f e >>= g := by
  intro e ht
  obtain ⟨hdiv, hagree, hdef⟩ := hf e ht
  refine ⟨fun a h => ?_, fun e' h => ?_, fun σ hσ he => ?_⟩
  · rcases bind_eq_error.mp h with h | ⟨e₁, h₁, h⟩
    · exact hdiv a h
    · exact (hg e₁ (hagree e₁ h₁).wellTyped).1 a h
  · obtain ⟨e₁, h₁, h⟩ := bind_eq_ok.mp h
    have ha := hagree e₁ h₁
    exact ha.trans ((hg e₁ ha.wellTyped).2.1 e' h)
  · obtain ⟨e₁, h₁, he₁⟩ := hdef σ hσ he
    obtain ⟨e', h', he'⟩ := (hg e₁ (hagree e₁ h₁).wellTyped).2.2 σ hσ he₁
    exact ⟨e', bind_eq_ok.mpr ⟨e₁, h₁, h'⟩, he'⟩

theorem simplifyExpr_simplifies {cs : List Expr} (hcs : ∀ c ∈ cs, c.isBool = true) :
    Simplifies (Satisfies · cs) (simplifyExpr cs) := by
  intro e ht
  unfold simplifyExpr
  split_ifs with hc
  · refine ⟨ExprReplaceVisitor.onlyDivides_pure e, fun e' h => ?_, fun σ _ he => ⟨e, rfl, he⟩⟩
    cases h
    exact .refl ht
  · exact Simplifies.visit (sound_replace hcs) (.inr toConstants_replace) keepsDefined_replace e ht

theorem simplifyWithXorOptimization_simplifies (H : Assignment → Prop) :
    Simplifies H simplifyWithXorOptimization :=
  .comp (.visit sound_extract (.inl rfl) keepsDefined_extract)
    (.comp (.visit sound_xorLift (.inl rfl) keepsDefined_xorLift)
      (.visit sound_xorPropagate (.inl rfl) keepsDefined_xorPropagate))

/-- Simplifying keeps the value: under the assignments that satisfy the constraints, and for the
exclusive-or optimization under every assignment. -/
theorem simplify_keeps_value {cs : List Expr} (hcs : ∀ c ∈ cs, c.isBool = true) :
    Simplifies (Satisfies · cs) (simplifyExpr cs) ∧
      Simplifies (fun _ => True) simplifyWithXorOptimization :=
  ⟨simplifyExpr_simplifies hcs, simplifyWithXorOptimization_simplifies _⟩

/-- With the byte known to be five, the quotient of its successor by two is three. -/
theorem simplify_keeps_value_quotient :
    let byte := Expr.read (.root ⟨"a", 1, 0, []⟩) (.alloc 0 32)
    let cs := [Expr.binary .Eq (.alloc 5 8) byte]
    let e := Expr.binary .UDiv (.binary .Add (.alloc 1 8) byte) (.alloc 2 8)
    simplifyExpr cs e = .ok (.alloc 3 8) ∧
      ∀ σ, Satisfies σ cs → (Expr.alloc 3 8).eval σ = e.eval σ := by
  intro byte cs e
  have hrun : simplifyExpr cs e = .ok (.alloc 3 8) := by decide +kernel
  have hmean := (@simplify_keeps_value cs (by decide)).1 e (by decide)
  exact ⟨hrun, (hmean.2.1 _ hrun).eval⟩

end ConstraintManager

end TaseVerifier
