import TaseVerifier.Expr.Visitor

/-! Predicates that hold of an expression when they hold of its parts pass through the
simplifying constructors, since these only rearrange their operands and never
introduce a division. The instance needed is definedness: no divisor is zero. -/

namespace TaseVerifier

/-- `P` is decided part by part, reads and divisions aside. -/
structure NodeWise (P : Expr → Prop) : Prop where
  constant : ∀ c, P (.constant c)
  select : ∀ c t f, P (.select c t f) ↔ P c ∧ P t ∧ P f
  concat : ∀ l r, P (.concat l r) ↔ P l ∧ P r
  extract : ∀ e off w, P (.extract e off w) ↔ P e
  not : ∀ e, P (.not e) ↔ P e
  cast : ∀ k e w, P (.cast k e w) ↔ P e
  binary : ∀ k l r, k.isDivision = false → (P (.binary k l r) ↔ P l ∧ P r)

/-- `P` is decided part by part in reads too, with `Q` for the update lists. -/
structure Hereditary (P : Expr → Prop) (Q : UpdateList → Prop) : Prop extends NodeWise P where
  notOptimized : ∀ s, P (.notOptimized s) ↔ P s
  read : ∀ u i, P (.read u i) ↔ Q u ∧ P i
  node : ∀ i v next, Q (.node i v next) ↔ P i ∧ P v ∧ Q next

namespace NodeWise

variable {P : Expr → Prop} (H : NodeWise P)

include H

theorem and_create {l r : Expr} (hl : P l) (hr : P r) : P (AndExpr.create l r) := by
  unfold AndExpr.create AndExpr.createPartialR AndExpr.createPartial
  split <;> (try split_ifs) <;> simp_all [H.constant, H.binary .And _ _ rfl]

theorem or_create {l r : Expr} (hl : P l) (hr : P r) : P (OrExpr.create l r) := by
  unfold OrExpr.create OrExpr.createPartialR OrExpr.createPartial
  split <;> (try split_ifs) <;> simp_all [H.constant, H.binary .Or _ _ rfl]

theorem eq_create' {l r : Expr} (hl : P l) (hr : P r) : P (EqExpr.create' l r) := by
  unfold EqExpr.create'
  split_ifs
  · exact H.constant _
  · exact (H.binary .Eq l r rfl).mpr ⟨hl, hr⟩

theorem eq_foldOr {e rest : Expr} (c : APInt) (h : P rest) : P (EqExpr.foldOr e c rest) := by
  cases e <;> first | exact H.constant _ | exact h

theorem eq_createPartialR (c : APInt) (r : Expr) (hr : P r) : P (EqExpr.createPartialR c r) := by
  fun_induction EqExpr.createPartialR c r with
  | case1 => exact hr
  | case2 c _ _ d a _ => exact ((H.binary .Eq _ _ rfl).mp hr).2
  | case3 | case5 | case12 => exact H.eq_create' (H.constant _) hr
  | case4 c _ _ a b iha ihb =>
    obtain ⟨ha, hb⟩ := (H.binary .Or _ _ rfl).mp hr
    exact H.and_create (H.eq_foldOr _ (iha ha)) (H.eq_foldOr _ (ihb hb))
  | case6 c _ a w trunc _ ih | case8 c _ a w trunc _ ih =>
    exact H.eq_foldOr _ (ih ((H.cast _ _ _).mp hr))
  | case7 | case9 => exact H.constant _
  | case10 c _ d b ih => exact ih ((H.binary .Add _ _ rfl).mp hr).2
  | case11 c _ d b ih => exact ih ((H.binary .Sub _ _ rfl).mp hr).2

theorem eq_create {l r : Expr} (hl : P l) (hr : P r) : P (EqExpr.create l r) := by
  unfold EqExpr.create
  split
  · exact H.constant _
  · exact H.eq_createPartialR _ _ hr
  · exact H.eq_createPartialR _ _ hl
  · exact H.eq_create' hl hr

theorem createIsZero {e : Expr} (h : P e) : P e.createIsZero := H.eq_create h (H.constant _)

theorem xor_createPartialR {c : APInt} {r : Expr} (hr : P r) : P (XorExpr.createPartialR c r) := by
  unfold XorExpr.createPartialR
  split_ifs
  · exact hr
  · exact H.eq_createPartialR _ _ hr
  · exact (H.binary .Xor _ _ rfl).mpr ⟨H.constant _, hr⟩

theorem xor_create {l r : Expr} (hl : P l) (hr : P r) : P (XorExpr.create l r) := by
  unfold XorExpr.create
  split
  · exact H.constant _
  · exact H.xor_createPartialR hr
  · exact H.xor_createPartialR hl
  · exact (H.binary .Xor _ _ rfl).mpr ⟨hl, hr⟩

theorem foldConst {op : APInt → APInt → APInt} {c : APInt} {e rest : Expr} (h : P rest) :
    P (foldConst op c e rest) := by
  cases e <;> first | exact H.constant _ | exact h

theorem add_sub_createPartialR :
    (∀ (c : APInt) (r : Expr), P r → P (AddExpr.createPartialR c r)) ∧
      ∀ (c : APInt) (r : Expr), P r → P (SubExpr.createPartialR c r) := by
  refine AddExpr.createPartialR.mutual_induct
    (fun c r => P r → P (AddExpr.createPartialR c r))
    (fun c r => P r → P (SubExpr.createPartialR c r)) ?_ ?_ ?_ ?_ ?_ ?_ ?_ ?_ ?_
  · intro r c hw hr
    unfold AddExpr.createPartialR
    rw [if_pos hw]
    exact H.xor_createPartialR hr
  · intro r c hw hz hr
    unfold AddExpr.createPartialR
    rw [if_neg hw, if_pos hz]
    exact hr
  · intro c hw hz d b ih hr
    unfold AddExpr.createPartialR
    rw [if_neg hw, if_neg hz]
    exact H.foldConst (ih ((H.binary .Add _ _ rfl).mp hr).2)
  · intro c hw hz d b ih hr
    unfold AddExpr.createPartialR
    rw [if_neg hw, if_neg hz]
    exact H.foldConst (ih ((H.binary .Sub _ _ rfl).mp hr).2)
  · intro c hw hz r h1 h2 hr
    unfold AddExpr.createPartialR
    rw [if_neg hw, if_neg hz]
    split
    · exact absurd rfl (h1 _ _)
    · exact absurd rfl (h2 _ _)
    · exact (H.binary .Add _ _ rfl).mpr ⟨H.constant _, hr⟩
  · intro r c hw hr
    unfold SubExpr.createPartialR
    rw [if_pos hw]
    exact H.xor_createPartialR hr
  · intro c hw d b ih hr
    unfold SubExpr.createPartialR
    rw [if_neg hw]
    exact H.foldConst (ih ((H.binary .Add _ _ rfl).mp hr).2)
  · intro c hw d b ih hr
    unfold SubExpr.createPartialR
    rw [if_neg hw]
    exact H.foldConst (ih ((H.binary .Sub _ _ rfl).mp hr).2)
  · intro c hw r h1 h2 hr
    unfold SubExpr.createPartialR
    rw [if_neg hw]
    split
    · exact absurd rfl (h1 _ _)
    · exact absurd rfl (h2 _ _)
    · exact (H.binary .Sub _ _ rfl).mpr ⟨H.constant _, hr⟩

theorem add_createC {c : APInt} {r : Expr} (hr : P r) : P (AddExpr.createC c r) :=
  H.foldConst (H.add_sub_createPartialR.1 c r hr)

theorem sub_createC {c : APInt} {r : Expr} (hr : P r) : P (SubExpr.createC c r) :=
  H.foldConst (H.add_sub_createPartialR.2 c r hr)

theorem sub_createCR {c : APInt} {l : Expr} (hl : P l) : P (SubExpr.createCR l c) := by
  unfold SubExpr.createCR
  split
  · exact H.constant _
  · exact H.add_sub_createPartialR.1 _ _ hl

mutual
theorem add_create (l r : Expr) (hl : P l) (hr : P r) : P (AddExpr.create l r) := by
  unfold AddExpr.create
  split
  · exact H.constant _
  · exact H.add_sub_createPartialR.1 _ _ hr
  · exact H.add_sub_createPartialR.1 _ _ hl
  split_ifs
  · exact (H.binary .Xor _ _ rfl).mpr ⟨hl, hr⟩
  split
  · exact H.add_createC (add_create _ _ ((H.binary .Add _ _ rfl).mp hl).2 hr)
  · exact H.add_createC (sub_create _ _ hr ((H.binary .Sub _ _ rfl).mp hl).2)
  · exact H.add_createC (add_create _ _ hl ((H.binary .Add _ _ rfl).mp hr).2)
  · exact H.add_createC (sub_create _ _ hl ((H.binary .Sub _ _ rfl).mp hr).2)
  · exact (H.binary .Add _ _ rfl).mpr ⟨hl, hr⟩
termination_by sizeOf l + sizeOf r
theorem sub_create (l r : Expr) (hl : P l) (hr : P r) : P (SubExpr.create l r) := by
  unfold SubExpr.create
  split
  · exact H.constant _
  · exact H.add_sub_createPartialR.2 _ _ hr
  · exact H.add_sub_createPartialR.1 _ _ hl
  split_ifs
  · exact (H.binary .Xor _ _ rfl).mpr ⟨hl, hr⟩
  · exact H.constant _
  split
  · exact H.add_createC (sub_create _ _ ((H.binary .Add _ _ rfl).mp hl).2 hr)
  · exact H.sub_createC (add_create _ _ ((H.binary .Sub _ _ rfl).mp hl).2 hr)
  · exact H.sub_createCR (sub_create _ _ hl ((H.binary .Add _ _ rfl).mp hr).2)
  · exact H.sub_createCR (add_create _ _ hl ((H.binary .Sub _ _ rfl).mp hr).2)
  · exact (H.binary .Sub _ _ rfl).mpr ⟨hl, hr⟩
termination_by sizeOf l + sizeOf r
end

theorem mul_create {l r : Expr} (hl : P l) (hr : P r) : P (MulExpr.create l r) := by
  unfold MulExpr.create MulExpr.createPartial MulExpr.createPartialR AndExpr.createPartialR
    AndExpr.createPartial
  split <;> (try split_ifs) <;>
    simp_all [H.constant, H.binary .And _ _ rfl, H.binary .Mul _ _ rfl]

theorem plainCreate {k : BinaryKind} {bool : Expr → Expr → Expr} {l r : Expr}
    (hk : k.isDivision = false) (hl : P l) (hr : P r) (hb : P (bool l r)) :
    P (plainCreate k bool l r) := by
  unfold TaseVerifier.plainCreate
  split
  · exact H.constant _
  split_ifs
  · exact hb
  · exact (H.binary k _ _ hk).mpr ⟨hl, hr⟩

theorem select_create {c t f : Expr} (hc : P c) (ht : P t) (hf : P f) :
    P (SelectExpr.create c t f) := by
  have hs : P (.select c t f) := (H.select c t f).mpr ⟨hc, ht, hf⟩
  unfold SelectExpr.create
  split
  · split_ifs <;> assumption
  split_ifs
  · exact ht
  · split
    · split_ifs
      · exact H.or_create hc hf
      · exact H.and_create (H.createIsZero hc) hf
    · split_ifs
      · exact H.or_create (H.createIsZero hc) ht
      · exact H.and_create hc ht
    · exact hs
  · exact hs

theorem concat_merge {extract : Expr → ℕ → ℕ → Expr} (hext : ∀ e off w, P e → P (extract e off w))
    {l r : Expr} (hl : P l) (hr : P r) : P (ConcatExpr.merge extract l r) := by
  unfold ConcatExpr.merge
  split
  · exact H.constant _
  · split_ifs
    · exact hext _ _ _ ((H.extract _ _ _).mp hl)
    · exact (H.concat _ _).mpr ⟨hl, hr⟩
  · exact (H.concat _ _).mpr ⟨hl, hr⟩

theorem extract_createF (n : ℕ) (e : Expr) (off w : ℕ) (he : P e) :
    P (ExtractExpr.createF n e off w) := by
  induction n generalizing e off w with
  | zero => exact (H.extract _ _ _).mpr he
  | succ n ih =>
    unfold ExtractExpr.createF
    split_ifs
    · exact he
    split
    · exact H.constant _
    · obtain ⟨hl, hr⟩ := (H.concat _ _).mp he
      split_ifs
      · exact ih _ _ _ hl
      · exact ih _ _ _ hr
      · exact H.concat_merge ih (ih _ _ _ hl) (ih _ _ _ hr)
    · exact (H.extract _ _ _).mpr he

theorem extract_create {e : Expr} (off w : ℕ) (he : P e) : P (ExtractExpr.create e off w) :=
  H.extract_createF _ e off w he

theorem concat_create {l r : Expr} (hl : P l) (hr : P r) : P (ConcatExpr.create l r) :=
  H.concat_merge (fun _ off w h => H.extract_create off w h) hl hr

theorem not_create {e : Expr} (he : P e) : P (NotExpr.create e) := by
  cases e <;> first | exact H.constant _ | exact (H.not _).mpr he

theorem cast_create {k : CastKind} {e : Expr} (w : ℕ) (he : P e) : P (CastExpr.create k e w) := by
  unfold CastExpr.create
  split_ifs
  · exact he
  · exact H.extract_create 0 w he
  · split
    · exact H.constant _
    · exact (H.cast _ _ _).mpr he

/-- The binary constructors other than the divisions. -/
theorem binary_create {k : BinaryKind} {l r : Expr} (hk : k.isDivision = false) (hl : P l)
    (hr : P r) : ∃ e, BinaryExpr.create k l r = .ok e ∧ P e := by
  have hzl := H.createIsZero hl
  have hzr := H.createIsZero hr
  cases k with
  | UDiv | SDiv | URem | SRem => cases hk
  | Add => exact ⟨_, rfl, H.add_create l r hl hr⟩
  | Sub => exact ⟨_, rfl, H.sub_create l r hl hr⟩
  | Mul => exact ⟨_, rfl, H.mul_create hl hr⟩
  | And => exact ⟨_, rfl, H.and_create hl hr⟩
  | Or => exact ⟨_, rfl, H.or_create hl hr⟩
  | Xor => exact ⟨_, rfl, H.xor_create hl hr⟩
  | Eq => exact ⟨_, rfl, H.eq_create hl hr⟩
  | Ne => exact ⟨_, rfl, H.eq_create (H.constant _) (H.eq_create hl hr)⟩
  | Shl | LShr | Slt => exact ⟨_, rfl, H.plainCreate rfl hl hr (H.and_create hl hzr)⟩
  | AShr => exact ⟨_, rfl, H.plainCreate rfl hl hr hl⟩
  | Ult => exact ⟨_, rfl, H.plainCreate rfl hl hr (H.and_create hzl hr)⟩
  | Ule => exact ⟨_, rfl, H.plainCreate rfl hl hr (H.or_create hzl hr)⟩
  | Sle => exact ⟨_, rfl, H.plainCreate rfl hl hr (H.or_create hl hzr)⟩
  | Ugt => exact ⟨_, rfl, H.plainCreate rfl hr hl (H.and_create hzr hl)⟩
  | Uge => exact ⟨_, rfl, H.plainCreate rfl hr hl (H.or_create hzr hl)⟩
  | Sgt => exact ⟨_, rfl, H.plainCreate rfl hr hl (H.and_create hr hzl)⟩
  | Sge => exact ⟨_, rfl, H.plainCreate rfl hr hl (H.or_create hr hzl)⟩

/-- All binary constructors, for a predicate that looks at a division's operands only. -/
theorem binary_create_all (hP : ∀ k l r, P (.binary k l r) ↔ P l ∧ P r) {k : BinaryKind}
    {l r e : Expr} (hl : P l) (hr : P r) (h : BinaryExpr.create k l r = .ok e) : P e := by
  cases hk : k.isDivision with
  | false =>
    obtain ⟨e', he', hP'⟩ := H.binary_create hk hl hr
    rw [h] at he'
    cases he'
    exact hP'
  | true =>
    have hdiv : ∀ (k : BinaryKind) (bool : Expr → Expr), P (bool l) → divCreate k bool l r = .ok e →
        P e := by
      intro k bool hb he
      unfold divCreate at he
      split at he
      · split_ifs at he
        cases he
        exact H.constant _
      · cases he
        split_ifs
        · exact hb
        · exact (hP k l r).mpr ⟨hl, hr⟩
    cases k with
    | UDiv | SDiv => exact hdiv _ _ hl h
    | URem | SRem => exact hdiv _ _ (H.constant _) h
    | _ => cases hk

end NodeWise

namespace Hereditary

variable {P : Expr → Prop} {Q : UpdateList → Prop} (H : Hereditary P Q)

include H

theorem read_scan {index v : Expr} {ul : UpdateList} (h : ReadExpr.scan index ul = .inl v)
    (hu : Q ul) : P v := by
  fun_induction ReadExpr.scan index ul with
  | case1 => cases h
  | case2 =>
    cases h
    exact ((H.node _ _ _).mp hu).2.1
  | case3 i v next c _ _ ih => exact ih h ((H.node _ _ _).mp hu).2.2
  | case4 => cases h

theorem read_create {ul : UpdateList} {index : Expr} (hu : Q ul) (hi : P index) :
    P (ReadExpr.create ul index) := by
  have hread : P (.read ul index) := (H.read ul index).mpr ⟨hu, hi⟩
  unfold ReadExpr.create
  split
  next v hv => exact H.read_scan hv hu
  next =>
    split_ifs
    · split
      · split_ifs
        · exact H.constant _
        · exact hread
      · exact hread
    · exact hread

end Hereditary

/-- Such a predicate passes through a visit. -/
theorem ExprReplaceVisitor.Visits.hereditary {P : Expr → Prop} {Q : UpdateList → Prop}
    (H : Hereditary P Q) (hP : ∀ k l r, P (.binary k l r) ↔ P l ∧ P r) {src dst e e' : Expr}
    (hdst : P dst) (h : Visits src dst e e') (he : P e) : P e' := by
  induction h with
  | same => exact he
  | replaced => exact hdst
  | notOptimized _ _ ih => exact (H.notOptimized _).mpr (ih ((H.notOptimized _).mp he))
  | read _ _ ih =>
    obtain ⟨hu, hi⟩ := (H.read _ _).mp he
    exact H.read_create hu (ih hi)
  | select _ _ _ _ ihc iht ihf =>
    obtain ⟨hc, ht, hf⟩ := (H.select _ _ _).mp he
    exact H.select_create (ihc hc) (iht ht) (ihf hf)
  | concat _ _ _ ihl ihr =>
    obtain ⟨hl, hr⟩ := (H.concat _ _).mp he
    exact H.concat_create (ihl hl) (ihr hr)
  | extract _ _ ih => exact H.extract_create _ _ (ih ((H.extract _ _ _).mp he))
  | not _ _ ih => exact H.not_create (ih ((H.not _).mp he))
  | cast _ _ ih => exact H.cast_create _ (ih ((H.cast _ _ _).mp he))
  | binary _ _ _ hc ihl ihr =>
    obtain ⟨hl, hr⟩ := (hP _ _ _).mp he
    exact H.binary_create_all hP (ihl hl) (ihr hr) hc

/-- The expressions whose symbolic arrays are all among `as`. -/
def Expr.Over (as : List KleeArray) (e : Expr) : Prop := ∀ a ∈ e.symbolicRoots, a ∈ as

instance (as : List KleeArray) (e : Expr) : Decidable (e.Over as) :=
  inferInstanceAs (Decidable (∀ a ∈ e.symbolicRoots, a ∈ as))

/-- A property of all symbolic arrays is decided part by part. -/
theorem hereditary_roots (p : KleeArray → Prop) :
    Hereditary (fun e => ∀ a ∈ e.symbolicRoots, p a) (fun u => ∀ a ∈ u.symbolicRoots, p a) where
  constant _ := by simp [Expr.symbolicRoots]
  notOptimized _ := by simp [Expr.symbolicRoots]
  read _ _ := by simp [Expr.symbolicRoots, or_imp, forall_and]
  select _ _ _ := by simp [Expr.symbolicRoots, or_imp, forall_and]
  concat _ _ := by simp [Expr.symbolicRoots, or_imp, forall_and]
  extract _ _ _ := by simp [Expr.symbolicRoots]
  not _ := by simp [Expr.symbolicRoots]
  cast _ _ _ := by simp [Expr.symbolicRoots]
  binary _ _ _ _ := by simp [Expr.symbolicRoots, or_imp, forall_and]
  node _ _ _ := by simp [UpdateList.symbolicRoots, or_imp, forall_and]

theorem roots_binary (p : KleeArray → Prop) (k : BinaryKind) (l r : Expr) :
    (∀ a ∈ (Expr.binary k l r).symbolicRoots, p a) ↔
      (∀ a ∈ l.symbolicRoots, p a) ∧ ∀ a ∈ r.symbolicRoots, p a := by
  simp [Expr.symbolicRoots, or_imp, forall_and]

theorem hereditary_over (as : List KleeArray) :
    Hereditary (Expr.Over as) (fun u => ∀ a ∈ u.symbolicRoots, a ∈ as) :=
  hereditary_roots (· ∈ as)

theorem over_binary (as : List KleeArray) (k : BinaryKind) (l r : Expr) :
    (Expr.binary k l r).Over as ↔ l.Over as ∧ r.Over as :=
  roots_binary (· ∈ as) k l r

mutual
/-- No divisor anywhere in the expression is zero under `σ`. -/
def Expr.defined (σ : Assignment) : Expr → Bool
  | .constant _ => true
  | .notOptimized s => s.defined σ
  | .read u i => u.defined σ && i.defined σ
  | .select c t f => c.defined σ && t.defined σ && f.defined σ
  | .concat l r => l.defined σ && r.defined σ
  | .extract e _ _ => e.defined σ
  | .not e => e.defined σ
  | .cast _ e _ => e.defined σ
  | .binary k l r => l.defined σ && r.defined σ && !(k.isDivision && (r.eval σ).isZero)
def UpdateList.defined (σ : Assignment) : UpdateList → Bool
  | .root _ => true
  | .node i v next => i.defined σ && v.defined σ && next.defined σ
end

theorem hereditary_defined (σ : Assignment) :
    Hereditary (fun e => e.defined σ = true) (fun u => u.defined σ = true) where
  constant _ := rfl
  notOptimized _ := by simp [Expr.defined]
  read _ _ := by simp [Expr.defined]
  select _ _ _ := by simp [Expr.defined, and_assoc]
  concat _ _ := by simp [Expr.defined]
  extract _ _ _ := by simp [Expr.defined]
  not _ := by simp [Expr.defined]
  cast _ _ _ := by simp [Expr.defined]
  binary _ _ _ hk := by simp [Expr.defined, hk]
  node _ _ _ := by simp [UpdateList.defined, and_assoc]

/-- A division whose divisor is not zero is built. -/
theorem divCreate_defined {σ : Assignment} {k : BinaryKind} {bool : Expr → Expr} {l r : Expr}
    (hb : (bool l).defined σ = true) (h : (Expr.binary k l r).defined σ = true)
    (hk : k.isDivision = true) : ∃ e, divCreate k bool l r = .ok e ∧ e.defined σ = true := by
  unfold divCreate
  split
  next cl cr =>
    have hz : cr.isZero = false := by simpa [Expr.defined, Expr.eval, hk] using h
    exact ⟨_, by rw [if_neg (by simp [hz])]; rfl, rfl⟩
  next =>
    refine ⟨_, rfl, ?_⟩
    split_ifs
    · exact hb
    · exact h

theorem BinaryExpr.create_defined {σ : Assignment} {k : BinaryKind} {l r : Expr}
    (h : (Expr.binary k l r).defined σ = true) :
    ∃ e, BinaryExpr.create k l r = .ok e ∧ e.defined σ = true := by
  have hlr : l.defined σ = true ∧ r.defined σ = true := by
    simp only [Expr.defined, Bool.and_eq_true] at h
    exact h.1
  cases hk : k.isDivision with
  | false => exact (hereditary_defined σ).binary_create hk hlr.1 hlr.2
  | true =>
    cases k with
    | UDiv | SDiv => exact divCreate_defined hlr.1 h hk
    | URem | SRem => exact divCreate_defined rfl h hk
    | _ => cases hk

namespace ExprReplaceVisitor

variable {src dst : Expr} {σ : Assignment}

theorem visitExpr_defined {e : Expr} {doChildren : Except Abort Expr} (hd : dst.defined σ = true)
    (h : ∃ e₁, doChildren = .ok e₁ ∧ e₁.defined σ = true) :
    ∃ e', visitExpr src dst e doChildren = .ok e' ∧ e'.defined σ = true := by
  obtain ⟨e₁, rfl, h₁⟩ := h
  unfold visitExpr
  split_ifs
  · exact ⟨dst, rfl, hd⟩
  · refine ⟨_, rfl, ?_⟩
    unfold visitExprPost
    split_ifs <;> assumption

/-- A visit returns when the expression has a value under an assignment that
justifies the replacement. -/
theorem visit_defined (hd : dst.defined σ = true) (hdw : dst.wellTyped = true)
    (hw : src.getWidth = dst.getWidth) (hσ : src.eval σ = dst.eval σ) :
    ∀ e : Expr, e.wellTyped = true → e.defined σ = true →
      ∃ e', visit src dst e = .ok e' ∧ e'.defined σ = true
  | .constant c, _, _ => ⟨_, rfl, rfl⟩
  | .notOptimized s, ht, h => by
    obtain ⟨s', hs, hs'⟩ := visit_defined hd hdw hw hσ s ht h
    refine visitExpr_defined hd ⟨_, bind_eq_ok.mpr ⟨s', hs, rfl⟩, ?_⟩
    split_ifs <;> assumption
  | .read u i, ht, h => by
    simp only [Expr.wellTyped, Bool.and_eq_true] at ht
    obtain ⟨hu, hi⟩ := ((hereditary_defined σ).read u i).mp h
    obtain ⟨i', hv, hi'⟩ := visit_defined hd hdw hw hσ i ht.1.2 hi
    refine visitExpr_defined hd ⟨_, bind_eq_ok.mpr ⟨i', hv, rfl⟩, ?_⟩
    split_ifs
    · exact h
    · exact (hereditary_defined σ).read_create hu hi'
  | .select c t f, ht, h => by
    simp only [Expr.wellTyped, Bool.and_eq_true] at ht
    obtain ⟨hc, htt, hf⟩ := ((hereditary_defined σ).select c t f).mp h
    obtain ⟨c', hvc, hc'⟩ := visit_defined hd hdw hw hσ c ht.1.1.1.1 hc
    obtain ⟨t', hvt, ht'⟩ := visit_defined hd hdw hw hσ t ht.1.1.1.2 htt
    obtain ⟨f', hvf, hf'⟩ := visit_defined hd hdw hw hσ f ht.1.1.2 hf
    refine visitExpr_defined hd ⟨_, bind_eq_ok.mpr ⟨c', hvc, bind_eq_ok.mpr ⟨t', hvt,
      bind_eq_ok.mpr ⟨f', hvf, rfl⟩⟩⟩, ?_⟩
    split_ifs
    · exact h
    · exact (hereditary_defined σ).select_create hc' ht' hf'
  | .concat l r, ht, h => by
    obtain ⟨hwl, hwr⟩ := Expr.wellTyped_concat.mp ht
    obtain ⟨hl, hr⟩ := ((hereditary_defined σ).concat l r).mp h
    obtain ⟨l', hvl, hl'⟩ := visit_defined hd hdw hw hσ l hwl hl
    obtain ⟨r', hvr, hr'⟩ := visit_defined hd hdw hw hσ r hwr hr
    refine visitExpr_defined hd ⟨_, bind_eq_ok.mpr ⟨l', hvl, bind_eq_ok.mpr ⟨r', hvr, rfl⟩⟩, ?_⟩
    split_ifs
    · exact h
    · exact (hereditary_defined σ).concat_create hl' hr'
  | .extract e off w, ht, h => by
    obtain ⟨e', hv, he'⟩ := visit_defined hd hdw hw hσ e (Expr.wellTyped_extract.mp ht).1 h
    refine visitExpr_defined hd ⟨_, bind_eq_ok.mpr ⟨e', hv, rfl⟩, ?_⟩
    split_ifs
    · exact h
    · exact (hereditary_defined σ).extract_create off w he'
  | .not e, ht, h => by
    obtain ⟨e', hv, he'⟩ := visit_defined hd hdw hw hσ e ht h
    refine visitExpr_defined hd ⟨_, bind_eq_ok.mpr ⟨e', hv, rfl⟩, ?_⟩
    split_ifs
    · exact h
    · exact (hereditary_defined σ).not_create he'
  | .cast k e w, ht, h => by
    simp only [Expr.wellTyped, Bool.and_eq_true] at ht
    obtain ⟨e', hv, he'⟩ := visit_defined hd hdw hw hσ e ht.1 h
    refine visitExpr_defined hd ⟨_, bind_eq_ok.mpr ⟨e', hv, rfl⟩, ?_⟩
    split_ifs
    · exact h
    · exact (hereditary_defined σ).cast_create w he'
  | .binary k l r, ht, h => by
    obtain ⟨hwl, hwr, -⟩ := Expr.wellTyped_operands ht
    have hdef := h
    simp only [Expr.defined, Bool.and_eq_true] at hdef
    obtain ⟨l', hvl, hl'⟩ := visit_defined hd hdw hw hσ l hwl hdef.1.1
    obtain ⟨r', hvr, hr'⟩ := visit_defined hd hdw hw hσ r hwr hdef.1.2
    -- the divisor keeps its value, so it is still not zero
    have hev := ((visits_of_visit hvr).agreesUnder hdw hw hwr).eval σ hσ
    have hb : (Expr.binary k l' r').defined σ = true := by
      simp only [Expr.defined, hl', hr', hev, Bool.true_and]
      exact hdef.2
    obtain ⟨e, he, hed⟩ := BinaryExpr.create_defined hb
    refine visitExpr_defined hd ?_
    by_cases hsame : l' = l ∧ r' = r
    · refine ⟨_, bind_eq_ok.mpr ⟨l', hvl, bind_eq_ok.mpr ⟨r', hvr, ?_⟩⟩, h⟩
      rw [if_pos hsame]
      rfl
    · refine ⟨e, bind_eq_ok.mpr ⟨l', hvl, bind_eq_ok.mpr ⟨r', hvr, ?_⟩⟩, hed⟩
      rw [if_neg hsame]
      exact he

end ExprReplaceVisitor

end TaseVerifier
