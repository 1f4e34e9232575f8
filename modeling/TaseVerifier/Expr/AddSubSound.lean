import TaseVerifier.Expr.EqSound

/-! Sums and differences keep the meaning. Their constructors call each other while
they collect the constants at the left end, so the two are treated together. -/

namespace TaseVerifier

section AddSub

variable {l r a b : Expr} {c d : APInt} {w : ℕ} {k : BinaryKind}

/-- A well-typed operand of width `w`. -/
def Operand (w : ℕ) (e : Expr) : Prop := e.wellTyped = true ∧ e.getWidth = w

def IsAddSub (k : BinaryKind) : Prop := k = .Add ∨ k = .Sub

theorem isAddSub_add : IsAddSub .Add := .inl rfl

theorem isAddSub_sub : IsAddSub .Sub := .inr rfl

theorem Operand.binary (hk : IsAddSub k) (hl : Operand w l) (hr : Operand w r) :
    Operand w (.binary k l r) := by
  rcases hk with rfl | rfl <;>
    exact ⟨Expr.wellTyped_binary hl.1 hr.1 (hl.2.trans hr.2.symm) rfl, hl.2⟩

theorem Operand.left_right (hk : IsAddSub k) (h : Operand w (.binary k l r)) :
    Operand w l ∧ Operand w r := by
  obtain ⟨hl, hr, hw⟩ := Expr.wellTyped_operands h.1
  have hlw : l.getWidth = w := by rcases hk with rfl | rfl <;> exact h.2
  exact ⟨⟨hl, hlw⟩, hr, hw.symm.trans hlw⟩

/-- Two nodes of one width agree by an identity between the values of three operands. -/
theorem agrees_of_identity {e e' x y z : Expr} (he : Operand w e) (he' : Operand w e')
    (hx : Operand w x) (hy : Operand w y) (hz : Operand w z)
    (heval : ∀ (σ : Assignment) (u v t : BitVec w), x.eval σ = ⟨w, u⟩ → y.eval σ = ⟨w, v⟩ →
      z.eval σ = ⟨w, t⟩ → e'.eval σ = e.eval σ) : Agrees e e' := by
  refine ⟨he'.1, he'.2.trans he.2.symm, fun σ => ?_⟩
  obtain ⟨u, hu⟩ := Expr.eval_mk hx.1 hx.2 σ
  obtain ⟨v, hv⟩ := Expr.eval_mk hy.1 hy.2 σ
  obtain ⟨t, ht⟩ := Expr.eval_mk hz.1 hz.2 σ
  exact heval σ u v t hu hv ht

theorem foldConst_agrees {rest : Expr} (h : Agrees (.binary k (.constant c) r) rest) :
    Agrees (.binary k (.constant c) r) (foldConst k.apply c r rest) := by
  cases r with
  | constant d => exact agrees_fold k c d
  | _ => exact h

theorem agrees_bool_xor (hk : IsAddSub k) (h : Operand 1 (.binary k l r)) :
    Agrees (.binary k l r) (.binary .Xor l r) := by
  obtain ⟨hl, hr⟩ := h.left_right hk
  refine ⟨Expr.wellTyped_binary hl.1 hr.1 (hl.2.trans hr.2.symm) rfl, ?_, fun σ => ?_⟩
  · rcases hk with rfl | rfl <;> rfl
  · obtain ⟨x, hx⟩ := Expr.eval_bool hl.1 hl.2 σ
    obtain ⟨y, hy⟩ := Expr.eval_bool hr.1 hr.2 σ
    rw [Expr.eval_binary, Expr.eval_binary, hx, hy]
    rcases hk with rfl | rfl <;> cases x <;> cases y <;> decide

/-- Two constants of a nested sum or difference are combined by `op`. -/
theorem agrees_regroup {k₁ k' : BinaryKind} (op : APInt → APInt → APInt)
    (hk : IsAddSub k) (hk₁ : IsAddSub k₁) (hk' : IsAddSub k')
    (hop : ∀ (w : ℕ) (x y z : BitVec w), ∃ u : BitVec w, op ⟨w, x⟩ ⟨w, y⟩ = ⟨w, u⟩ ∧
      k'.apply ⟨w, u⟩ ⟨w, z⟩ = k.apply ⟨w, x⟩ (k₁.apply ⟨w, y⟩ ⟨w, z⟩))
    (h : Operand w (.binary k (.constant c) (.binary k₁ (.constant d) b))) :
    Agrees (.binary k (.constant c) (.binary k₁ (.constant d) b))
      (.binary k' (.constant (op c d)) b) := by
  obtain ⟨hc, hr⟩ := h.left_right hk
  obtain ⟨hd, hb⟩ := hr.left_right hk₁
  obtain ⟨x, rfl⟩ := c.ofWidth hc.2
  obtain ⟨y, rfl⟩ := d.ofWidth hd.2
  obtain ⟨u, hu, -⟩ := hop w x y 0
  refine agrees_of_identity h (.binary hk' ⟨rfl, ?_⟩ hb) hb hb hb fun σ _ _ z _ _ hz => ?_
  · simp [hu]
  · obtain ⟨u, hu, hz'⟩ := hop w x y z
    simp only [Expr.eval_binary, Expr.eval_constant, hz, hu, hz']

mutual
theorem AddExpr.createPartialR_agrees (c : APInt) (r : Expr)
    (h : Operand c.width (.binary .Add (.constant c) r)) :
    Agrees (.binary .Add (.constant c) r) (AddExpr.createPartialR c r) := by
  unfold AddExpr.createPartialR
  split_ifs with h1 h2
  · have hx := agrees_bool_xor isAddSub_add (h1 ▸ h)
    exact hx.trans (XorExpr.createPartialR_agrees hx.wellTyped)
  · obtain ⟨-, hr⟩ := h.left_right isAddSub_add
    obtain ⟨w, y⟩ := c
    refine agrees_of_identity h hr hr hr hr fun σ x _ _ hx _ _ => ?_
    simp [Expr.eval, BinaryKind.apply, hx, (APInt.isZero_mk y).mp h2]
  · split
    next d b =>
      have hg := agrees_regroup APInt.add isAddSub_add isAddSub_add isAddSub_add
        (fun w x y z => ⟨x + y, by simp, by simp [BinaryKind.apply, BitVec.add_assoc]⟩) h
      exact hg.trans (foldConst_agrees (AddExpr.createPartialR_agrees _ b ⟨hg.wellTyped, rfl⟩))
    next d b =>
      have hg := agrees_regroup APInt.add isAddSub_add isAddSub_sub isAddSub_sub
        (fun w x y z => ⟨x + y, by simp, by simp [BinaryKind.apply]; grind⟩) h
      exact hg.trans (foldConst_agrees (SubExpr.createPartialR_agrees _ b ⟨hg.wellTyped, rfl⟩))
    next => exact .refl h.1
termination_by sizeOf r
theorem SubExpr.createPartialR_agrees (c : APInt) (r : Expr)
    (h : Operand c.width (.binary .Sub (.constant c) r)) :
    Agrees (.binary .Sub (.constant c) r) (SubExpr.createPartialR c r) := by
  unfold SubExpr.createPartialR
  split_ifs with h1
  · have hx := agrees_bool_xor isAddSub_sub (h1 ▸ h)
    exact hx.trans (XorExpr.createPartialR_agrees hx.wellTyped)
  · split
    next d b =>
      have hg := agrees_regroup APInt.sub isAddSub_sub isAddSub_add isAddSub_sub
        (fun w x y z => ⟨x - y, by simp, by simp [BinaryKind.apply]; grind⟩) h
      exact hg.trans (foldConst_agrees (SubExpr.createPartialR_agrees _ b ⟨hg.wellTyped, rfl⟩))
    next d b =>
      have hg := agrees_regroup APInt.sub isAddSub_sub isAddSub_sub isAddSub_add
        (fun w x y z => ⟨x - y, by simp, by simp [BinaryKind.apply]; grind⟩) h
      exact hg.trans (foldConst_agrees (AddExpr.createPartialR_agrees _ b ⟨hg.wellTyped, rfl⟩))
    next => exact .refl h.1
termination_by sizeOf r
end

theorem AddExpr.createC_agrees (h : (Expr.binary .Add (.constant c) r).wellTyped = true) :
    Agrees (.binary .Add (.constant c) r) (AddExpr.createC c r) :=
  foldConst_agrees (AddExpr.createPartialR_agrees c r ⟨h, rfl⟩)

theorem SubExpr.createC_agrees (h : (Expr.binary .Sub (.constant c) r).wellTyped = true) :
    Agrees (.binary .Sub (.constant c) r) (SubExpr.createC c r) :=
  foldConst_agrees (SubExpr.createPartialR_agrees c r ⟨h, rfl⟩)

theorem AddExpr.createPartial_agrees (h : (Expr.binary .Add l (.constant c)).wellTyped = true) :
    Agrees (.binary .Add l (.constant c)) (AddExpr.createPartial l c) := by
  have hc := agrees_comm h rfl fun w x y => by simp [BinaryKind.apply, BitVec.add_comm]
  exact hc.trans (AddExpr.createPartialR_agrees _ _ ⟨hc.wellTyped, rfl⟩)

theorem SubExpr.createPartial_agrees (h : (Expr.binary .Sub l (.constant c)).wellTyped = true) :
    Agrees (.binary .Sub l (.constant c)) (SubExpr.createPartial l c) := by
  obtain ⟨hl, hc⟩ := Operand.left_right isAddSub_sub ⟨h, rfl⟩
  obtain ⟨w, y⟩ := c
  have hw : l.getWidth = w := hc.2.symm
  have ha : Agrees (.binary .Sub l (.constant ⟨w, y⟩))
      (.binary .Add l (.constant ((APInt.ofNat w 0).sub ⟨w, y⟩))) := by
    refine agrees_of_identity ⟨h, hw⟩ (.binary isAddSub_add ⟨hl.1, hw⟩ ⟨rfl, rfl⟩) ⟨hl.1, hw⟩
      ⟨hl.1, hw⟩ ⟨hl.1, hw⟩ fun σ x _ _ hx _ _ => ?_
    have h0 : APInt.ofNat w 0 = ⟨w, 0#w⟩ := rfl
    simp only [Expr.eval, hx, h0, BinaryKind.apply, APInt.sub_mk, APInt.add_mk]
    grind
  exact ha.trans (AddExpr.createPartial_agrees ha.wellTyped)

theorem SubExpr.createCR_agrees (h : (Expr.binary .Sub l (.constant c)).wellTyped = true) :
    Agrees (.binary .Sub l (.constant c)) (SubExpr.createCR l c) := by
  cases l with
  | constant d => exact agrees_fold ..
  | _ => exact SubExpr.createPartial_agrees h

theorem AddExpr.createC_trans {e x x' : Expr} (h : Agrees e (.binary .Add (.constant c) x))
    (hx : Agrees x x') : Agrees e (AddExpr.createC c x') := by
  have hb := Agrees.binary h.wellTyped (.refl rfl) hx
  exact (h.trans hb).trans (AddExpr.createC_agrees hb.wellTyped)

theorem SubExpr.createC_trans {e x x' : Expr} (h : Agrees e (.binary .Sub (.constant c) x))
    (hx : Agrees x x') : Agrees e (SubExpr.createC c x') := by
  have hb := Agrees.binary h.wellTyped (.refl rfl) hx
  exact (h.trans hb).trans (SubExpr.createC_agrees hb.wellTyped)

theorem SubExpr.createCR_trans {e x x' : Expr} (h : Agrees e (.binary .Sub x (.constant c)))
    (hx : Agrees x x') : Agrees e (SubExpr.createCR x' c) := by
  have hb := Agrees.binary h.wellTyped hx (.refl rfl)
  exact (h.trans hb).trans (SubExpr.createCR_agrees hb.wellTyped)

mutual
theorem AddExpr.create_agrees (l r : Expr) (h : Operand w (.binary .Add l r)) :
    Agrees (.binary .Add l r) (AddExpr.create l r) := by
  obtain ⟨hl, hr⟩ := h.left_right isAddSub_add
  unfold AddExpr.create
  split
  · exact agrees_fold ..
  · exact AddExpr.createPartialR_agrees _ _ ⟨h.1, rfl⟩
  · exact AddExpr.createPartial_agrees h.1
  split_ifs with h1
  · exact agrees_bool_xor isAddSub_add ⟨h.1, h1⟩
  split
  · obtain ⟨hk, ha⟩ := hl.left_right isAddSub_add
    have hi := Operand.binary isAddSub_add ha hr
    refine AddExpr.createC_trans (agrees_of_identity h (.binary isAddSub_add hk hi) hk ha hr
      fun σ x y z hx hy hz => ?_) (AddExpr.create_agrees _ _ hi)
    simp only [Expr.eval_binary, hx, hy, hz, BinaryKind.apply, APInt.add_mk]
    grind
  · obtain ⟨hk, ha⟩ := hl.left_right isAddSub_sub
    have hi := Operand.binary isAddSub_sub hr ha
    refine AddExpr.createC_trans (agrees_of_identity h (.binary isAddSub_add hk hi) hk ha hr
      fun σ x y z hx hy hz => ?_) (SubExpr.create_agrees _ _ hi)
    simp only [Expr.eval_binary, hx, hy, hz, BinaryKind.apply, APInt.add_mk, APInt.sub_mk]
    grind
  · obtain ⟨hk, hb⟩ := hr.left_right isAddSub_add
    have hi := Operand.binary isAddSub_add hl hb
    refine AddExpr.createC_trans (agrees_of_identity h (.binary isAddSub_add hk hi) hk hb hl
      fun σ x y z hx hy hz => ?_) (AddExpr.create_agrees _ _ hi)
    simp only [Expr.eval_binary, hx, hy, hz, BinaryKind.apply, APInt.add_mk]
    grind
  · obtain ⟨hk, hb⟩ := hr.left_right isAddSub_sub
    have hi := Operand.binary isAddSub_sub hl hb
    refine AddExpr.createC_trans (agrees_of_identity h (.binary isAddSub_add hk hi) hk hb hl
      fun σ x y z hx hy hz => ?_) (SubExpr.create_agrees _ _ hi)
    simp only [Expr.eval_binary, hx, hy, hz, BinaryKind.apply, APInt.add_mk, APInt.sub_mk]
    grind
  · exact .refl h.1
termination_by sizeOf l + sizeOf r
theorem SubExpr.create_agrees (l r : Expr) (h : Operand w (.binary .Sub l r)) :
    Agrees (.binary .Sub l r) (SubExpr.create l r) := by
  obtain ⟨hl, hr⟩ := h.left_right isAddSub_sub
  unfold SubExpr.create
  split
  · exact agrees_fold ..
  · exact SubExpr.createPartialR_agrees _ _ ⟨h.1, rfl⟩
  · exact SubExpr.createPartial_agrees h.1
  split_ifs with h1 h2
  · exact agrees_bool_xor isAddSub_sub ⟨h.1, h1⟩
  · subst h2
    refine agrees_of_identity h ⟨rfl, hl.2⟩ hl hl hl fun σ x _ _ hx _ _ => ?_
    obtain rfl := hl.2
    simp only [Expr.eval_binary, hx, BinaryKind.apply, APInt.sub_mk, BitVec.sub_self]
    rfl
  split
  · obtain ⟨hk, ha⟩ := hl.left_right isAddSub_add
    have hi := Operand.binary isAddSub_sub ha hr
    refine AddExpr.createC_trans (agrees_of_identity h (.binary isAddSub_add hk hi) hk ha hr
      fun σ x y z hx hy hz => ?_) (SubExpr.create_agrees _ _ hi)
    simp only [Expr.eval_binary, hx, hy, hz, BinaryKind.apply, APInt.add_mk, APInt.sub_mk]
    grind
  · obtain ⟨hk, ha⟩ := hl.left_right isAddSub_sub
    have hi := Operand.binary isAddSub_add ha hr
    refine SubExpr.createC_trans (agrees_of_identity h (.binary isAddSub_sub hk hi) hk ha hr
      fun σ x y z hx hy hz => ?_) (AddExpr.create_agrees _ _ hi)
    simp only [Expr.eval_binary, hx, hy, hz, BinaryKind.apply, APInt.add_mk, APInt.sub_mk]
    grind
  · obtain ⟨hk, hb⟩ := hr.left_right isAddSub_add
    have hi := Operand.binary isAddSub_sub hl hb
    refine SubExpr.createCR_trans (agrees_of_identity h (.binary isAddSub_sub hi hk) hk hb hl
      fun σ x y z hx hy hz => ?_) (SubExpr.create_agrees _ _ hi)
    simp only [Expr.eval_binary, hx, hy, hz, BinaryKind.apply, APInt.add_mk, APInt.sub_mk]
    grind
  · obtain ⟨hk, hb⟩ := hr.left_right isAddSub_sub
    have hi := Operand.binary isAddSub_add hl hb
    refine SubExpr.createCR_trans (agrees_of_identity h (.binary isAddSub_sub hi hk) hk hb hl
      fun σ x y z hx hy hz => ?_) (AddExpr.create_agrees _ _ hi)
    simp only [Expr.eval_binary, hx, hy, hz, BinaryKind.apply, APInt.add_mk, APInt.sub_mk]
    grind
  · exact .refl h.1
termination_by sizeOf l + sizeOf r
end

end AddSub

end TaseVerifier
