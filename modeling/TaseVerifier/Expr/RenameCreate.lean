import TaseVerifier.Expr.Rename

/-! The simplifying constructors compare their operands and look at constants only, so
that they commute with an injective renaming of arrays. -/

namespace TaseVerifier

section

variable {f : KleeArray → KleeArray}

theorem AndExpr.createPartial_rename (l : Expr) (c : APInt) :
    AndExpr.createPartial (l.rename f) c = (AndExpr.createPartial l c).rename f := by
  unfold AndExpr.createPartial
  split_ifs <;> simp

theorem AndExpr.create_rename (l r : Expr) :
    AndExpr.create (l.rename f) (r.rename f) = (AndExpr.create l r).rename f := by
  fun_cases AndExpr.create l r with
  | case1 cl cr => simp [AndExpr.create]
  | case2 cl r hr =>
    rw [AndExpr.createPartialR, ← AndExpr.createPartial_rename, Expr.rename_constant]
    exact AndExpr.create.eq_2 _ _ (Expr.rename_ne_constant hr)
  | case3 l cr hl =>
    rw [← AndExpr.createPartial_rename, Expr.rename_constant]
    exact AndExpr.create.eq_3 _ _ (Expr.rename_ne_constant hl)
  | case4 l r _ hl hr =>
    rw [Expr.rename_binary]
    exact AndExpr.create.eq_4 _ _ (Expr.rename_ne_constant hl) (Expr.rename_ne_constant hr)
      fun _ _ hc _ => Expr.rename_ne_constant hl _ hc

theorem OrExpr.createPartial_rename (l : Expr) (c : APInt) :
    OrExpr.createPartial (l.rename f) c = (OrExpr.createPartial l c).rename f := by
  unfold OrExpr.createPartial
  split_ifs <;> simp

theorem OrExpr.create_rename (l r : Expr) :
    OrExpr.create (l.rename f) (r.rename f) = (OrExpr.create l r).rename f := by
  fun_cases OrExpr.create l r with
  | case1 cl cr => simp [OrExpr.create]
  | case2 cl r hr =>
    rw [OrExpr.createPartialR, ← OrExpr.createPartial_rename, Expr.rename_constant]
    exact OrExpr.create.eq_2 _ _ (Expr.rename_ne_constant hr)
  | case3 l cr hl =>
    rw [← OrExpr.createPartial_rename, Expr.rename_constant]
    exact OrExpr.create.eq_3 _ _ (Expr.rename_ne_constant hl)
  | case4 l r _ hl hr =>
    rw [Expr.rename_binary]
    exact OrExpr.create.eq_4 _ _ (Expr.rename_ne_constant hl) (Expr.rename_ne_constant hr)
      fun _ _ hc _ => Expr.rename_ne_constant hl _ hc

theorem EqExpr.create'_rename (h : IsRenaming f symbolicArrays) (l r : Expr) :
    EqExpr.create' (l.rename f) (r.rename f) = (EqExpr.create' l r).rename f := by
  unfold EqExpr.create'
  simp only [h.expr_inj]
  split_ifs <;> simp

theorem EqExpr.foldOr_rename {e rest rest' : Expr} (c : APInt) (hrest : rest' = rest.rename f) :
    EqExpr.foldOr (e.rename f) c rest' = (EqExpr.foldOr e c rest).rename f := by
  subst hrest
  cases e <;> simp [EqExpr.foldOr, Expr.rename]

theorem EqExpr.createPartialR_rename (h : IsRenaming f symbolicArrays) (c : APInt) (r : Expr) :
    EqExpr.createPartialR c (r.rename f) = (EqExpr.createPartialR c r).rename f := by
  fun_induction EqExpr.createPartialR c r with
  | case1 c r hw hc =>
    unfold EqExpr.createPartialR
    rw [if_pos hw, if_pos hc]
  | case2 c hw hc d a hd =>
    unfold EqExpr.createPartialR
    simp [hw, hc, hd]
  | case3 c hw hc d a hd =>
    unfold EqExpr.createPartialR
    simp [hw, hc, hd, ← EqExpr.create'_rename h]
  | case4 c hw hc a b iha ihb =>
    conv_lhs => unfold EqExpr.createPartialR
    simp only [hw, hc, Expr.rename_binary, Expr.getWidth_rename, if_true, Bool.false_eq_true,
      if_false, ← AndExpr.create_rename]
    rw [EqExpr.foldOr_rename _ iha, EqExpr.foldOr_rename _ ihb]
  | case5 c hw hc r h₁ h₂ =>
    rw [← EqExpr.create'_rename h, Expr.rename_constant]
    unfold EqExpr.createPartialR
    rw [if_pos hw, if_neg hc]
    split
    next d a heq =>
      obtain ⟨b, rfl, -⟩ := Expr.rename_eq_binary_constant heq
      exact (h₁ _ _ rfl).elim
    next a b heq =>
      obtain ⟨a', b', rfl, -, -⟩ := Expr.rename_eq_binary heq
      exact (h₂ _ _ rfl).elim
    next => rfl
  | case6 c hw a w trunc hc ih | case8 c hw a w trunc hc ih =>
    conv_lhs => unfold EqExpr.createPartialR
    simp only [Expr.rename, Expr.getWidth_rename]
    rw [if_neg hw, if_pos hc]
    exact EqExpr.foldOr_rename _ ih
  | case7 c hw a w trunc hc | case9 c hw a w trunc hc =>
    conv_lhs => unfold EqExpr.createPartialR
    simp only [Expr.rename, Expr.getWidth_rename]
    rw [if_neg hw, if_neg hc, Expr.rename_alloc]
  | case10 c hw d b ih | case11 c hw d b ih =>
    conv_lhs => unfold EqExpr.createPartialR
    rw [if_neg hw]
    simpa using ih
  | case12 c hw r h₁ h₂ h₃ h₄ =>
    rw [← EqExpr.create'_rename h, Expr.rename_constant]
    unfold EqExpr.createPartialR
    rw [if_neg hw]
    split
    next a w heq =>
      obtain ⟨b, rfl, -⟩ := Expr.rename_eq_cast heq
      exact (h₁ _ _ rfl).elim
    next a w heq =>
      obtain ⟨b, rfl, -⟩ := Expr.rename_eq_cast heq
      exact (h₂ _ _ rfl).elim
    next k b heq =>
      obtain ⟨b, rfl, -⟩ := Expr.rename_eq_binary_constant heq
      exact (h₃ _ _ rfl).elim
    next k b heq =>
      obtain ⟨b, rfl, -⟩ := Expr.rename_eq_binary_constant heq
      exact (h₄ _ _ rfl).elim
    next => rfl

theorem EqExpr.create_rename (h : IsRenaming f symbolicArrays) (l r : Expr) :
    EqExpr.create (l.rename f) (r.rename f) = (EqExpr.create l r).rename f := by
  fun_cases EqExpr.create l r with
  | case1 cl cr => simp [EqExpr.create]
  | case2 cl r hr =>
    rw [← EqExpr.createPartialR_rename h, Expr.rename_constant]
    exact EqExpr.create.eq_2 _ _ (Expr.rename_ne_constant hr)
  | case3 l cr hl =>
    rw [EqExpr.createPartial, ← EqExpr.createPartialR_rename h, Expr.rename_constant]
    exact EqExpr.create.eq_3 _ _ (Expr.rename_ne_constant hl)
  | case4 l r _ hl hr =>
    rw [← EqExpr.create'_rename h]
    exact EqExpr.create.eq_4 _ _ (Expr.rename_ne_constant hl) (Expr.rename_ne_constant hr)
      fun _ _ hc _ => Expr.rename_ne_constant hl _ hc

theorem Expr.createIsZero_rename (h : IsRenaming f symbolicArrays) (e : Expr) :
    (e.rename f).createIsZero = e.createIsZero.rename f := by
  unfold Expr.createIsZero
  rw [← EqExpr.create_rename h, Expr.rename_alloc, Expr.getWidth_rename]

theorem XorExpr.createPartialR_rename (h : IsRenaming f symbolicArrays) (c : APInt) (r : Expr) :
    XorExpr.createPartialR c (r.rename f) = (XorExpr.createPartialR c r).rename f := by
  unfold XorExpr.createPartialR EqExpr.createPartial
  split_ifs
  · rfl
  · exact EqExpr.createPartialR_rename h _ r
  · simp

theorem XorExpr.create_rename (h : IsRenaming f symbolicArrays) (l r : Expr) :
    XorExpr.create (l.rename f) (r.rename f) = (XorExpr.create l r).rename f := by
  fun_cases XorExpr.create l r with
  | case1 cl cr => simp [XorExpr.create]
  | case2 cl r hr =>
    rw [← XorExpr.createPartialR_rename h, Expr.rename_constant]
    exact XorExpr.create.eq_2 _ _ (Expr.rename_ne_constant hr)
  | case3 l cr hl =>
    rw [XorExpr.createPartial, ← XorExpr.createPartialR_rename h, Expr.rename_constant]
    exact XorExpr.create.eq_3 _ _ (Expr.rename_ne_constant hl)
  | case4 l r _ hl hr =>
    rw [Expr.rename_binary]
    exact XorExpr.create.eq_4 _ _ (Expr.rename_ne_constant hl) (Expr.rename_ne_constant hr)
      fun _ _ hc _ => Expr.rename_ne_constant hl _ hc

theorem foldConst_rename {op : APInt → APInt → APInt} {c : APInt} {e rest rest' : Expr}
    (hrest : rest' = rest.rename f) :
    foldConst op c (e.rename f) rest' = (foldConst op c e rest).rename f := by
  subst hrest
  cases e <;> simp [foldConst, Expr.rename]

theorem add_sub_createPartialR_rename (h : IsRenaming f symbolicArrays) :
    (∀ (c : APInt) (r : Expr),
      AddExpr.createPartialR c (r.rename f) = (AddExpr.createPartialR c r).rename f) ∧
    ∀ (c : APInt) (r : Expr),
      SubExpr.createPartialR c (r.rename f) = (SubExpr.createPartialR c r).rename f := by
  refine AddExpr.createPartialR.mutual_induct
    (fun c r => AddExpr.createPartialR c (r.rename f) = (AddExpr.createPartialR c r).rename f)
    (fun c r => SubExpr.createPartialR c (r.rename f) = (SubExpr.createPartialR c r).rename f)
    ?_ ?_ ?_ ?_ ?_ ?_ ?_ ?_ ?_
  · intro r c hw
    unfold AddExpr.createPartialR
    rw [if_pos hw, if_pos hw]
    exact XorExpr.createPartialR_rename h c r
  · intro r c hw hz
    unfold AddExpr.createPartialR
    rw [if_neg hw, if_pos hz, if_neg hw, if_pos hz]
  · intro c hw hz d b ih
    rw [Expr.rename_binary, Expr.rename_constant]
    unfold AddExpr.createPartialR
    rw [if_neg hw, if_neg hz, if_neg hw, if_neg hz]
    exact foldConst_rename ih
  · intro c hw hz d b ih
    rw [Expr.rename_binary, Expr.rename_constant]
    unfold AddExpr.createPartialR
    rw [if_neg hw, if_neg hz, if_neg hw, if_neg hz]
    exact foldConst_rename ih
  · intro c hw hz r h₁ h₂
    unfold AddExpr.createPartialR
    simp only [if_neg hw, if_neg hz]
    split
    next d b heq =>
      obtain ⟨b, rfl, -⟩ := Expr.rename_eq_binary_constant heq
      exact absurd rfl (h₁ _ _)
    next d b heq =>
      obtain ⟨b, rfl, -⟩ := Expr.rename_eq_binary_constant heq
      exact absurd rfl (h₂ _ _)
    next => simp
  · intro r c hw
    unfold SubExpr.createPartialR
    rw [if_pos hw, if_pos hw]
    exact XorExpr.createPartialR_rename h c r
  · intro c hw d b ih
    rw [Expr.rename_binary, Expr.rename_constant]
    unfold SubExpr.createPartialR
    rw [if_neg hw, if_neg hw]
    exact foldConst_rename ih
  · intro c hw d b ih
    rw [Expr.rename_binary, Expr.rename_constant]
    unfold SubExpr.createPartialR
    rw [if_neg hw, if_neg hw]
    exact foldConst_rename ih
  · intro c hw r h₁ h₂
    unfold SubExpr.createPartialR
    simp only [if_neg hw]
    split
    next d b heq =>
      obtain ⟨b, rfl, -⟩ := Expr.rename_eq_binary_constant heq
      exact absurd rfl (h₁ _ _)
    next d b heq =>
      obtain ⟨b, rfl, -⟩ := Expr.rename_eq_binary_constant heq
      exact absurd rfl (h₂ _ _)
    next => simp

theorem AddExpr.createC_rename (h : IsRenaming f symbolicArrays) (c : APInt) (r : Expr) :
    AddExpr.createC c (r.rename f) = (AddExpr.createC c r).rename f :=
  foldConst_rename ((add_sub_createPartialR_rename h).1 c r)

theorem SubExpr.createC_rename (h : IsRenaming f symbolicArrays) (c : APInt) (r : Expr) :
    SubExpr.createC c (r.rename f) = (SubExpr.createC c r).rename f :=
  foldConst_rename ((add_sub_createPartialR_rename h).2 c r)

theorem SubExpr.createPartial_rename (h : IsRenaming f symbolicArrays) (l : Expr) (c : APInt) :
    SubExpr.createPartial (l.rename f) c = (SubExpr.createPartial l c).rename f :=
  (add_sub_createPartialR_rename h).1 _ l

theorem SubExpr.createCR_rename (h : IsRenaming f symbolicArrays) (l : Expr) (c : APInt) :
    SubExpr.createCR (l.rename f) c = (SubExpr.createCR l c).rename f := by
  fun_cases SubExpr.createCR l c with
  | case1 => simp [SubExpr.createCR]
  | case2 l hl =>
    rw [← SubExpr.createPartial_rename h]
    exact SubExpr.createCR.eq_2 _ _ (Expr.rename_ne_constant hl)

theorem AddExpr.create_bool {l r : Expr} (hl : ∀ c, l = .constant c → False)
    (hr : ∀ c, r = .constant c → False) (hw : l.getWidth = Width.Bool) :
    AddExpr.create l r = .binary .Xor l r := by
  unfold AddExpr.create
  split
  · exact (hl _ rfl).elim
  · exact (hl _ rfl).elim
  · exact (hr _ rfl).elim
  · rw [if_pos hw]

theorem SubExpr.create_bool {l r : Expr} (hl : ∀ c, l = .constant c → False)
    (hr : ∀ c, r = .constant c → False) (hw : l.getWidth = Width.Bool) :
    SubExpr.create l r = .binary .Xor l r := by
  unfold SubExpr.create
  split
  · exact (hl _ rfl).elim
  · exact (hl _ rfl).elim
  · exact (hr _ rfl).elim
  · rw [if_pos hw]

theorem SubExpr.create_self {l : Expr} (hl : ∀ c, l = .constant c → False)
    (hw : ¬ l.getWidth = Width.Bool) : SubExpr.create l l = .alloc 0 l.getWidth := by
  unfold SubExpr.create
  split
  · exact (hl _ rfl).elim
  · exact (hl _ rfl).elim
  · exact (hl _ rfl).elim
  · rw [if_neg hw, if_pos rfl]

theorem Expr.rename_ne_binary {e : Expr} {k : BinaryKind}
    (h : ∀ c a, e = .binary k (.constant c) a → False) (c : APInt) (a : Expr) :
    e.rename f = .binary k (.constant c) a → False := by
  intro he
  obtain ⟨b, rfl, -⟩ := Expr.rename_eq_binary_constant he
  exact h c b rfl

theorem add_sub_create_rename (h : IsRenaming f symbolicArrays) :
    (∀ l r : Expr, AddExpr.create (l.rename f) (r.rename f) = (AddExpr.create l r).rename f) ∧
      ∀ l r : Expr, SubExpr.create (l.rename f) (r.rename f) = (SubExpr.create l r).rename f := by
  refine AddExpr.create.mutual_induct
    (fun l r => AddExpr.create (l.rename f) (r.rename f) = (AddExpr.create l r).rename f)
    (fun l r => SubExpr.create (l.rename f) (r.rename f) = (SubExpr.create l r).rename f)
    ?add_constants ?add_constant_left ?add_constant_right ?add_bool ?add_left_add ?add_left_sub
    ?add_right_add ?add_right_sub ?add_plain ?sub_constants ?sub_constant_left
    ?sub_constant_right ?sub_bool ?sub_self ?sub_left_add ?sub_left_sub ?sub_right_add
    ?sub_right_sub ?sub_plain
  case add_constants =>
    intro cl cr
    simp [AddExpr.create]
  case add_constant_left =>
    intro cl r hr
    rw [Expr.rename_constant, AddExpr.create.eq_2 _ _ hr,
      AddExpr.create.eq_2 _ _ (Expr.rename_ne_constant hr)]
    exact (add_sub_createPartialR_rename h).1 cl r
  case add_constant_right =>
    intro l cr hl
    rw [Expr.rename_constant, AddExpr.create.eq_3 _ _ hl,
      AddExpr.create.eq_3 _ _ (Expr.rename_ne_constant hl)]
    exact (add_sub_createPartialR_rename h).1 cr l
  case add_bool =>
    intro l r _ hl hr hw
    rw [AddExpr.create_bool hl hr hw, AddExpr.create_bool (Expr.rename_ne_constant hl)
      (Expr.rename_ne_constant hr) (by rwa [Expr.getWidth_rename]), Expr.rename_binary]
  case add_left_add =>
    intro k a r h₁ hw hr h₂ ih
    have hw' : ¬ (Expr.binary .Add (.constant k) (a.rename f)).getWidth = Width.Bool := by
      simpa [Expr.getWidth] using hw
    rw [AddExpr.create.eq_4 r k a hr h₁ h₂, if_neg hw, Expr.rename_binary, Expr.rename_constant,
      AddExpr.create.eq_4 _ _ _ (Expr.rename_ne_constant hr) (by simp) (by simp), if_neg hw',
      ih, AddExpr.createC_rename h]
  case add_left_sub =>
    intro k a r h₁ hw hr h₂ ih
    have hw' : ¬ (Expr.binary .Sub (.constant k) (a.rename f)).getWidth = Width.Bool := by
      simpa [Expr.getWidth] using hw
    rw [AddExpr.create.eq_5 r k a hr h₁ h₂, if_neg hw, Expr.rename_binary, Expr.rename_constant,
      AddExpr.create.eq_5 _ _ _ (Expr.rename_ne_constant hr) (by simp) (by simp), if_neg hw',
      ih, AddExpr.createC_rename h]
  case add_right_add =>
    intro l k b h₁ h₂ hl hw h₃ h₄ ih
    have hw' : ¬ (l.rename f).getWidth = Width.Bool := by rwa [Expr.getWidth_rename]
    rw [AddExpr.create.eq_6 l k b hl h₁ h₂ h₃ h₄, if_neg hw, Expr.rename_binary,
      Expr.rename_constant, AddExpr.create.eq_6 _ _ _ (Expr.rename_ne_constant hl)
        (Expr.rename_ne_binary h₁) (Expr.rename_ne_binary h₂) (by simp) (by simp), if_neg hw',
      ih, AddExpr.createC_rename h]
  case add_right_sub =>
    intro l k b h₁ h₂ hl hw h₃ h₄ ih
    have hw' : ¬ (l.rename f).getWidth = Width.Bool := by rwa [Expr.getWidth_rename]
    rw [AddExpr.create.eq_7 l k b hl h₁ h₂ h₃ h₄, if_neg hw, Expr.rename_binary,
      Expr.rename_constant, AddExpr.create.eq_7 _ _ _ (Expr.rename_ne_constant hl)
        (Expr.rename_ne_binary h₁) (Expr.rename_ne_binary h₂) (by simp) (by simp), if_neg hw',
      ih, AddExpr.createC_rename h]
  case add_plain =>
    intro l r h₁ h₂ h₃ h₄ hl hw hr h₅
    have hw' : ¬ (l.rename f).getWidth = Width.Bool := by rwa [Expr.getWidth_rename]
    rw [AddExpr.create.eq_8 l r hl hr h₅ h₁ h₂ h₃ h₄, if_neg hw, AddExpr.create.eq_8 _ _
      (Expr.rename_ne_constant hl) (Expr.rename_ne_constant hr) (by simpa using h₅)
      (Expr.rename_ne_binary h₁) (Expr.rename_ne_binary h₂) (Expr.rename_ne_binary h₃)
      (Expr.rename_ne_binary h₄), if_neg hw', Expr.rename_binary]
  case sub_constants =>
    intro cl cr
    simp [SubExpr.create]
  case sub_constant_left =>
    intro cl r hr
    rw [Expr.rename_constant, SubExpr.create.eq_2 _ _ hr,
      SubExpr.create.eq_2 _ _ (Expr.rename_ne_constant hr)]
    exact (add_sub_createPartialR_rename h).2 cl r
  case sub_constant_right =>
    intro l cr hl
    rw [Expr.rename_constant, SubExpr.create.eq_3 _ _ hl,
      SubExpr.create.eq_3 _ _ (Expr.rename_ne_constant hl)]
    exact SubExpr.createPartial_rename h l cr
  case sub_bool =>
    intro l r _ hl hr hw
    rw [SubExpr.create_bool hl hr hw, SubExpr.create_bool (Expr.rename_ne_constant hl)
      (Expr.rename_ne_constant hr) (by rwa [Expr.getWidth_rename]), Expr.rename_binary]
  case sub_self =>
    intro r hr _ _ hw
    rw [SubExpr.create_self hr hw, SubExpr.create_self (Expr.rename_ne_constant hr)
      (by rwa [Expr.getWidth_rename]), Expr.getWidth_rename, Expr.rename_alloc]
  case sub_left_add =>
    intro k a r h₁ hw hr h₂ hne ih
    have hw' : ¬ (Expr.binary .Add (.constant k) (a.rename f)).getWidth = Width.Bool := by
      simpa [Expr.getWidth] using hw
    have hne' : ¬ Expr.binary .Add (.constant k) (a.rename f) = r.rename f := by
      simpa using h.expr_inj.not.mpr hne
    rw [SubExpr.create.eq_4 r k a hr h₁ h₂, if_neg hw, if_neg hne, Expr.rename_binary,
      Expr.rename_constant, SubExpr.create.eq_4 _ _ _ (Expr.rename_ne_constant hr) (by simp) (by simp), if_neg hw',
      if_neg hne', ih, AddExpr.createC_rename h]
  case sub_left_sub =>
    intro k a r h₁ hw hr h₂ hne ih
    have hw' : ¬ (Expr.binary .Sub (.constant k) (a.rename f)).getWidth = Width.Bool := by
      simpa [Expr.getWidth] using hw
    have hne' : ¬ Expr.binary .Sub (.constant k) (a.rename f) = r.rename f := by
      simpa using h.expr_inj.not.mpr hne
    rw [SubExpr.create.eq_5 r k a hr h₁ h₂, if_neg hw, if_neg hne, Expr.rename_binary,
      Expr.rename_constant, SubExpr.create.eq_5 _ _ _ (Expr.rename_ne_constant hr) (by simp) (by simp), if_neg hw',
      if_neg hne', ih, SubExpr.createC_rename h]
  case sub_right_add =>
    intro l k b h₁ h₂ hl hw h₃ h₄ hne ih
    have hw' : ¬ (l.rename f).getWidth = Width.Bool := by rwa [Expr.getWidth_rename]
    have hne' : ¬ l.rename f = .binary .Add (.constant k) (b.rename f) := by
      simpa using h.expr_inj.not.mpr hne
    rw [SubExpr.create.eq_6 l k b hl h₁ h₂ h₃ h₄, if_neg hw, if_neg hne, Expr.rename_binary,
      Expr.rename_constant, SubExpr.create.eq_6 _ _ _ (Expr.rename_ne_constant hl)
        (Expr.rename_ne_binary h₁) (Expr.rename_ne_binary h₂) (by simp) (by simp), if_neg hw',
      if_neg hne', ih, SubExpr.createCR_rename h]
  case sub_right_sub =>
    intro l k b h₁ h₂ hl hw h₃ h₄ hne ih
    have hw' : ¬ (l.rename f).getWidth = Width.Bool := by rwa [Expr.getWidth_rename]
    have hne' : ¬ l.rename f = .binary .Sub (.constant k) (b.rename f) := by
      simpa using h.expr_inj.not.mpr hne
    rw [SubExpr.create.eq_7 l k b hl h₁ h₂ h₃ h₄, if_neg hw, if_neg hne, Expr.rename_binary,
      Expr.rename_constant, SubExpr.create.eq_7 _ _ _ (Expr.rename_ne_constant hl)
        (Expr.rename_ne_binary h₁) (Expr.rename_ne_binary h₂) (by simp) (by simp), if_neg hw',
      if_neg hne', ih, SubExpr.createCR_rename h]
  case sub_plain =>
    intro l r h₁ h₂ h₃ h₄ hl hw hr h₅ hne
    have hw' : ¬ (l.rename f).getWidth = Width.Bool := by rwa [Expr.getWidth_rename]
    rw [SubExpr.create.eq_8 l r hl hr h₅ h₁ h₂ h₃ h₄, if_neg hw, if_neg hne, SubExpr.create.eq_8 _ _
      (Expr.rename_ne_constant hl) (Expr.rename_ne_constant hr) (by simpa using h₅)
      (Expr.rename_ne_binary h₁) (Expr.rename_ne_binary h₂) (Expr.rename_ne_binary h₃)
      (Expr.rename_ne_binary h₄), if_neg hw', if_neg (h.expr_inj.not.mpr hne), Expr.rename_binary]

theorem MulExpr.createPartialR_rename (c : APInt) (r : Expr) :
    MulExpr.createPartialR c (r.rename f) = (MulExpr.createPartialR c r).rename f := by
  unfold MulExpr.createPartialR AndExpr.createPartialR
  split_ifs
  · exact AndExpr.createPartial_rename r c
  · rfl
  · simp
  · simp

theorem MulExpr.create_rename (l r : Expr) :
    MulExpr.create (l.rename f) (r.rename f) = (MulExpr.create l r).rename f := by
  fun_cases MulExpr.create l r with
  | case1 cl cr => simp [MulExpr.create]
  | case2 cl r hr =>
    rw [← MulExpr.createPartialR_rename, Expr.rename_constant]
    exact MulExpr.create.eq_2 _ _ (Expr.rename_ne_constant hr)
  | case3 l cr hl =>
    rw [MulExpr.createPartial, ← MulExpr.createPartialR_rename, Expr.rename_constant]
    exact MulExpr.create.eq_3 _ _ (Expr.rename_ne_constant hl)
  | case4 l r _ hl hr hw | case5 l r _ hl hr hw =>
    rw [MulExpr.create.eq_4 _ _ (Expr.rename_ne_constant hl) (Expr.rename_ne_constant hr)
      fun _ _ hc _ => Expr.rename_ne_constant hl _ hc, Expr.getWidth_rename]
    simp [hw]

theorem divCreate_rename {k : BinaryKind} {bool : Expr → Expr}
    (hb : ∀ e : Expr, bool (e.rename f) = (bool e).rename f) (l r : Expr) :
    divCreate k bool (l.rename f) (r.rename f) = Expr.rename f <$> divCreate k bool l r := by
  fun_cases divCreate k bool l r with
  | case1 cl cr hz | case2 cl cr hz =>
    simp only [divCreate, Expr.rename_constant, hz]
    rfl
  | case3 l r h =>
    rw [divCreate.eq_2 _ _ _ _ (by simpa using h), Expr.getWidth_rename, hb]
    split_ifs <;> simp

theorem plainCreate_rename {k : BinaryKind} {bool : Expr → Expr → Expr} {l r : Expr}
    (hb : bool (l.rename f) (r.rename f) = (bool l r).rename f) :
    plainCreate k bool (l.rename f) (r.rename f) = (plainCreate k bool l r).rename f := by
  fun_cases plainCreate k bool l r with
  | case1 cl cr => simp [plainCreate]
  | case2 l r h hw | case3 l r h hw =>
    rw [plainCreate.eq_2 _ _ _ _ (by simpa using h), Expr.getWidth_rename, hb]
    simp [hw]

theorem BinaryExpr.create_rename (h : IsRenaming f symbolicArrays) (k : BinaryKind) (l r : Expr) :
    BinaryExpr.create k (l.rename f) (r.rename f) = Expr.rename f <$> BinaryExpr.create k l r := by
  have hz := Expr.createIsZero_rename h
  have hpure : ∀ {e e' : Expr}, e' = e.rename f → (pure e' : Except Abort Expr) = Expr.rename f <$> pure e :=
    fun he => he ▸ rfl
  cases k with
  | Add => exact hpure ((add_sub_create_rename h).1 l r)
  | Sub => exact hpure ((add_sub_create_rename h).2 l r)
  | Mul => exact hpure (MulExpr.create_rename l r)
  | UDiv | SDiv => exact divCreate_rename (fun e => (rfl : id (e.rename f) = (id e).rename f)) l r
  | URem | SRem => exact divCreate_rename (fun _ => (Expr.rename_alloc f _ _).symm) l r
  | And => exact hpure (AndExpr.create_rename l r)
  | Or => exact hpure (OrExpr.create_rename l r)
  | Xor => exact hpure (XorExpr.create_rename h l r)
  | Eq => exact hpure (EqExpr.create_rename h l r)
  | Ne =>
    have hne := EqExpr.create_rename h (.alloc 0 Width.Bool) (EqExpr.create l r)
    rw [Expr.rename_alloc, ← EqExpr.create_rename h l r] at hne
    exact hpure hne
  | Shl | LShr | Slt =>
    refine hpure (plainCreate_rename ?_)
    rw [hz, AndExpr.create_rename]
  | AShr => exact hpure (plainCreate_rename rfl)
  | Ult =>
    refine hpure (plainCreate_rename ?_)
    rw [hz, AndExpr.create_rename]
  | Ule =>
    refine hpure (plainCreate_rename ?_)
    rw [hz, OrExpr.create_rename]
  | Sle =>
    refine hpure (plainCreate_rename ?_)
    rw [hz, OrExpr.create_rename]
  | Ugt | Sgt =>
    refine hpure (plainCreate_rename ?_)
    rw [hz, AndExpr.create_rename]
  | Uge | Sge =>
    refine hpure (plainCreate_rename ?_)
    rw [hz, OrExpr.create_rename]

theorem ReadExpr.scan_rename (h : IsRenaming f symbolicArrays) (index : Expr) (u : UpdateList) :
    ReadExpr.scan (index.rename f) (u.rename f) = (ReadExpr.scan index u).map (Expr.rename f) id := by
  fun_induction ReadExpr.scan index u with
  | case1 a => simp only [UpdateList.rename, ReadExpr.scan, Sum.map_inr, id]
  | case2 i v next c hc ht =>
    simp only [UpdateList.rename, ReadExpr.scan, EqExpr.create_rename h, hc, Expr.rename_constant,
      ht, if_true, Sum.map_inl]
  | case3 i v next c hc ht ih =>
    simp only [UpdateList.rename, ReadExpr.scan, EqExpr.create_rename h, hc, Expr.rename_constant,
      ht, ih]
    rfl
  | case4 i v next hc =>
    simp only [UpdateList.rename, ReadExpr.scan, EqExpr.create_rename h]
    split
    next c heq => exact (hc c (Expr.rename_eq_constant.mp heq)).elim
    next => rfl

theorem ReadExpr.create_rename (h : IsRenaming f symbolicArrays) (u : UpdateList) (index : Expr) :
    ReadExpr.create (u.rename f) (index.rename f) = (ReadExpr.create u index).rename f := by
  unfold ReadExpr.create
  rw [ReadExpr.scan_rename h]
  cases hs : ReadExpr.scan index u with
  | inl v => simp
  | inr b =>
    have hconst : (u.array.rename f).isConstantArray = u.array.isConstantArray := by
      simp only [KleeArray.isConstantArray, h.isSymbolicArray_rename]
    simp only [Sum.map_inr, id, UpdateList.array_rename, hconst]
    split_ifs with hc
    · have hself : u.array.rename f = u.array := by
        have hsym : u.array.isSymbolicArray = false := by simp_all [KleeArray.isConstantArray]
        simp [KleeArray.rename, hsym]
      rw [hself]
      cases index with
      | constant c =>
        rw [Expr.rename_constant]
        dsimp only
        split_ifs <;> simp [Expr.rename]
      | _ => simp only [Expr.rename]
    · simp only [Expr.rename]

/-- A select of booleans with a condition that is not constant. -/
def SelectExpr.createBool (c t f : Expr) : Expr :=
  match t, f with
  | .constant ct, f => if ct.isTrue then OrExpr.create c f else AndExpr.create c.createIsZero f
  | t, .constant cf => if cf.isTrue then OrExpr.create c.createIsZero t else AndExpr.create c t
  | t, f => .select c t f

theorem SelectExpr.create_of_ne {c : Expr} (hc : ∀ k, c = .constant k → False) (t e : Expr) :
    SelectExpr.create c t e = if t = e then t else
      if t.getWidth = Width.Bool then SelectExpr.createBool c t e else .select c t e := by
  unfold SelectExpr.create
  split
  · exact (hc _ rfl).elim
  · rfl

theorem SelectExpr.createBool_rename (h : IsRenaming f symbolicArrays) (c t e : Expr) :
    SelectExpr.createBool (c.rename f) (t.rename f) (e.rename f) =
      (SelectExpr.createBool c t e).rename f := by
  have hz := Expr.createIsZero_rename h c
  fun_cases SelectExpr.createBool c t e with
  | case1 ct e ht =>
    simp only [SelectExpr.createBool, Expr.rename_constant, if_pos ht, OrExpr.create_rename]
  | case2 ct e ht =>
    simp only [SelectExpr.createBool, Expr.rename_constant, if_neg ht, hz, AndExpr.create_rename]
  | case3 t cf ht hf =>
    rw [Expr.rename_constant, SelectExpr.createBool.eq_2 _ _ _ (Expr.rename_ne_constant ht),
      if_pos hf, hz, OrExpr.create_rename]
  | case4 t cf ht hf =>
    rw [Expr.rename_constant, SelectExpr.createBool.eq_2 _ _ _ (Expr.rename_ne_constant ht),
      if_neg hf, AndExpr.create_rename]
  | case5 t e ht he =>
    rw [SelectExpr.createBool.eq_3 _ _ _ (Expr.rename_ne_constant ht) (Expr.rename_ne_constant he)]
    simp only [Expr.rename]

theorem SelectExpr.create_rename (h : IsRenaming f symbolicArrays) (c t e : Expr) :
    SelectExpr.create (c.rename f) (t.rename f) (e.rename f) =
      (SelectExpr.create c t e).rename f := by
  by_cases hc : ∃ k, c = .constant k
  · obtain ⟨k, rfl⟩ := hc
    simp only [SelectExpr.create, Expr.rename_constant]
    split_ifs <;> rfl
  · have hc' : ∀ k, c = .constant k → False := fun k hk => hc ⟨k, hk⟩
    rw [SelectExpr.create_of_ne hc', SelectExpr.create_of_ne (Expr.rename_ne_constant hc'),
      Expr.getWidth_rename]
    simp only [h.expr_inj]
    split_ifs
    · rfl
    · exact SelectExpr.createBool_rename h c t e
    · simp only [Expr.rename]

theorem ConcatExpr.merge_rename (h : IsRenaming f symbolicArrays)
    {extract : Expr → ℕ → ℕ → Expr}
    (hext : ∀ (e : Expr) (off w : ℕ), extract (e.rename f) off w = (extract e off w).rename f)
    (l r : Expr) :
    ConcatExpr.merge extract (l.rename f) (r.rename f) = (ConcatExpr.merge extract l r).rename f := by
  fun_cases ConcatExpr.merge extract l r with
  | case1 a b => simp [ConcatExpr.merge]
  | case2 e o w e' o' w' he =>
    simp only [Expr.rename, ConcatExpr.merge, h.expr_inj, if_pos he, hext]
  | case3 e o w e' o' w' hne =>
    simp only [Expr.rename, ConcatExpr.merge, h.expr_inj, if_neg hne]
  | case4 l r h₁ h₂ =>
    rw [ConcatExpr.merge.eq_3]
    · simp only [Expr.rename]
    · simpa using h₁
    · intro e o w e' o' w' hl hr
      obtain ⟨a, rfl, -⟩ := Expr.rename_eq_extract hl
      obtain ⟨b, rfl, -⟩ := Expr.rename_eq_extract hr
      exact h₂ _ _ _ _ _ _ rfl rfl

@[simp] theorem ExtractExpr.height_rename : ∀ e : Expr,
    ExtractExpr.height (e.rename f) = ExtractExpr.height e
  | .concat l r => by
    simp only [Expr.rename, ExtractExpr.height, height_rename l, height_rename r]
  | .extract e _ _ => by simp only [Expr.rename, ExtractExpr.height, height_rename e]
  | .constant _ | .notOptimized _ | .read _ _ | .select _ _ _ | .not _ | .cast _ _ _
  | .binary _ _ _ => by simp only [Expr.rename, ExtractExpr.height]

theorem ExtractExpr.createF_rename (h : IsRenaming f symbolicArrays) : ∀ (n : ℕ) (e : Expr)
    (off w : ℕ), ExtractExpr.createF n (e.rename f) off w = (ExtractExpr.createF n e off w).rename f
  | 0, e, off, w => by simp only [ExtractExpr.createF, Expr.rename]
  | n + 1, e, off, w => by
    unfold ExtractExpr.createF
    rw [Expr.getWidth_rename]
    split_ifs
    · rfl
    cases e with
    | constant c => simp
    | concat l r =>
      simp only [Expr.rename, Expr.getWidth_rename]
      split_ifs
      · exact createF_rename h n l _ w
      · exact createF_rename h n r off w
      · rw [createF_rename h n l, createF_rename h n r,
          ConcatExpr.merge_rename h (createF_rename h n)]
    | _ => simp only [Expr.rename]

theorem ExtractExpr.create_rename (h : IsRenaming f symbolicArrays) (e : Expr) (off w : ℕ) :
    ExtractExpr.create (e.rename f) off w = (ExtractExpr.create e off w).rename f := by
  rw [ExtractExpr.create, ExtractExpr.height_rename, ExtractExpr.createF_rename h]
  rfl

theorem ConcatExpr.create_rename (h : IsRenaming f symbolicArrays) (l r : Expr) :
    ConcatExpr.create (l.rename f) (r.rename f) = (ConcatExpr.create l r).rename f :=
  ConcatExpr.merge_rename h (ExtractExpr.create_rename h) l r

theorem NotExpr.create_rename (e : Expr) :
    NotExpr.create (e.rename f) = (NotExpr.create e).rename f := by
  cases e <;> simp only [Expr.rename, NotExpr.create]

theorem CastExpr.create_rename (h : IsRenaming f symbolicArrays) (k : CastKind) (e : Expr) (w : ℕ) :
    CastExpr.create k (e.rename f) w = (CastExpr.create k e w).rename f := by
  unfold CastExpr.create
  rw [Expr.getWidth_rename]
  split_ifs
  · rfl
  · exact ExtractExpr.create_rename h e 0 w
  · cases e <;> simp only [Expr.rename]

theorem Expr.rebuild_rename (h : IsRenaming f symbolicArrays) {e : Expr}
    (hne : ∀ u i, e ≠ .read u i) :
    e.rebuild (e.kids.map (Expr.rename f)) = Expr.rename f <$> e.rebuild e.kids := by
  cases e with
  | read u i => exact absurd rfl (hne u i)
  | constant c => exact congrArg pure (Expr.rename_constant f c).symm
  | notOptimized s => simp [Expr.kids, Expr.rebuild, NotOptimizedExpr.create, Expr.rename]
  | select c t e => simp [Expr.kids, Expr.rebuild, SelectExpr.create_rename h]
  | concat l r => simp [Expr.kids, Expr.rebuild, ConcatExpr.create_rename h]
  | extract e off w => simp [Expr.kids, Expr.rebuild, ExtractExpr.create_rename h]
  | not e => simp [Expr.kids, Expr.rebuild, NotExpr.create_rename]
  | cast k e w => simp [Expr.kids, Expr.rebuild, CastExpr.create_rename h]
  | binary k l r => exact BinaryExpr.create_rename h k l r

end

end TaseVerifier
