import Mathlib.Order.Basic
import TaseVerifier.Expr.Visitor

/-! A weight of expressions that no constructor increases and that every replacement
of a subexpression by a constant decreases. It bounds the rewriting that adding a
constraint sets off. -/

namespace TaseVerifier

/-- What a binary node weighs beyond its operands. A kind whose boolean form has
more nodes weighs as much as that form. -/
def BinaryKind.weight : BinaryKind → ℕ
  | .Or | .Shl | .LShr | .Ult | .Slt | .Ugt | .Sgt | .Ne => 2
  | .Ule | .Sle | .Uge | .Sge => 3
  | _ => 1

mutual
/-- Constants weigh nothing; extracts and casts count their operand twice, since
they are spread over the parts of a concatenation. -/
def Expr.weight : Expr → ℕ
  | .constant _ => 0
  | .notOptimized s => s.weight + 1
  | .read u i => u.weight + i.weight + 1
  | .select c t f => c.weight + t.weight + f.weight + 3
  | .concat l r => l.weight + r.weight + 1
  | .extract e _ _ => 2 * e.weight + 1
  | .not e => e.weight + 1
  | .cast _ e _ => 2 * e.weight + 1
  | .binary k l r => l.weight + r.weight + k.weight
def UpdateList.weight : UpdateList → ℕ
  | .root _ => 0
  | .node i v next => i.weight + v.weight + next.weight
end

section

attribute [local simp] BinaryKind.weight Expr.weight

theorem BinaryKind.weight_pos (k : BinaryKind) : 0 < k.weight := by
  cases k <;> simp

theorem Expr.weight_pos {e : Expr} (h : e.isConstant = false) : 0 < e.weight := by
  cases e with
  | constant c => cases h
  | binary k l r =>
    have := k.weight_pos
    simp only [Expr.weight]
    omega
  | _ => simp

end

@[simp] theorem Expr.weight_constant (c : APInt) : (Expr.constant c).weight = 0 := rfl
@[simp] theorem Expr.weight_alloc (v w : ℕ) : (Expr.alloc v w).weight = 0 := rfl

theorem AndExpr.weight_create (l r : Expr) :
    (AndExpr.create l r).weight ≤ l.weight + r.weight + 1 := by
  unfold AndExpr.create AndExpr.createPartialR AndExpr.createPartial
  split <;> (try split_ifs) <;> simp only [Expr.weight, BinaryKind.weight] <;> omega

theorem OrExpr.weight_create (l r : Expr) :
    (OrExpr.create l r).weight ≤ l.weight + r.weight + 2 := by
  unfold OrExpr.create OrExpr.createPartialR OrExpr.createPartial
  split <;> (try split_ifs) <;> simp only [Expr.weight, BinaryKind.weight] <;> omega

theorem EqExpr.weight_create' (l r : Expr) :
    (EqExpr.create' l r).weight ≤ l.weight + r.weight + 1 := by
  unfold EqExpr.create'
  split_ifs <;> simp only [Expr.weight, Expr.weight_alloc, BinaryKind.weight] <;> omega

theorem EqExpr.weight_foldOr (e : Expr) (c : APInt) (rest : Expr) {n : ℕ}
    (h : rest.weight ≤ n) : (EqExpr.foldOr e c rest).weight ≤ n := by
  cases e <;> simp [EqExpr.foldOr, h]

theorem EqExpr.weight_createPartialR (c : APInt) (r : Expr) :
    (EqExpr.createPartialR c r).weight ≤ r.weight + 1 := by
  fun_induction EqExpr.createPartialR c r with
  | case1 => omega
  | case2 => simp only [Expr.weight, BinaryKind.weight]; omega
  | case3 => exact (EqExpr.weight_create' _ _).trans (by simp)
  | case4 c hw hc a b iha ihb =>
    have ha := EqExpr.weight_foldOr a (APInt.ofNat a.getWidth 0) _ iha
    have hb := EqExpr.weight_foldOr b (APInt.ofNat b.getWidth 0) _ ihb
    have hand := AndExpr.weight_create
      (EqExpr.foldOr a (APInt.ofNat a.getWidth 0) (EqExpr.createPartialR (APInt.ofNat a.getWidth 0) a))
      (EqExpr.foldOr b (APInt.ofNat b.getWidth 0) (EqExpr.createPartialR (APInt.ofNat b.getWidth 0) b))
    simp only [Expr.weight, BinaryKind.weight]
    omega
  | case5 => exact (EqExpr.weight_create' _ _).trans (by simp)
  | case6 c hw a w trunc hc ih | case8 c hw a w trunc hc ih =>
    refine EqExpr.weight_foldOr _ _ _ (ih.trans ?_)
    simp only [Expr.weight]
    omega
  | case7 | case9 => simp
  | case10 c hw d b ih | case11 c hw d b ih =>
    refine ih.trans ?_
    simp [Expr.weight, BinaryKind.weight]
  | case12 => exact (EqExpr.weight_create' _ _).trans (by simp)

theorem EqExpr.weight_create (l r : Expr) :
    (EqExpr.create l r).weight ≤ l.weight + r.weight + 1 := by
  unfold EqExpr.create
  split
  · simp
  · exact (EqExpr.weight_createPartialR _ _).trans (by simp)
  · exact (EqExpr.weight_createPartialR _ _).trans (by simp)
  · exact EqExpr.weight_create' _ _

theorem Expr.weight_createIsZero (e : Expr) : e.createIsZero.weight ≤ e.weight + 1 :=
  (EqExpr.weight_create _ _).trans (by simp)

theorem XorExpr.weight_createPartialR (c : APInt) (r : Expr) :
    (XorExpr.createPartialR c r).weight ≤ r.weight + 1 := by
  unfold XorExpr.createPartialR
  split_ifs
  · omega
  · exact EqExpr.weight_createPartialR _ _
  · simp [Expr.weight, BinaryKind.weight]

theorem XorExpr.weight_create (l r : Expr) :
    (XorExpr.create l r).weight ≤ l.weight + r.weight + 1 := by
  unfold XorExpr.create
  split
  · simp
  · exact (XorExpr.weight_createPartialR _ _).trans (by simp)
  · exact (XorExpr.weight_createPartialR _ _).trans (by simp)
  · simp [Expr.weight, BinaryKind.weight]

theorem weight_foldConst (op : APInt → APInt → APInt) (c : APInt) (e rest : Expr) {n : ℕ}
    (h : rest.weight ≤ n) : (foldConst op c e rest).weight ≤ n := by
  cases e <;> simp [foldConst, h]

theorem weight_createPartialR :
    (∀ (c : APInt) (r : Expr), (AddExpr.createPartialR c r).weight ≤ r.weight + 1) ∧
      ∀ (c : APInt) (r : Expr), (SubExpr.createPartialR c r).weight ≤ r.weight + 1 := by
  refine AddExpr.createPartialR.mutual_induct
    (fun c r => (AddExpr.createPartialR c r).weight ≤ r.weight + 1)
    (fun c r => (SubExpr.createPartialR c r).weight ≤ r.weight + 1)
    ?_ ?_ ?_ ?_ ?_ ?_ ?_ ?_ ?_
  · intro r c hw
    unfold AddExpr.createPartialR
    rw [if_pos hw]
    exact XorExpr.weight_createPartialR c r
  · intro r c hw hz
    unfold AddExpr.createPartialR
    rw [if_neg hw, if_pos hz]
    omega
  · intro c hw hz d b ih
    unfold AddExpr.createPartialR
    rw [if_neg hw, if_neg hz]
    exact weight_foldConst _ _ _ _ (ih.trans (by simp [Expr.weight, BinaryKind.weight]))
  · intro c hw hz d b ih
    unfold AddExpr.createPartialR
    rw [if_neg hw, if_neg hz]
    exact weight_foldConst _ _ _ _ (ih.trans (by simp [Expr.weight, BinaryKind.weight]))
  · intro c hw hz r h1 h2
    unfold AddExpr.createPartialR
    rw [if_neg hw, if_neg hz]
    split
    · exact absurd rfl (h1 _ _)
    · exact absurd rfl (h2 _ _)
    · simp [Expr.weight, BinaryKind.weight]
  · intro r c hw
    unfold SubExpr.createPartialR
    rw [if_pos hw]
    exact XorExpr.weight_createPartialR c r
  · intro c hw d b ih
    unfold SubExpr.createPartialR
    rw [if_neg hw]
    exact weight_foldConst _ _ _ _ (ih.trans (by simp [Expr.weight, BinaryKind.weight]))
  · intro c hw d b ih
    unfold SubExpr.createPartialR
    rw [if_neg hw]
    exact weight_foldConst _ _ _ _ (ih.trans (by simp [Expr.weight, BinaryKind.weight]))
  · intro c hw r h1 h2
    unfold SubExpr.createPartialR
    rw [if_neg hw]
    split
    · exact absurd rfl (h1 _ _)
    · exact absurd rfl (h2 _ _)
    · simp [Expr.weight, BinaryKind.weight]

theorem AddExpr.weight_createC (c : APInt) (r : Expr) :
    (AddExpr.createC c r).weight ≤ r.weight + 1 :=
  weight_foldConst _ _ _ _ (weight_createPartialR.1 c r)

theorem SubExpr.weight_createC (c : APInt) (r : Expr) :
    (SubExpr.createC c r).weight ≤ r.weight + 1 :=
  weight_foldConst _ _ _ _ (weight_createPartialR.2 c r)

theorem SubExpr.weight_createCR (l : Expr) (c : APInt) :
    (SubExpr.createCR l c).weight ≤ l.weight + 1 := by
  unfold SubExpr.createCR
  split
  · simp
  · exact weight_createPartialR.1 _ _

mutual
theorem AddExpr.weight_create (l r : Expr) :
    (AddExpr.create l r).weight ≤ l.weight + r.weight + 1 := by
  unfold AddExpr.create
  split
  · simp
  · exact (weight_createPartialR.1 _ _).trans (by simp)
  · exact (weight_createPartialR.1 _ _).trans (by simp)
  split_ifs
  · simp [Expr.weight, BinaryKind.weight]
  split
  · refine (AddExpr.weight_createC _ _).trans ((Nat.succ_le_succ (AddExpr.weight_create _ _)).trans ?_)
    simp only [Expr.weight, BinaryKind.weight]
    omega
  · refine (AddExpr.weight_createC _ _).trans ((Nat.succ_le_succ (SubExpr.weight_create _ _)).trans ?_)
    simp only [Expr.weight, BinaryKind.weight]
    omega
  · refine (AddExpr.weight_createC _ _).trans ((Nat.succ_le_succ (AddExpr.weight_create _ _)).trans ?_)
    simp only [Expr.weight, BinaryKind.weight]
    omega
  · refine (AddExpr.weight_createC _ _).trans ((Nat.succ_le_succ (SubExpr.weight_create _ _)).trans ?_)
    simp only [Expr.weight, BinaryKind.weight]
    omega
  · simp [Expr.weight, BinaryKind.weight]
termination_by sizeOf l + sizeOf r
theorem SubExpr.weight_create (l r : Expr) :
    (SubExpr.create l r).weight ≤ l.weight + r.weight + 1 := by
  unfold SubExpr.create
  split
  · simp
  · exact (weight_createPartialR.2 _ _).trans (by simp)
  · exact (weight_createPartialR.1 _ _).trans (by simp)
  split_ifs
  · simp [Expr.weight, BinaryKind.weight]
  · simp
  split
  · refine (AddExpr.weight_createC _ _).trans ((Nat.succ_le_succ (SubExpr.weight_create _ _)).trans ?_)
    simp only [Expr.weight, BinaryKind.weight]
    omega
  · refine (SubExpr.weight_createC _ _).trans ((Nat.succ_le_succ (AddExpr.weight_create _ _)).trans ?_)
    simp only [Expr.weight, BinaryKind.weight]
    omega
  · refine (SubExpr.weight_createCR _ _).trans ((Nat.succ_le_succ (SubExpr.weight_create _ _)).trans ?_)
    simp only [Expr.weight, BinaryKind.weight]
    omega
  · refine (SubExpr.weight_createCR _ _).trans ((Nat.succ_le_succ (AddExpr.weight_create _ _)).trans ?_)
    simp only [Expr.weight, BinaryKind.weight]
    omega
  · simp [Expr.weight, BinaryKind.weight]
termination_by sizeOf l + sizeOf r
end

theorem MulExpr.weight_create (l r : Expr) :
    (MulExpr.create l r).weight ≤ l.weight + r.weight + 1 := by
  unfold MulExpr.create MulExpr.createPartial MulExpr.createPartialR AndExpr.createPartialR
    AndExpr.createPartial
  split <;> (try split_ifs) <;> simp only [Expr.weight, BinaryKind.weight] <;> omega

theorem weight_plainCreate {k : BinaryKind} {bool : Expr → Expr → Expr} (l r : Expr)
    (h : (bool l r).weight ≤ l.weight + r.weight + k.weight) :
    (plainCreate k bool l r).weight ≤ l.weight + r.weight + k.weight := by
  unfold plainCreate
  split
  · simp
  · split_ifs
    · exact h
    · simp [Expr.weight]

theorem weight_divCreate {k : BinaryKind} {bool : Expr → Expr} {l r e : Expr}
    (hb : (bool l).weight ≤ l.weight) (h : divCreate k bool l r = .ok e) :
    e.weight ≤ l.weight + r.weight + k.weight := by
  unfold divCreate at h
  split at h
  · split at h <;> cases h
    simp
  · cases h
    split_ifs
    · omega
    · simp [Expr.weight]

/-- No binary constructor returns more than its plain node weighs. -/
theorem BinaryExpr.weight_create {k : BinaryKind} {l r e : Expr}
    (h : BinaryExpr.create k l r = .ok e) : e.weight ≤ l.weight + r.weight + k.weight := by
  have hl := l.weight_createIsZero
  have hr := r.weight_createIsZero
  cases k with
  | UDiv | SDiv => exact weight_divCreate le_rfl h
  | URem | SRem => exact weight_divCreate (by simp) h
  | Add => cases h; exact AddExpr.weight_create l r
  | Sub => cases h; exact SubExpr.weight_create l r
  | Mul => cases h; exact MulExpr.weight_create l r
  | And => cases h; exact AndExpr.weight_create l r
  | Or => cases h; exact OrExpr.weight_create l r
  | Xor => cases h; exact XorExpr.weight_create l r
  | Eq => cases h; exact EqExpr.weight_create l r
  | Ne =>
    cases h
    have := EqExpr.weight_create l r
    refine (EqExpr.weight_create _ _).trans ?_
    simp only [Expr.weight_alloc, BinaryKind.weight]
    omega
  | Shl | LShr | Slt =>
    cases h
    refine weight_plainCreate l r ((AndExpr.weight_create _ _).trans ?_)
    simp only [BinaryKind.weight]
    omega
  | AShr => cases h; exact weight_plainCreate l r (by omega)
  | Ult =>
    cases h
    refine weight_plainCreate l r ((AndExpr.weight_create _ _).trans ?_)
    simp only [BinaryKind.weight]
    omega
  | Ule | Sle =>
    cases h
    refine weight_plainCreate l r ((OrExpr.weight_create _ _).trans ?_)
    simp only [BinaryKind.weight]
    omega
  | Ugt =>
    cases h
    rw [Nat.add_comm l.weight]
    refine weight_plainCreate (k := .Ult) r l ((AndExpr.weight_create _ _).trans ?_)
    simp only [BinaryKind.weight]
    omega
  | Uge =>
    cases h
    rw [Nat.add_comm l.weight]
    refine weight_plainCreate (k := .Ule) r l ((OrExpr.weight_create _ _).trans ?_)
    simp only [BinaryKind.weight]
    omega
  | Sgt =>
    cases h
    rw [Nat.add_comm l.weight]
    refine weight_plainCreate (k := .Slt) r l ((AndExpr.weight_create _ _).trans ?_)
    simp only [BinaryKind.weight]
    omega
  | Sge =>
    cases h
    rw [Nat.add_comm l.weight]
    refine weight_plainCreate (k := .Sle) r l ((OrExpr.weight_create _ _).trans ?_)
    simp only [BinaryKind.weight]
    omega

theorem ReadExpr.weight_scan {index v : Expr} {ul : UpdateList}
    (h : ReadExpr.scan index ul = .inl v) : v.weight ≤ ul.weight := by
  fun_induction ReadExpr.scan index ul with
  | case1 => cases h
  | case2 =>
    cases h
    simp only [UpdateList.weight]
    omega
  | case3 i v next c _ _ ih =>
    have := ih h
    simp only [UpdateList.weight]
    omega
  | case4 => cases h

theorem ReadExpr.weight_create (ul : UpdateList) (index : Expr) :
    (ReadExpr.create ul index).weight ≤ ul.weight + index.weight + 1 := by
  unfold ReadExpr.create
  split
  next v hv =>
    have := ReadExpr.weight_scan hv
    omega
  next =>
    split_ifs
    · split
      · split_ifs <;> simp [Expr.weight]
      · simp [Expr.weight]
    · simp [Expr.weight]

theorem SelectExpr.weight_create (c t f : Expr) :
    (SelectExpr.create c t f).weight ≤ c.weight + t.weight + f.weight + 3 := by
  have hz := c.weight_createIsZero
  unfold SelectExpr.create
  split
  · split_ifs <;> omega
  split_ifs
  · omega
  · split
    · split_ifs
      · have := OrExpr.weight_create c f
        omega
      · have := AndExpr.weight_create c.createIsZero f
        omega
    · split_ifs
      · have := OrExpr.weight_create c.createIsZero t
        omega
      · have := AndExpr.weight_create c t
        omega
    · simp [Expr.weight]
  · simp [Expr.weight]

theorem ConcatExpr.weight_merge {extract : Expr → ℕ → ℕ → Expr}
    (hext : ∀ e off w, (extract e off w).weight ≤ 2 * e.weight + 1) (l r : Expr) :
    (ConcatExpr.merge extract l r).weight ≤ l.weight + r.weight + 1 := by
  unfold ConcatExpr.merge
  split
  · simp
  next e o w e' o' w' =>
    split_ifs
    · have := hext e o' (w + w')
      simp only [Expr.weight]
      omega
    · simp [Expr.weight]
  · simp [Expr.weight]

theorem ExtractExpr.weight_createF (n : ℕ) (e : Expr) (off w : ℕ) :
    (ExtractExpr.createF n e off w).weight ≤ 2 * e.weight + 1 := by
  induction n generalizing e off w with
  | zero => simp [ExtractExpr.createF, Expr.weight]
  | succ n ih =>
    unfold ExtractExpr.createF
    split_ifs
    · omega
    split
    · simp
    next l r _ =>
      have hl := ih l
      have hr := ih r
      simp only [Expr.weight]
      split_ifs
      · have := hl (off - r.getWidth) w
        omega
      · have := hr off w
        omega
      · have hm := ConcatExpr.weight_merge ih (ExtractExpr.createF n l 0 (w + off - r.getWidth))
          (ExtractExpr.createF n r off (r.getWidth - off))
        have := hl 0 (w + off - r.getWidth)
        have := hr off (r.getWidth - off)
        omega
    · simp [Expr.weight]

theorem ExtractExpr.weight_create (e : Expr) (off w : ℕ) :
    (ExtractExpr.create e off w).weight ≤ 2 * e.weight + 1 :=
  ExtractExpr.weight_createF _ e off w

theorem ConcatExpr.weight_create (l r : Expr) :
    (ConcatExpr.create l r).weight ≤ l.weight + r.weight + 1 :=
  ConcatExpr.weight_merge ExtractExpr.weight_create l r

theorem NotExpr.weight_create (e : Expr) : (NotExpr.create e).weight ≤ e.weight + 1 := by
  cases e <;> simp [NotExpr.create, Expr.weight]

theorem CastExpr.weight_create (k : CastKind) (e : Expr) (w : ℕ) :
    (CastExpr.create k e w).weight ≤ 2 * e.weight + 1 := by
  unfold CastExpr.create
  split_ifs
  · omega
  · exact ExtractExpr.weight_create e 0 w
  · split <;> simp [Expr.weight]

namespace ExprReplaceVisitor

variable {src dst : Expr}

/-- Replacing by a constant never adds weight, and a changed expression weighs less. -/
theorem Visits.weight_lt {e e' : Expr} (h : Visits src dst e e') (hd : dst.isConstant = true) :
    e' = e ∨ e'.weight < e.weight := by
  have hd0 : dst.weight = 0 := by cases dst <;> first | rfl | cases hd
  induction h with
  | same => exact .inl rfl
  | replaced _ hs ih =>
    have := Expr.weight_pos hs
    rcases ih with ih | ih
    · exact .inr (by rw [hd0, ← ih]; exact this)
    · exact .inr (by omega)
  | notOptimized _ hne ih =>
    have := ih.resolve_left hne
    exact .inr (by simp only [NotOptimizedExpr.create, Expr.weight]; omega)
  | @read u i i' _ hne ih =>
    have := ih.resolve_left hne
    have := ReadExpr.weight_create u i'
    exact .inr (by simp only [Expr.weight]; omega)
  | @select c c' t t' f f' _ _ _ hne ihc iht ihf =>
    have hs := SelectExpr.weight_create c' t' f'
    right
    simp only [Expr.weight]
    rcases ihc with rfl | ihc <;> rcases iht with rfl | iht <;> rcases ihf with rfl | ihf <;>
      first | omega | exact absurd ⟨rfl, rfl, rfl⟩ hne
  | @concat l l' r r' _ _ hne ihl ihr =>
    have hs := ConcatExpr.weight_create l' r'
    right
    simp only [Expr.weight]
    rcases ihl with rfl | ihl <;> rcases ihr with rfl | ihr <;>
      first | omega | exact absurd ⟨rfl, rfl⟩ hne
  | @extract e e' off w _ hne ih =>
    have := ih.resolve_left hne
    have := ExtractExpr.weight_create e' off w
    exact .inr (by simp only [Expr.weight]; omega)
  | @not e e' _ hne ih =>
    have := ih.resolve_left hne
    have := NotExpr.weight_create e'
    exact .inr (by simp only [Expr.weight]; omega)
  | @cast k e e' w _ hne ih =>
    have := ih.resolve_left hne
    have := CastExpr.weight_create k e' w
    exact .inr (by simp only [Expr.weight]; omega)
  | @binary k l l' r r' e _ _ hne hc ihl ihr =>
    have hs := BinaryExpr.weight_create hc
    right
    simp only [Expr.weight]
    rcases ihl with rfl | ihl <;> rcases ihr with rfl | ihr <;>
      first | omega | exact absurd ⟨rfl, rfl⟩ hne

end ExprReplaceVisitor

end TaseVerifier
