import TaseVerifier.Solver.RangeEvaluator

/-! The interval of an expression by rules that are right everywhere: a concatenation shifts by the
width of its right operand, and a comparison that the evaluator has no right rule for is not
decided. The evaluator computes it as long as it uses none of its wrong rules. -/

namespace TaseVerifier

open ValueRange CexRangeEvaluator

/-- The range computed, the empty one where the computation stops. -/
def got : Except CexStop ValueRange → ValueRange
  | .ok r => r
  | .error _ => .empty

/-- The evaluator has a right rule for operands of the width. -/
def BinaryKind.rangedAt (k : BinaryKind) (w : ℕ) : Bool :=
  k.isCanonical && !(k.isSigned && decide (64 ≤ w))

mutual
def Expr.interval : Expr → ValueRange
  | .constant c => ofConstant c
  | .notOptimized s => full s.getWidth
  | .read u i => u.interval i.interval .empty
  | .select c t f =>
    if c.interval.mustEqual (fixed 1) then t.interval
    else if c.interval.mustEqual (fixed 0) then f.interval
    else t.interval.setUnion f.interval
  | .concat l r =>
    got ((fixed 0).concat l.interval r.getWidth >>= fun res => res.concat r.interval r.getWidth)
  | .extract _ _ w => full w
  | .not e => full e.getWidth
  | .cast _ _ w => full w
  | .binary k l r =>
    if k.rangedAt l.getWidth then got (binary k l.getWidth l.interval r.interval)
    else full Width.Bool
/-- Of the values that a read at the indices may give, together with `res`. -/
def UpdateList.interval (index res : ValueRange) : UpdateList → ValueRange
  | .root a => res.setUnion (getInitialReadRange a index)
  | .node i v next =>
    if i.interval.mustEqual index then res.setUnion v.interval
    else if i.interval.mayEqual index then
      let res := res.setUnion v.interval
      if res.isFullRange 8 then res else next.interval index res
    else next.interval index res
end

theorem got_of_ok {x : Except CexStop ValueRange} {r : ValueRange} (h : x = .ok r) :
    x = .ok (got x) ∧ got x = r := by
  subst h
  exact ⟨rfl, rfl⟩

theorem BinaryKind.getWidth_of_not_rangedAt {k : BinaryKind} {l r : Expr}
    (h : ¬ k.rangedAt l.getWidth = true) : (Expr.binary k l r).getWidth = Width.Bool := by
  cases k with
  | Eq | Ne | Ult | Ule | Ugt | Uge | Slt | Sle | Sgt | Sge => rfl
  | _ => exact absurd rfl h

mutual
/-- The interval is not empty and contains the value under every assignment. -/
theorem interval_covers (σ : Assignment) : ∀ e : Expr, e.wellTyped = true → e.narrow = true →
    e.interval.Covers e.getWidth (e.eval σ).toNat
  | .constant c, _, hn => by
    simp only [Expr.narrow, Bool.and_eq_true, decide_eq_true_eq] at hn
    have hlt : c.toNat < 2 ^ 64 := c.toNat_lt.trans_le (Nat.pow_le_pow_right (by omega) hn.2)
    have hmin : c.toNat ⊓ maxValueOfNBits 64 = c.toNat := inf_eq_left.mpr (Nat.le_pred_of_lt hlt)
    rw [Expr.interval, ofConstant, hmin]
    exact covers_fixed c.toNat_lt
  | .notOptimized _, ht, _ | .extract _ _ _, ht, _ | .not _, ht, _ | .cast _ _ _, ht, _ =>
    covers_eval_full ht
  | .read u i, ht, hn => by
    simp only [Expr.wellTyped, Expr.narrow, Bool.and_eq_true, beq_iff_eq] at ht hn
    have hcov := interval_covers σ i ht.1.2 hn.2
    rw [ht.2] at hcov
    exact (updates_interval_covers σ u ht.1.1 hn.1 i.interval .empty (by decide)).2.2 _
      ((i.width_eval σ ht.1.2).trans ht.2) hcov
  | .select c t f, ht, hn => by
    simp only [Expr.wellTyped, Expr.narrow, Bool.and_eq_true, beq_iff_eq] at ht hn
    have hc := interval_covers σ c ht.1.1.1.1 hn.1.1
    have ht' := interval_covers σ t ht.1.1.1.2 hn.1.2
    have hf := interval_covers σ f ht.1.1.2 hn.2
    rw [ht.1.2] at hc
    rw [← ht.2] at hf
    rw [Expr.interval, Expr.eval]
    split_ifs with h₁ hσ h₀ hσ hσ
    · exact ht'
    · have hval := hc.eq_of_mustEqual (covers_fixed (by decide)) h₁
      exact absurd (isTrue_of_toNat ((c.width_eval σ ht.1.1.1.1).trans ht.1.2) hval) hσ
    · have hval := hc.eq_of_mustEqual (covers_fixed (by decide)) h₀
      simp [APInt.isTrue, hval] at hσ
    · exact hf
    · exact ht'.setUnion_left hf.max_lt
    · exact hf.setUnion_right ht'.max_lt
  | .concat l r, ht, hn => by
    simp only [Expr.wellTyped, Expr.narrow, Bool.and_eq_true, decide_eq_true_eq] at ht hn
    obtain ⟨t, htr, hcov⟩ := covers_concat ht.2 hn.2 (interval_covers σ l ht.1 hn.1.1)
      (interval_covers σ r ht.2 hn.1.2)
    rw [Expr.interval, (got_of_ok htr).2]
    exact hcov
  | .binary k l r, ht, hn => by
    obtain ⟨hlt, hrt, -⟩ := Expr.wellTyped_operands ht
    simp only [Expr.narrow, Bool.and_eq_true] at hn
    rw [Expr.interval]
    split_ifs with hk
    · obtain ⟨hpos, hw⟩ := l.narrow_width hlt hn.1
      simp only [BinaryKind.rangedAt, Bool.and_eq_true, Bool.not_eq_true', Bool.and_eq_false_iff,
        decide_eq_false_iff_not, not_le] at hk
      obtain ⟨t, htr, hcov⟩ := covers_binary ht hpos hw hk.1
        (fun hs => hk.2.resolve_left (by simp [hs])) (interval_covers σ l hlt hn.1)
        (interval_covers σ r hrt hn.2)
      rw [(got_of_ok htr).2]
      exact hcov
    · rw [← BinaryKind.getWidth_of_not_rangedAt hk]
      exact covers_eval_full ht
theorem updates_interval_covers (σ : Assignment) : ∀ u : UpdateList, u.wellTyped = true →
    u.narrow = true → ∀ index res : ValueRange, res.m_max < 2 ^ 8 →
      (u.interval index res).m_min ≤ res.m_min ∧ res.m_max ≤ (u.interval index res).m_max ∧
        ∀ i, i.width = Width.Int32 → index.Covers Width.Int32 i.toNat →
          (u.interval index res).Covers 8 (u.evalRead σ i).toNat
  | .root a, ht, _, index, res, hres =>
    ⟨inf_le_left, le_sup_left, fun _ _ hi => (covers_initial a ht hi).setUnion_right hres⟩
  | .node i v next, ht, hn, index, res, hres => by
    have htu := ht
    simp only [UpdateList.wellTyped, UpdateList.narrow, Bool.and_eq_true, beq_iff_eq] at ht hn
    have hi := interval_covers σ i ht.1.1.1.1 hn.1.1
    have hv := interval_covers σ v ht.1.1.1.2 hn.1.2
    have hnext := updates_interval_covers σ next ht.1.1.2 hn.2 index
    rw [ht.1.2] at hi
    rw [ht.2] at hv
    have hunion : (res.setUnion v.interval).m_max < 2 ^ 8 := max_lt hres hv.max_lt
    rw [UpdateList.interval]
    dsimp only
    split_ifs with hmust hmay hfull
    · refine ⟨inf_le_left, le_sup_left, fun j hj hcov => ?_⟩
      have heq : i.eval σ = j :=
        APInt.ext_toNat ((i.width_eval σ ht.1.1.1.1).trans (ht.1.2.trans hj.symm))
          (hi.eq_of_mustEqual hcov hmust)
      rw [UpdateList.evalRead, if_pos heq]
      exact hv.setUnion_right hres
    · refine ⟨inf_le_left, le_sup_left, fun j hj hcov => ?_⟩
      have hlt := ((UpdateList.node i v next).evalRead σ j).toNat_lt
      rw [UpdateList.width_evalRead σ _ htu] at hlt
      have hres' : res.setUnion v.interval = full 8 := by simpa [isFullRange] using hfull
      rw [hres']
      exact covers_full hlt
    · obtain ⟨hmin, hmax, hcov⟩ := hnext (res.setUnion v.interval) hunion
      refine ⟨hmin.trans inf_le_left, le_sup_left.trans hmax, fun j hj hj' => ?_⟩
      have hrest := hcov j hj hj'
      rw [UpdateList.evalRead]
      split_ifs
      · have hval := hv.setUnion_right hres
        exact ⟨hmin.trans hval.min_le, hval.le_max.trans hmax, hrest.max_lt⟩
      · exact hrest
    · obtain ⟨hmin, hmax, hcov⟩ := hnext res hres
      refine ⟨hmin, hmax, fun j hj hj' => ?_⟩
      rw [UpdateList.evalRead, if_neg]
      · exact hcov j hj hj'
      · rintro rfl
        exact hmay (hi.mayEqual hj')
end

/-! ### Where the evaluator computes it -/

mutual
/-- The rules that the evaluation uses are right: a concatenation is with a byte, and a comparison
is canonical and, if signed, of less than 64 bits. -/
def Expr.ranged : Expr → Bool
  | .read u i => i.ranged && u.ranged i.interval .empty
  | .select c t f => c.ranged &&
    if c.interval.mustEqual (fixed 1) then t.ranged
    else if c.interval.mustEqual (fixed 0) then f.ranged
    else t.ranged && f.ranged
  | .concat l r => l.ranged && r.ranged && r.getWidth == Width.Int8
  | .binary k l r => k.isShift || k.rangedAt l.getWidth && l.ranged && r.ranged
  | .constant _ | .notOptimized _ | .extract _ _ _ | .not _ | .cast _ _ _ => true
def UpdateList.ranged (index res : ValueRange) : UpdateList → Bool
  | .root _ => true
  | .node i v next => i.ranged &&
    if i.interval.mustEqual index then v.ranged
    else if i.interval.mayEqual index then
      let res := res.setUnion v.interval
      v.ranged && if res.isFullRange 8 then true else next.ranged index res
    else next.ranged index res
end

namespace CexRangeEvaluator

mutual
theorem evaluate_eq : ∀ e : Expr, e.wellTyped = true → e.narrow = true → e.ranged = true →
    evaluate e = .ok e.interval
  | .constant _, _, _, _ | .notOptimized _, _, _, _ | .extract _ _ _, _, _, _ | .not _, _, _, _
  | .cast _ _ _, _, _, _ => rfl
  | .read u i, ht, hn, hr => by
    simp only [Expr.wellTyped, Expr.narrow, Expr.ranged, Bool.and_eq_true] at ht hn hr
    simp only [evaluate, evaluate_eq i ht.1.2 hn.2 hr.1, bind, Except.bind, Expr.interval]
    exact evalRead_eq u ht.1.1 hn.1 _ _ hr.2
  | .select c t f, ht, hn, hr => by
    simp only [Expr.wellTyped, Expr.narrow, Expr.ranged, Bool.and_eq_true] at ht hn hr
    simp only [evaluate, evaluate_eq c ht.1.1.1.1 hn.1.1 hr.1, bind, Except.bind, Expr.interval]
    have hr := hr.2
    split_ifs at hr ⊢
    · exact evaluate_eq t ht.1.1.1.2 hn.1.2 hr
    · exact evaluate_eq f ht.1.1.2 hn.2 hr
    · rw [Bool.and_eq_true] at hr
      rw [evaluate_eq t ht.1.1.1.2 hn.1.2 hr.1, evaluate_eq f ht.1.1.2 hn.2 hr.2]
      rfl
  | .concat l r, ht, hn, hr => by
    simp only [Expr.wellTyped, Expr.narrow, Expr.ranged, Bool.and_eq_true, beq_iff_eq,
      decide_eq_true_eq] at ht hn hr
    obtain ⟨t, htr, -⟩ := covers_concat ht.2 hn.2 (interval_covers (fun _ _ => 0) l ht.1 hn.1.1)
      (interval_covers _ r ht.2 hn.1.2)
    simp only [evaluate, evaluate_eq l ht.1 hn.1.1 hr.1.1, evaluate_eq r ht.2 hn.1.2 hr.1.2]
    rw [Expr.interval, (got_of_ok htr).2, ← htr, hr.2]
    rfl
  | .binary k l r, ht, hn, hr => by
    obtain ⟨hlt, hrt, -⟩ := Expr.wellTyped_operands ht
    by_cases hshift : k.isShift = true
    · rw [evaluate_shift hshift, Expr.interval]
      cases k with
      | Shl | LShr | AShr => rfl
      | _ => cases hshift
    · simp only [Expr.narrow, Expr.ranged, Bool.or_eq_true, Bool.and_eq_true] at hn hr
      obtain ⟨⟨hk, hl⟩, hr⟩ := hr.resolve_left hshift
      have hk' := hk
      simp only [BinaryKind.rangedAt, Bool.and_eq_true, Bool.not_eq_true', Bool.and_eq_false_iff,
        decide_eq_false_iff_not, not_le] at hk
      obtain ⟨hpos, hw⟩ := l.narrow_width hlt hn.1
      obtain ⟨t, htr, -⟩ := covers_binary ht hpos hw hk.1
        (fun hs => hk.2.resolve_left (by simp [hs])) (interval_covers (fun _ _ => 0) l hlt hn.1)
        (interval_covers _ r hrt hn.2)
      rw [evaluate_binary hshift hk.1 (evaluate_eq l hlt hn.1 hl) (evaluate_eq r hrt hn.2 hr),
        Expr.interval, if_pos hk']
      exact (got_of_ok htr).1
theorem evalRead_eq : ∀ u : UpdateList, u.wellTyped = true → u.narrow = true →
    ∀ index res : ValueRange, u.ranged index res = true →
      evalRead index res u = .ok (u.interval index res)
  | .root _, _, _, _, _, _ => rfl
  | .node i v next, ht, hn, index, res, hr => by
    simp only [UpdateList.wellTyped, UpdateList.narrow, UpdateList.ranged, Bool.and_eq_true]
      at ht hn hr
    simp only [evalRead, evaluate_eq i ht.1.1.1.1 hn.1.1 hr.1, bind, Except.bind,
      UpdateList.interval]
    have hr := hr.2
    by_cases hmust : i.interval.mustEqual index = true
    · rw [if_pos hmust] at hr ⊢
      rw [if_pos hmust, evaluate_eq v ht.1.1.1.2 hn.1.2 hr]
      rfl
    · rw [if_neg hmust] at hr ⊢
      rw [if_neg hmust]
      by_cases hmay : i.interval.mayEqual index = true
      · rw [if_pos hmay, Bool.and_eq_true] at hr
        rw [if_pos hmay, if_pos hmay, evaluate_eq v ht.1.1.1.2 hn.1.2 hr.1]
        have hr := hr.2
        dsimp only
        split_ifs at hr ⊢
        · rfl
        · exact evalRead_eq next ht.1.1.2 hn.2 _ _ hr
      · rw [if_neg hmay] at hr ⊢
        rw [if_neg hmay]
        exact evalRead_eq next ht.1.1.2 hn.2 _ _ hr
end

/-- Where its rules are right the evaluator computes a range that covers the value. -/
theorem evaluate_covers (e : Expr) (ht : e.wellTyped = true) (hn : e.narrow = true)
    (hr : e.ranged = true) :
    evaluate e = .ok e.interval ∧ ∀ σ, e.interval.Covers e.getWidth (e.eval σ).toNat :=
  ⟨evaluate_eq e ht hn hr, fun σ => interval_covers σ e ht hn⟩

end CexRangeEvaluator

end TaseVerifier
