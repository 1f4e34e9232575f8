import TaseVerifier.Solver.FastCexSound

/-! Where the range of an expression is right. The rule of each node but the concatenation
and the comparisons outside the canonical form passes from its operands to the node, and the
evaluation of an expression does not get to every node of it. -/

namespace TaseVerifier

mutual
/-- Every width is from 1 to `n`, in the update lists as well. -/
def Expr.within (n : ℕ) : Expr → Bool
  | .constant c => decide (0 < c.width) && decide (c.width ≤ n)
  | .notOptimized s => s.within n
  | .read u i => u.within n && i.within n
  | .select c t f => c.within n && t.within n && f.within n
  | .concat l r => l.within n && r.within n && decide (l.getWidth + r.getWidth ≤ n)
  | .extract e _ w => e.within n && decide (0 < w) && decide (w ≤ n)
  | .not e => e.within n
  | .cast _ e w => e.within n && decide (0 < w) && decide (w ≤ n)
  | .binary _ l r => l.within n && r.within n
def UpdateList.within (n : ℕ) : UpdateList → Bool
  | .root _ => true
  | .node i v next => i.within n && v.within n && next.within n
end

mutual
theorem Expr.narrow_of_within {n : ℕ} (hn : n ≤ 64) : ∀ e : Expr, e.within n = true →
    e.narrow = true
  | .constant c, h => by
    simp only [Expr.within, Expr.narrow, Bool.and_eq_true, decide_eq_true_eq] at h ⊢
    omega
  | .notOptimized s, h => s.narrow_of_within hn h
  | .read u i, h => by
    simp only [Expr.within, Expr.narrow, Bool.and_eq_true] at h ⊢
    exact ⟨u.narrow_of_within hn h.1, i.narrow_of_within hn h.2⟩
  | .select c t f, h => by
    simp only [Expr.within, Expr.narrow, Bool.and_eq_true] at h ⊢
    exact ⟨⟨c.narrow_of_within hn h.1.1, t.narrow_of_within hn h.1.2⟩, f.narrow_of_within hn h.2⟩
  | .concat l r, h => by
    simp only [Expr.within, Expr.narrow, Bool.and_eq_true, decide_eq_true_eq] at h ⊢
    exact ⟨⟨l.narrow_of_within hn h.1.1, r.narrow_of_within hn h.1.2⟩, h.2.trans hn⟩
  | .extract e _ w, h => by
    simp only [Expr.within, Expr.narrow, Bool.and_eq_true] at h ⊢
    exact e.narrow_of_within hn h.1.1
  | .not e, h => e.narrow_of_within hn h
  | .cast _ e w, h => by
    simp only [Expr.within, Expr.narrow, Bool.and_eq_true, decide_eq_true_eq] at h ⊢
    exact ⟨e.narrow_of_within hn h.1.1, h.2.trans hn⟩
  | .binary _ l r, h => by
    simp only [Expr.within, Expr.narrow, Bool.and_eq_true] at h ⊢
    exact ⟨l.narrow_of_within hn h.1, r.narrow_of_within hn h.2⟩
theorem UpdateList.narrow_of_within {n : ℕ} (hn : n ≤ 64) : ∀ u : UpdateList,
    u.within n = true → u.narrow = true
  | .root _, _ => rfl
  | .node i v next, h => by
    simp only [UpdateList.within, UpdateList.narrow, Bool.and_eq_true] at h ⊢
    exact ⟨⟨i.narrow_of_within hn h.1.1, v.narrow_of_within hn h.1.2⟩,
      next.narrow_of_within hn h.2⟩
end

theorem Expr.getWidth_le_of_within {n : ℕ} (hn : 8 ≤ n) : ∀ e : Expr, e.wellTyped = true →
    e.within n = true → e.getWidth ≤ n
  | .constant c, _, h => by
    simp only [Expr.within, Bool.and_eq_true, decide_eq_true_eq] at h
    exact h.2
  | .notOptimized s, ht, h => s.getWidth_le_of_within hn ht h
  | .read _ _, _, _ => hn
  | .select c t f, ht, h => by
    simp only [Expr.wellTyped, Expr.within, Bool.and_eq_true] at ht h
    exact t.getWidth_le_of_within hn ht.1.1.1.2 h.1.2
  | .concat l r, _, h => by
    simp only [Expr.within, Bool.and_eq_true, decide_eq_true_eq] at h
    exact h.2
  | .extract e _ w, _, h => by
    simp only [Expr.within, Bool.and_eq_true, decide_eq_true_eq] at h
    exact h.2
  | .not e, ht, h => e.getWidth_le_of_within hn ht h
  | .cast _ e w, _, h => by
    simp only [Expr.within, Bool.and_eq_true, decide_eq_true_eq] at h
    exact h.2
  | .binary k l r, ht, h => by
    simp only [Expr.wellTyped, Expr.within, Bool.and_eq_true] at ht h
    have hl := l.getWidth_le_of_within hn ht.1.1.1 h.1
    simp only [Expr.getWidth, Width.Bool]
    split_ifs <;> omega

/-- The evaluator has a right rule for the node. -/
def Expr.ruleRight : Expr → Bool
  | .concat _ r => r.getWidth == Width.Int8
  | .binary k l _ => k.isShift || k.rangedAt l.getWidth
  | _ => true

namespace CexRangeEvaluator

open ValueRange

/-! ### What the evaluation gets to -/

/-- The nodes that come after a range has been computed. -/
def thenVisits (x : Except CexStop ValueRange) (f : ValueRange → List Expr) : List Expr :=
  match x with
  | .ok r => f r
  | .error _ => []

mutual
/-- The nodes whose ranges `evaluate` computes. -/
def visited : Expr → List Expr
  | .read u i => .read u i ::
    (visited i ++ thenVisits (evaluate i) fun index => visitedUpdates index .empty u)
  | .select c t f => .select c t f :: (visited c ++ thenVisits (evaluate c) fun cond =>
    if cond.mustEqual (fixed 1) then visited t
    else if cond.mustEqual (fixed 0) then visited f
    else visited t ++ thenVisits (evaluate t) fun _ => visited f)
  | .concat l r => .concat l r :: (visited l ++ thenVisits (evaluate l) fun _ => visited r)
  | .binary k l r => .binary k l r ::
    if k.isShift || !k.isCanonical then []
    else visited l ++ thenVisits (evaluate l) fun _ => visited r
  | e => [e]
def visitedUpdates (index res : ValueRange) : UpdateList → List Expr
  | .root _ => []
  | .node i v next => visited i ++ thenVisits (evaluate i) fun ui =>
    if ui.mustEqual index then visited v
    else if ui.mayEqual index then
      visited v ++ thenVisits (evaluate v) fun value =>
        if (res.setUnion value).isFullRange 8 then []
        else visitedUpdates index (res.setUnion value) next
    else visitedUpdates index res next
end

section Visited

variable {p q : Prop} {b : Bool} {x : Except CexStop ValueRange} {r : ValueRange}
  {f : ValueRange → List Expr}

/-- Once the operand is computed by right rules the evaluation goes on with its interval. -/
theorem and_thenVisits (hx : b = true → x = .ok r)
    (hf : b = true → ((∀ s ∈ f r, s.ruleRight = true) ↔ q)) :
    (b = true ∧ ∀ s ∈ thenVisits x f, s.ruleRight = true) ↔ b = true ∧ q := by
  refine and_congr_right fun hb => ?_
  rw [hx hb, thenVisits]
  exact hf hb

end Visited

mutual
/-- The rules that the evaluation uses are right exactly if those of the nodes are that it gets
to. -/
theorem ranged_iff : ∀ e : Expr, e.wellTyped = true → e.narrow = true →
    ((∀ s ∈ visited e, s.ruleRight = true) ↔ e.ranged = true)
  | .constant _, _, _ | .notOptimized _, _, _ | .extract _ _ _, _, _ | .not _, _, _
  | .cast _ _ _, _, _ => by simp [visited, Expr.ruleRight, Expr.ranged]
  | .read u i, ht, hn => by
    simp only [Expr.wellTyped, Expr.narrow, Bool.and_eq_true] at ht hn
    rw [visited, List.forall_mem_cons, List.forall_mem_append, ranged_iff i ht.1.2 hn.2,
      Expr.ranged, Bool.and_eq_true]
    refine (and_iff_right rfl).trans (and_thenVisits (evaluate_eq i ht.1.2 hn.2) fun _ => ?_)
    exact updates_ranged_iff u ht.1.1 hn.1 _ _
  | .select c t f, ht, hn => by
    simp only [Expr.wellTyped, Expr.narrow, Bool.and_eq_true] at ht hn
    rw [visited, List.forall_mem_cons, List.forall_mem_append,
      ranged_iff c ht.1.1.1.1 hn.1.1, Expr.ranged, Bool.and_eq_true]
    refine (and_iff_right rfl).trans (and_thenVisits (evaluate_eq c ht.1.1.1.1 hn.1.1) fun _ => ?_)
    have iht := ranged_iff t ht.1.1.1.2 hn.1.2
    have ihf := ranged_iff f ht.1.1.2 hn.2
    split_ifs
    · exact iht
    · exact ihf
    · rw [List.forall_mem_append, iht, Bool.and_eq_true]
      exact and_thenVisits (evaluate_eq t ht.1.1.1.2 hn.1.2) fun _ => ihf
  | .concat l r, ht, hn => by
    simp only [Expr.wellTyped, Expr.narrow, Bool.and_eq_true] at ht hn
    rw [visited, List.forall_mem_cons, List.forall_mem_append, ranged_iff l ht.1 hn.1.1,
      Expr.ranged, Bool.and_eq_true, Bool.and_eq_true]
    refine and_comm.trans (and_congr_left' ?_)
    exact and_thenVisits (evaluate_eq l ht.1 hn.1.1) fun _ => ranged_iff r ht.2 hn.1.2
  | .binary k l r, ht, hn => by
    obtain ⟨hlt, hrt, -⟩ := Expr.wellTyped_operands ht
    simp only [Expr.narrow, Bool.and_eq_true] at hn
    rw [visited, List.forall_mem_cons, Expr.ruleRight, Expr.ranged]
    cases hshift : k.isShift with
    | true => simp
    | false =>
      cases hcan : k.isCanonical with
      | false => simp [BinaryKind.rangedAt, hcan]
      | true =>
        simp only [Bool.false_or, Bool.not_true, Bool.false_eq_true, if_false, Bool.and_eq_true,
          List.forall_mem_append, ranged_iff l hlt hn.1, and_assoc]
        refine and_congr_right fun _ => ?_
        exact and_thenVisits (evaluate_eq l hlt hn.1) fun _ => ranged_iff r hrt hn.2
theorem updates_ranged_iff : ∀ u : UpdateList, u.wellTyped = true → u.narrow = true →
    ∀ index res : ValueRange,
      ((∀ s ∈ visitedUpdates index res u, s.ruleRight = true) ↔ u.ranged index res = true)
  | .root _, _, _, _, _ => iff_of_true (fun _ hs => absurd hs List.not_mem_nil) rfl
  | .node i v next, ht, hn, index, res => by
    simp only [UpdateList.wellTyped, UpdateList.narrow, Bool.and_eq_true] at ht hn
    rw [visitedUpdates, List.forall_mem_append, ranged_iff i ht.1.1.1.1 hn.1.1,
      UpdateList.ranged, Bool.and_eq_true]
    refine and_thenVisits (evaluate_eq i ht.1.1.1.1 hn.1.1) fun _ => ?_
    have ihv := ranged_iff v ht.1.1.1.2 hn.1.2
    have ihn := updates_ranged_iff next ht.1.1.2 hn.2 index
    by_cases hmust : i.interval.mustEqual index = true
    · rw [if_pos hmust, if_pos hmust]
      exact ihv
    · rw [if_neg hmust, if_neg hmust]
      by_cases hmay : i.interval.mayEqual index = true
      · rw [if_pos hmay, if_pos hmay, List.forall_mem_append, ihv, Bool.and_eq_true]
        refine and_thenVisits (evaluate_eq v ht.1.1.1.2 hn.1.2) fun _ => ?_
        split_ifs
        · simp
        · exact ihn _
      · rw [if_neg hmay, if_neg hmay]
        exact ihn res
end

/-! ### Right ranges -/

/-- The range is computed, is not empty, and contains the value under every assignment. -/
def Bounds (e : Expr) : Prop :=
  ∃ t, evaluate e = .ok t ∧ t.isEmpty = false ∧
    ∀ σ, t.m_min ≤ (e.eval σ).toNat ∧ (e.eval σ).toNat ≤ t.m_max

/-- The range bounds the expression, and its bounds are values of the expression's width. -/
def Fits (e : Expr) : Prop :=
  ∃ t, evaluate e = .ok t ∧ ∀ σ, t.Covers e.getWidth (e.eval σ).toNat

variable {e l r : Expr}

theorem Fits.bounds (h : Fits e) : Bounds e := by
  obtain ⟨t, ht, hcov⟩ := h
  exact ⟨t, ht, (hcov fun _ _ => 0).isEmpty, fun σ => ⟨(hcov σ).min_le, (hcov σ).le_max⟩⟩

theorem fits_of_ranged (ht : e.wellTyped = true) (hw : e.within 63 = true)
    (hr : e.ranged = true) : Fits e :=
  ⟨_, evaluate_covers e ht (e.narrow_of_within (by omega) hw) hr⟩

/-- The operands of a node, with their ranges right. -/
structure Operands (l r : Expr) (m n : ℕ) : Prop where
  wellTyped : l.wellTyped = true ∧ r.wellTyped = true
  within : l.within 63 = true ∧ r.within 63 = true
  width : l.getWidth = m ∧ r.getWidth = n
  fits : Fits l ∧ Fits r

theorem operands_constant {m n : ℕ} (a b : ℕ) (hm : 0 < m ∧ m ≤ 63) (hn : 0 < n ∧ n ≤ 63) :
    Operands (.alloc a m) (.alloc b n) m n := by
  have ha : (Expr.alloc a m).within 63 = true := by simp [Expr.alloc, Expr.within, hm]
  have hb : (Expr.alloc b n).within 63 = true := by simp [Expr.alloc, Expr.within, hn]
  exact ⟨⟨rfl, rfl⟩, ⟨ha, hb⟩, ⟨rfl, rfl⟩, fits_of_ranged rfl ha rfl, fits_of_ranged rfl hb rfl⟩

/-- One and zero are put together as if the zero were a byte. -/
theorem evaluate_concat_one {m n : ℕ} (hm : 0 < m) :
    evaluate (.concat (.alloc 1 m) (.alloc 0 n)) = .ok (fixed 256) := by
  have hone : 1 < 2 ^ m := Nat.one_lt_two_pow (by omega)
  have hleft : evaluate (.alloc 1 m) = .ok (fixed 1) := by
    simp only [Expr.alloc, evaluate, ofConstant, APInt.toNat_ofNat, Nat.mod_eq_of_lt hone]
    rfl
  have hright : evaluate (.alloc 0 n) = .ok (fixed 0) := by
    simp only [Expr.alloc, evaluate, ofConstant, APInt.toNat_ofNat, Nat.zero_mod]
    rfl
  simp only [evaluate, hleft, hright]
  rfl

theorem bounds_concat_iff {m n : ℕ} (hm : 0 < m) (hn : 0 < n) (hw : m + n ≤ 63) :
    (∀ l r, Operands l r m n → Bounds (.concat l r)) ↔ n = 8 := by
  constructor
  · intro h
    obtain ⟨t, ht, -, hval⟩ := h _ _ (operands_constant 1 0 (by omega) (by omega))
    rw [evaluate_concat_one hm] at ht
    obtain rfl := Except.ok.inj ht
    have hone : 1 < 2 ^ m := Nat.one_lt_two_pow (by omega)
    have hv := hval fun _ _ => 0
    rw [Expr.eval, toNat_concat, Expr.eval_alloc, Expr.eval_alloc, APInt.toNat_ofNat,
      APInt.toNat_ofNat, Nat.zero_mod, Nat.or_zero, Nat.mod_eq_of_lt hone, Nat.one_shiftLeft,
      APInt.width_ofNat] at hv
    have hpow : 2 ^ n = 2 ^ 8 := le_antisymm hv.2 hv.1
    exact Nat.pow_right_injective le_rfl hpow
  · rintro rfl l r ⟨⟨hlt, hrt⟩, -, ⟨hl, hr⟩, ⟨left, hleft, hlcov⟩, right, hright, hrcov⟩
    have hw8 : l.getWidth + r.getWidth ≤ 64 := by omega
    have hfits : Fits (.concat l r) := by
      refine exists_forall fun σ => ?_
      obtain ⟨t, ht, hcov⟩ := covers_concat hrt hw8 (hlcov σ) (hrcov σ)
      rw [hr] at ht
      refine ⟨t, ?_, hcov⟩
      rw [← ht]
      simp only [evaluate, hleft, hright]
      rfl
    exact hfits.bounds

theorem bounds_binary_iff (k : BinaryKind) :
    (∀ l r m, (Expr.binary k l r).wellTyped = true → Operands l r m m → Bounds (.binary k l r)) ↔
      k.isCanonical = true := by
  constructor
  · intro h
    by_contra hcan
    have hops := operands_constant 0 0 (m := 1) (n := 1) (by omega) (by omega)
    cases k with
    | Ne | Ugt | Uge | Sgt | Sge =>
      obtain ⟨t, ht, -⟩ := h _ _ 1 rfl hops
      cases ht
    | _ => exact hcan rfl
  · rintro hcan l r m ht ⟨⟨hlt, hrt⟩, hw, -, ⟨left, hleft, hlcov⟩, right, hright, hrcov⟩
    have hfits : Fits (.binary k l r) := by
      by_cases hshift : k.isShift = true
      · rw [Fits, evaluate_shift hshift]
        exact ⟨_, rfl, fun _ => BinaryKind.getWidth_of_isShift hshift l r ▸ covers_eval_full ht⟩
      · have hpos := (l.narrow_width hlt (l.narrow_of_within (by omega) hw.1)).1
        have hl63 := l.getWidth_le_of_within (by omega) hlt hw.1
        rw [Fits, evaluate_binary hshift hcan hleft hright]
        exact exists_forall fun σ =>
          covers_binary ht hpos (by omega) hcan (fun _ => by omega) (hlcov σ) (hrcov σ)
    exact hfits.bounds

/-- The range of an expression is right as long as the evaluation gets to right rules only, which
is a matter of the intervals of the expression. The rule for a concatenation is right for a right
operand of one byte and no other width, and the one for a binary node is right for the canonical
kinds and no other. -/
theorem evaluate_bounds_where (e : Expr) (ht : e.wellTyped = true) (hw : e.within 63 = true)
    {m n : ℕ} (hm : 0 < m) (hn : 0 < n) (hmn : m + n ≤ 63) (k : BinaryKind) :
    (e.ranged = true → Bounds e) ∧
      ((∀ s ∈ visited e, s.ruleRight = true) ↔ e.ranged = true) ∧
      ((∀ l r, Operands l r m n → Bounds (.concat l r)) ↔ n = 8) ∧
      ((∀ l r m, (Expr.binary k l r).wellTyped = true → Operands l r m m →
        Bounds (.binary k l r)) ↔ k.isCanonical = true) :=
  ⟨fun hr => (fits_of_ranged ht hw hr).bounds,
    ranged_iff e ht (e.narrow_of_within (by omega) hw), bounds_concat_iff hm hn hmn,
    bounds_binary_iff k⟩

/-- The wrong concatenation is in the branch that the interval of the condition leaves out. -/
theorem evaluate_bounds_select :
    let e : Expr := .select (.binary .Ule (.alloc 0 Width.Int8)
      (FastCexSolver.read FastCexSolver.bytes 0)) (.alloc 5 Width.Int32) FastCexSolver.offset
    e.ranged = true ∧ Bounds e :=
  ⟨by decide, (evaluate_bounds_where _ (by decide) (by decide) (show 0 < 8 by decide)
    (show 0 < 8 by decide) (by decide) .Add).1 (by decide)⟩

/-- Three bytes put together, from the right as the source does it, are at most `0xFFFF`
according to the range. -/
theorem evaluate_not_bounds :
    ¬ ∀ e : Expr, e.wellTyped = true → e.within 63 = true → Bounds e := by
  intro h
  obtain ⟨t, ht, -, hval⟩ := h FastCexSolver.offset (by decide) (by decide)
  have hrange : evaluate FastCexSolver.offset = .ok ⟨0, 0xFFFF⟩ := by decide +kernel
  rw [hrange] at ht
  obtain rfl := Except.ok.inj ht
  exact absurd (hval FastCexSolver.twice).2 (by decide)

end CexRangeEvaluator

end TaseVerifier
