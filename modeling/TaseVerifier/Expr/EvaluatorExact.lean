import TaseVerifier.Expr.Evaluator
import TaseVerifier.Expr.Defined

/-! Evaluation under an assignment where no divisor is zero. It gives a constant, and the right
one, unless it reaches a constant that is kept from being optimised (the visitor rebuilds such a
node, with its constant child, to itself) or a byte that is bound past the end of its array. A read
reaches the updates from the newest one on, up to the one at its index. -/

namespace TaseVerifier

mutual
/-- No constant is reached that is kept from being optimised, and no byte is read past the end of an
array that is bound to another value than zero. -/
def Expr.cleanUnder (b : Bindings) : Expr → Bool
  | .constant _ => true
  | .notOptimized s => s.cleanUnder b && !s.isConstant
  | .read u i => i.cleanUnder b && u.cleanAt b (i.eval b.toAssignment).toNat
  | .select c t f => c.cleanUnder b && t.cleanUnder b && f.cleanUnder b
  | .concat l r => l.cleanUnder b && r.cleanUnder b
  | .extract e _ _ => e.cleanUnder b
  | .not e => e.cleanUnder b
  | .cast _ e _ => e.cleanUnder b
  | .binary _ l r => l.cleanUnder b && r.cleanUnder b
def UpdateList.cleanAt (b : Bindings) (index : ℕ) : UpdateList → Bool
  | .root a => decide (index < a.size) || b.evaluate a index == APInt.ofNat Width.Int8 0
  | .node i v next => i.cleanUnder b &&
    if (i.eval b.toAssignment).toNat = index then v.cleanUnder b else next.cleanAt b index
end

mutual
/-- The expression and what its evaluation reaches. -/
def Expr.reached (b : Bindings) : Expr → List Expr
  | .constant c => [.constant c]
  | .notOptimized s => .notOptimized s :: s.reached b
  | .read u i => .read u i :: (i.reached b ++ u.reachedAt b (i.eval b.toAssignment).toNat)
  | .select c t f => .select c t f :: (c.reached b ++ t.reached b ++ f.reached b)
  | .concat l r => .concat l r :: (l.reached b ++ r.reached b)
  | .extract e off w => .extract e off w :: e.reached b
  | .not e => .not e :: e.reached b
  | .cast k e w => .cast k e w :: e.reached b
  | .binary k l r => .binary k l r :: (l.reached b ++ r.reached b)
def UpdateList.reachedAt (b : Bindings) (index : ℕ) : UpdateList → List Expr
  | .root _ => []
  | .node i v next => i.reached b ++
    if (i.eval b.toAssignment).toNat = index then v.reached b else next.reachedAt b index
end

theorem Expr.mem_reached_self (b : Bindings) (e : Expr) : e ∈ e.reached b := by
  cases e <;> simp [reached]

namespace ExprEvaluator

/-- The result is the constant with the value of the expression. -/
def Evaluates (b : Bindings) (e : Expr) : Prop :=
  visit b e = .ok (.constant (e.eval b.toAssignment))

/-- The bytes of the bindings, and zeros past the end of an array. -/
def inBounds (b : Bindings) (a : KleeArray) (index : ℕ) : Expr :=
  .constant (if index < a.size then b.evaluate a index else APInt.ofNat Width.Int8 0)

variable {b : Bindings}

theorem initialValue_past {a : KleeArray} (ha : a.wellTyped = true) (σ : Assignment)
    {index : ℕ} (h : ¬ index < a.size) : a.initialValue σ index = APInt.ofNat Width.Int8 0 := by
  rw [KleeArray.initialValue]
  split_ifs with hs
  · rfl
  · simp only [KleeArray.wellTyped, hs, Bool.or_eq_true, Bool.and_eq_true, beq_iff_eq] at ha
    rw [List.getElem?_eq_none (by have := ha.2.resolve_left (by simp); omega)]
    rfl

theorem standsFor_inBounds (b : Bindings) : StandsFor (· = b.toAssignment) (inBounds b) := by
  rintro a index ha _ hin
  refine ⟨rfl, ?_, fun σ hσ => ?_⟩
  · unfold inBounds
    split_ifs <;> rfl
  · subst hσ
    rw [inBounds, Expr.eval]
    split_ifs with hlt
    · have hs : a.isSymbolicArray = true := by simpa [KleeArray.isConstantArray, hlt] using hin
      rw [KleeArray.initialValue, if_pos hs, if_pos hlt]
      rfl
    · exact (initialValue_past ha _ hlt).symm

theorem eq_eval_of_folds {e : Expr} (ht : e.wellTyped = true)
    (h : Folds (visitWith (inBounds b) e)) :
    visitWith (inBounds b) e = .ok (.constant (e.eval b.toAssignment)) := by
  obtain ⟨c, hc⟩ := h
  have hval := (visitWith_agrees (standsFor_inBounds b) e ht hc).eval b.toAssignment rfl
  rw [hc, ← hval, Expr.eval]

/-- An update whose index is known ends the walk or is passed. -/
theorem evalReadWith_node {getInitialValue : KleeArray → ℕ → Expr} {i v : Expr} {next : UpdateList}
    {index : ℕ} {c : APInt} (h : visitWith getInitialValue i = .ok (.constant c)) :
    evalReadWith getInitialValue index (.node i v next) =
      if c.toNat = index then visitWith getInitialValue v
      else evalReadWith getInitialValue index next := by
  rw [evalReadWith, h]
  rfl

mutual
/-- With zeros past the end the visitor takes the same way, and ends with a constant. -/
theorem visit_of_clean : ∀ e : Expr, e.wellTyped = true → e.defined b.toAssignment = true →
    e.cleanUnder b = true →
      visit b e = visitWith (inBounds b) e ∧ Folds (visitWith (inBounds b) e)
  | .constant c, _, _, _ => ⟨rfl, c, rfl⟩
  | .notOptimized s, ht, hd, hu => by
    simp only [Expr.cleanUnder, Bool.and_eq_true, Bool.not_eq_true'] at hu
    obtain ⟨hs, hfolds⟩ := visit_of_clean s ht hd hu.1
    rw [visit] at hs ⊢
    exact ⟨by simp only [visitWith, hs], folds_notOptimized hu.2 hfolds⟩
  | .read u i, ht, hd, hu => by
    simp only [Expr.wellTyped, Expr.defined, Expr.cleanUnder, Bool.and_eq_true] at ht hd hu
    obtain ⟨hi, hfolds⟩ := visit_of_clean i ht.1.2 hd.2 hu.1
    have heval := eq_eval_of_folds ht.1.2 hfolds
    obtain ⟨hread, hfolds'⟩ := evalReadWith_of_clean u ht.1.1 hd.1 _ hu.2
    rw [visit] at hi ⊢
    simp only [visitWith, hi, heval]
    exact ⟨hread, hfolds'⟩
  | .select c t f, ht, hd, hu => by
    simp only [Expr.wellTyped, Expr.defined, Expr.cleanUnder, Bool.and_eq_true] at ht hd hu
    obtain ⟨hc, hc'⟩ := visit_of_clean c ht.1.1.1.1 hd.1.1 hu.1.1
    obtain ⟨ht', ht''⟩ := visit_of_clean t ht.1.1.1.2 hd.1.2 hu.1.2
    obtain ⟨hf, hf'⟩ := visit_of_clean f ht.1.1.2 hd.2 hu.2
    rw [visit] at hc ht' hf ⊢
    exact ⟨by simp only [visitWith, hc, ht', hf], folds_select hc' ht'' hf'⟩
  | .concat l r, ht, hd, hu => by
    simp only [Expr.wellTyped, Expr.defined, Expr.cleanUnder, Bool.and_eq_true] at ht hd hu
    obtain ⟨hl, hl'⟩ := visit_of_clean l ht.1 hd.1 hu.1
    obtain ⟨hr, hr'⟩ := visit_of_clean r ht.2 hd.2 hu.2
    rw [visit] at hl hr ⊢
    exact ⟨by simp only [visitWith, hl, hr], folds_concat hl' hr'⟩
  | .extract e off w, ht, hd, hu => by
    simp only [Expr.wellTyped, Bool.and_eq_true] at ht
    obtain ⟨he, he'⟩ := visit_of_clean e ht.1.1 hd hu
    rw [visit] at he ⊢
    exact ⟨by simp only [visitWith, he], folds_extract off w he'⟩
  | .not e, ht, hd, hu => by
    obtain ⟨he, he'⟩ := visit_of_clean e ht hd hu
    rw [visit] at he ⊢
    exact ⟨by simp only [visitWith, he], folds_not he'⟩
  | .cast k e w, ht, hd, hu => by
    simp only [Expr.wellTyped, Bool.and_eq_true] at ht
    obtain ⟨he, he'⟩ := visit_of_clean e ht.1 hd hu
    rw [visit] at he ⊢
    exact ⟨by simp only [visitWith, he], folds_cast k w he'⟩
  | .binary k l r, ht, hd, hu => by
    obtain ⟨hlt, hrt, -⟩ := Expr.wellTyped_operands ht
    simp only [Expr.defined, Expr.cleanUnder, Bool.and_eq_true, Bool.not_eq_true',
      Bool.and_eq_false_iff] at hd hu
    obtain ⟨hl, hl'⟩ := visit_of_clean l hlt hd.1.1 hu.1
    obtain ⟨hr, hr'⟩ := visit_of_clean r hrt hd.1.2 hu.2
    rw [visit] at hl hr ⊢
    refine ⟨by simp only [visitWith, hl, hr], folds_binaryNode hl' hr' fun hk d hvisit => ?_⟩
    cases hvisit.symm.trans (eq_eval_of_folds hrt hr')
    exact hd.2.resolve_left (by simp [hk])
theorem evalReadWith_of_clean : ∀ u : UpdateList, u.wellTyped = true →
    u.defined b.toAssignment = true → ∀ index, u.cleanAt b index = true →
      evalReadWith (fun a index => .constant (b.evaluate a index)) index u =
        evalReadWith (inBounds b) index u ∧ Folds (evalReadWith (inBounds b) index u)
  | .root a, _, _, index, hu => by
    have hbyte : Expr.constant (b.evaluate a index) = inBounds b a index := by
      rw [inBounds]
      split_ifs with hlt
      · rfl
      · simp only [UpdateList.cleanAt, hlt, decide_false, Bool.false_or, beq_iff_eq] at hu
        rw [hu]
    refine ⟨by simp only [evalReadWith, hbyte], folds_pure ?_⟩
    split_ifs <;> rfl
  | .node i v next, ht, hd, index, hu => by
    simp only [UpdateList.wellTyped, UpdateList.defined, UpdateList.cleanAt,
      Bool.and_eq_true] at ht hd hu
    obtain ⟨hi, hfolds⟩ := visit_of_clean i ht.1.1.1.1 hd.1.1 hu.1
    have heval := eq_eval_of_folds ht.1.1.1.1 hfolds
    rw [evalReadWith_node (hi.trans heval), evalReadWith_node heval]
    have hu := hu.2
    split_ifs at hu ⊢
    · exact visit_of_clean v ht.1.1.1.2 hd.1.2 hu
    · exact evalReadWith_of_clean next ht.1.1.2 hd.2 index hu
end

theorem evaluates_of_clean {e : Expr} (ht : e.wellTyped = true)
    (hd : e.defined b.toAssignment = true) (hu : e.cleanUnder b = true) : Evaluates b e := by
  obtain ⟨heq, hfolds⟩ := visit_of_clean e ht hd hu
  exact heq.trans (eq_eval_of_folds ht hfolds)

mutual
theorem forall_reached_of_clean : ∀ e : Expr, e.wellTyped = true →
    e.defined b.toAssignment = true → e.cleanUnder b = true → ∀ s ∈ e.reached b, Evaluates b s
  | .constant c, ht, hd, hu => by
    simpa only [Expr.reached, List.forall_mem_singleton] using evaluates_of_clean ht hd hu
  | .notOptimized s, ht, hd, hu => by
    refine List.forall_mem_cons.mpr ⟨evaluates_of_clean ht hd hu, ?_⟩
    simp only [Expr.cleanUnder, Bool.and_eq_true] at hu
    exact forall_reached_of_clean s ht hd hu.1
  | .read u i, ht, hd, hu => by
    refine List.forall_mem_cons.mpr ⟨evaluates_of_clean ht hd hu, ?_⟩
    simp only [Expr.wellTyped, Expr.defined, Expr.cleanUnder, Bool.and_eq_true] at ht hd hu
    exact List.forall_mem_append.mpr ⟨forall_reached_of_clean i ht.1.2 hd.2 hu.1,
      forall_reachedAt_of_clean u ht.1.1 hd.1 _ hu.2⟩
  | .select c t f, ht, hd, hu => by
    refine List.forall_mem_cons.mpr ⟨evaluates_of_clean ht hd hu, ?_⟩
    simp only [Expr.wellTyped, Expr.defined, Expr.cleanUnder, Bool.and_eq_true] at ht hd hu
    simp only [List.forall_mem_append]
    exact ⟨⟨forall_reached_of_clean c ht.1.1.1.1 hd.1.1 hu.1.1,
      forall_reached_of_clean t ht.1.1.1.2 hd.1.2 hu.1.2⟩,
      forall_reached_of_clean f ht.1.1.2 hd.2 hu.2⟩
  | .concat l r, ht, hd, hu => by
    refine List.forall_mem_cons.mpr ⟨evaluates_of_clean ht hd hu, ?_⟩
    simp only [Expr.wellTyped, Expr.defined, Expr.cleanUnder, Bool.and_eq_true] at ht hd hu
    exact List.forall_mem_append.mpr ⟨forall_reached_of_clean l ht.1 hd.1 hu.1,
      forall_reached_of_clean r ht.2 hd.2 hu.2⟩
  | .extract e off w, ht, hd, hu => by
    refine List.forall_mem_cons.mpr ⟨evaluates_of_clean ht hd hu, ?_⟩
    simp only [Expr.wellTyped, Bool.and_eq_true] at ht
    exact forall_reached_of_clean e ht.1.1 hd hu
  | .not e, ht, hd, hu =>
    List.forall_mem_cons.mpr ⟨evaluates_of_clean ht hd hu, forall_reached_of_clean e ht hd hu⟩
  | .cast k e w, ht, hd, hu => by
    refine List.forall_mem_cons.mpr ⟨evaluates_of_clean ht hd hu, ?_⟩
    simp only [Expr.wellTyped, Bool.and_eq_true] at ht
    exact forall_reached_of_clean e ht.1 hd hu
  | .binary k l r, ht, hd, hu => by
    refine List.forall_mem_cons.mpr ⟨evaluates_of_clean ht hd hu, ?_⟩
    obtain ⟨hl, hr, -⟩ := Expr.wellTyped_operands ht
    simp only [Expr.defined, Expr.cleanUnder, Bool.and_eq_true] at hd hu
    exact List.forall_mem_append.mpr ⟨forall_reached_of_clean l hl hd.1.1 hu.1,
      forall_reached_of_clean r hr hd.1.2 hu.2⟩
theorem forall_reachedAt_of_clean : ∀ u : UpdateList, u.wellTyped = true →
    u.defined b.toAssignment = true → ∀ index, u.cleanAt b index = true →
      ∀ s ∈ u.reachedAt b index, Evaluates b s
  | .root _, _, _, _, _ => fun s hs => absurd hs List.not_mem_nil
  | .node i v next, ht, hd, index, hu => by
    simp only [UpdateList.wellTyped, UpdateList.defined, UpdateList.cleanAt,
      Bool.and_eq_true] at ht hd hu
    refine List.forall_mem_append.mpr ⟨forall_reached_of_clean i ht.1.1.1.1 hd.1.1 hu.1, ?_⟩
    have hu := hu.2
    split_ifs at hu ⊢
    · exact forall_reached_of_clean v ht.1.1.1.2 hd.1.2 hu
    · exact forall_reachedAt_of_clean next ht.1.1.2 hd.2 index hu
end

/-- A wrapped constant is rebuilt, with its constant child, to itself. -/
theorem not_evaluates_wrapped (c : APInt) : ¬ Evaluates b (.notOptimized (.constant c)) := by
  intro h
  cases h

mutual
/-- Where all that is reached is evaluated to its value, nothing stands in the way. -/
theorem clean_of_evaluates : ∀ e : Expr, e.wellTyped = true →
    (∀ s ∈ e.reached b, Evaluates b s) → e.cleanUnder b = true
  | .constant _, _, _ => rfl
  | .notOptimized s, ht, h => by
    simp only [Expr.reached, List.forall_mem_cons] at h
    rw [Expr.cleanUnder, clean_of_evaluates s ht h.2, Bool.true_and, Bool.not_eq_true']
    cases s with
    | constant c => exact absurd h.1 (not_evaluates_wrapped c)
    | _ => rfl
  | .read u i, ht, h => by
    simp only [Expr.wellTyped, Bool.and_eq_true] at ht
    simp only [Expr.reached, List.forall_mem_cons, List.forall_mem_append] at h
    obtain ⟨hself, hi, hu⟩ := h
    rw [Expr.cleanUnder, clean_of_evaluates i ht.1.2 hi, Bool.true_and]
    refine cleanAt_of_evaluates u ht.1.1 ((i.width_eval _ ht.1.2).trans (by simpa using ht.2)) hu ?_
    have hindex := hi i (Expr.mem_reached_self b i)
    rw [Evaluates, visit] at hself hindex
    rw [visitWith, hindex] at hself
    exact hself
  | .select c t f, ht, h => by
    simp only [Expr.wellTyped, Bool.and_eq_true] at ht
    simp only [Expr.reached, List.forall_mem_cons, List.forall_mem_append] at h
    obtain ⟨-, ⟨hc, ht'⟩, hf⟩ := h
    simp only [Expr.cleanUnder, clean_of_evaluates c ht.1.1.1.1 hc,
      clean_of_evaluates t ht.1.1.1.2 ht', clean_of_evaluates f ht.1.1.2 hf, Bool.and_self]
  | .concat l r, ht, h => by
    simp only [Expr.wellTyped, Bool.and_eq_true] at ht
    simp only [Expr.reached, List.forall_mem_cons, List.forall_mem_append] at h
    simp only [Expr.cleanUnder, clean_of_evaluates l ht.1 h.2.1, clean_of_evaluates r ht.2 h.2.2,
      Bool.and_self]
  | .extract e off w, ht, h => by
    simp only [Expr.wellTyped, Bool.and_eq_true] at ht
    simp only [Expr.reached, List.forall_mem_cons] at h
    exact clean_of_evaluates e ht.1.1 h.2
  | .not e, ht, h => by
    simp only [Expr.reached, List.forall_mem_cons] at h
    exact clean_of_evaluates e ht h.2
  | .cast k e w, ht, h => by
    simp only [Expr.wellTyped, Bool.and_eq_true] at ht
    simp only [Expr.reached, List.forall_mem_cons] at h
    exact clean_of_evaluates e ht.1 h.2
  | .binary k l r, ht, h => by
    obtain ⟨hl, hr, -⟩ := Expr.wellTyped_operands ht
    simp only [Expr.reached, List.forall_mem_cons, List.forall_mem_append] at h
    simp only [Expr.cleanUnder, clean_of_evaluates l hl h.2.1, clean_of_evaluates r hr h.2.2,
      Bool.and_self]
theorem cleanAt_of_evaluates : ∀ u : UpdateList, u.wellTyped = true → ∀ {c : APInt},
    c.width = Width.Int32 → (∀ s ∈ u.reachedAt b c.toNat, Evaluates b s) →
      evalReadWith (fun a index => .constant (b.evaluate a index)) c.toNat u =
        .ok (.constant (u.evalRead b.toAssignment c)) → u.cleanAt b c.toNat = true
  | .root a, ha, c, _, _, h => by
    rw [UpdateList.cleanAt, Bool.or_eq_true, decide_eq_true_eq, beq_iff_eq]
    refine or_iff_not_imp_left.mpr fun hlt => ?_
    rw [evalReadWith, if_neg fun hin => hlt hin.2, UpdateList.evalRead,
      initialValue_past ha _ hlt] at h
    exact Expr.constant.inj (Except.ok.inj h)
  | .node i v next, ht, c, hc, hreached, h => by
    simp only [UpdateList.wellTyped, Bool.and_eq_true, beq_iff_eq] at ht
    simp only [UpdateList.reachedAt, List.forall_mem_append] at hreached
    obtain ⟨hi, hrest⟩ := hreached
    rw [UpdateList.cleanAt, clean_of_evaluates i ht.1.1.1.1 hi, Bool.true_and]
    rw [evalReadWith_node (hi i (Expr.mem_reached_self b i)), UpdateList.evalRead] at h
    have hwidth := (i.width_eval b.toAssignment ht.1.1.1.1).trans ht.1.2
    split_ifs at hrest h ⊢ with hindex heq heq
    · exact clean_of_evaluates v ht.1.1.1.2 hrest
    · exact absurd (APInt.ext_toNat (hwidth.trans hc.symm) hindex) heq
    · exact absurd (congrArg APInt.toNat heq) hindex
    · exact cleanAt_of_evaluates next ht.1.1.2 hc hrest h
end

/-- All that an expression reaches is evaluated to its value if and only if nothing stands in the
way. Then so is the expression itself. -/
theorem evaluates_exactly (b : Bindings) (e : Expr) (ht : e.wellTyped = true)
    (hd : e.defined b.toAssignment = true) :
    (e.cleanUnder b = true → Evaluates b e) ∧
      ((∀ s ∈ e.reached b, Evaluates b s) ↔ e.cleanUnder b = true) := by
  exact ⟨evaluates_of_clean ht hd, clean_of_evaluates e ht, forall_reached_of_clean e ht hd⟩

def simple_array : KleeArray := { name := "simple_array", size := 1, ufe := 0 }

def assignment : Bindings := .ofValues [simple_array] [[128]]

/-- With a byte past the end of the array. -/
def longAssignment : Bindings := .ofValues [simple_array] [[128, 1]]

/-- The read that the unit test keeps from being optimised. -/
def tempRead : Expr := .notOptimized (.read (.root simple_array) (.alloc 0 Width.Int32))

theorem evaluates_tempRead :
    tempRead.cleanUnder longAssignment = true ∧ Evaluates longAssignment tempRead :=
  ⟨by decide, (evaluates_exactly longAssignment tempRead (by decide) (by decide)).1 (by decide)⟩

/-- The update that is read comes before one with a wrapped constant, which is not reached. -/
example : (Expr.read (.node (.alloc 0 Width.Int32) (.alloc 7 Width.Int8)
    (.node (.alloc 1 Width.Int32) (.notOptimized (.alloc 5 Width.Int8)) (.root simple_array)))
      (.alloc 0 Width.Int32)).cleanUnder assignment = true := by decide

theorem not_evaluates : ¬ ∀ (b : Bindings) (e : Expr), e.wellTyped = true →
    e.defined b.toAssignment = true → Evaluates b e := fun h =>
  not_evaluates_wrapped _ (h assignment (.notOptimized (.alloc 5 Width.Int8)) (by decide)
    (by decide))

end ExprEvaluator

end TaseVerifier
