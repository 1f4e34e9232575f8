import TaseVerifier.Solver.FastCex
import TaseVerifier.Solver.Interval

/-! Guessing possible values. The ranges handed down do not depend on what was guessed
before, and the exact values are left alone; the propagation stops where an empty range
reaches a concatenation or a sign extension. -/

namespace TaseVerifier

open ValueRange CexRangeEvaluator

/-! ### What is guessed -/

/-- A range is guessed for an expression: the expressions for which one is guessed on account of
it, with their ranges. Which they are depends on the intervals of operands. -/
def Expr.guessed : Expr → ValueRange → List (Expr × ValueRange)
  | .select c t f, range => (.select c t f, range) ::
    if c.interval.isFixed then
      if c.interval.m_min ≠ 0 then t.guessed range else f.guessed range
    else t.guessed range ++ f.guessed range
  | .concat l r, range => (.concat l r, range) ::
    (l.guessed (got (range.extract r.getWidth (r.getWidth + r.getWidth))) ++
      r.guessed (got (range.extract 0 r.getWidth)))
  | .cast .ZExt e w, range => (.cast .ZExt e w, range) ::
    e.guessed (range.setIntersection (full e.getWidth))
  | .cast .SExt e w, range => (.cast .SExt e w, range) :: e.guessed
    (got ((CexData.sextOutput range e.getWidth w).binaryAnd (fixed (maxValueOfNBits e.getWidth))))
  | .not e, range => (.not e, range) ::
    if e.getWidth = Width.Bool ∧ range.isFixed then
      e.guessed (fixed (if range.m_min = 0 then 1 else 0))
    else []
  | .binary k l r, range => (.binary k l r, range) ::
    match k with
    | .Add =>
      match l with
      | .constant c =>
        if c.width ≤ 64 ∧ range.isEmpty = false ∧ (CexData.addOperand range c).isEmpty = false then
          r.guessed (CexData.addOperand range c)
        else []
      | _ => []
    | .And =>
      if l.getWidth = Width.Bool ∧ range.isFixed then
        if range.m_min = 0 then
          if l.interval.mustEqual (fixed 0) || r.interval.mustEqual (fixed 0) then []
          else l.guessed (fixed 0) ++
            if l.interval.mustEqual (fixed 1) then [] else r.guessed (fixed 0)
        else
          (if l.interval.mustEqual (fixed 1) then [] else l.guessed (fixed 1)) ++
            if r.interval.mustEqual (fixed 1) then [] else r.guessed (fixed 1)
      else []
    | .Or =>
      if l.getWidth = Width.Bool ∧ range.isFixed then
        if range.m_min ≠ 0 then
          if l.interval.mustEqual (fixed 1) || r.interval.mustEqual (fixed 1) then []
          else l.guessed (fixed 1) ++
            if l.interval.mustEqual (fixed 1) then [] else r.guessed (fixed 1)
        else
          (if l.interval.mustEqual (fixed 0) then [] else l.guessed (fixed 0)) ++
            if r.interval.mustEqual (fixed 0) then [] else r.guessed (fixed 0)
      else []
    | .Eq =>
      match l with
      | .constant c =>
        if range.isFixed ∧ c.width ≤ 64 then
          r.guessed (if range.m_min ≠ 0 then fixed c.toNat else CexData.otherValues c)
        else []
      | _ => []
    | .Ult =>
      if range.isFixed then
        match CexData.ultOperand (range.m_min ≠ 0) l.interval r.interval
            (maxValueOfNBits r.getWidth) with
        | .left range => l.guessed range
        | .right range => r.guessed range
        | .none => []
      else []
    | .Ule =>
      if range.isFixed then
        match CexData.uleOperand (range.m_min ≠ 0) l.interval r.interval
            (maxValueOfNBits r.getWidth) with
        | .left range => l.guessed range
        | .right range => r.guessed range
        | .none => []
      else []
    | _ => []
  | e, range => [(e, range)]

namespace Expr

/-- The intervals that a guess for the node asks for are by right rules, and a comparison is
canonical. -/
def trustsAt : Expr → ValueRange → Bool
  | .select c _ _, _ => c.ranged
  | .binary k l r, range =>
    match k with
    | .And | .Or => !(decide (l.getWidth = Width.Bool) && range.isFixed) || l.ranged && r.ranged
    | .Ult | .Ule => !range.isFixed || l.ranged && r.ranged
    | k => k.isCanonical
  | _, _ => true

/-- No empty range is taken apart at the node. -/
def splitsAt : Expr → ValueRange → Bool
  | .concat _ _, range => !range.isEmpty
  | .cast .SExt e w, range => !(CexData.sextOutput range e.getWidth w).isEmpty
  | _, _ => true

end Expr

namespace CexData

/-! ### Steps that leave the exact values alone -/

/-- The exact range of a byte. -/
def exactOf (cd : CexData) (a : KleeArray) (i : ℕ) : ValueRange :=
  (cd.getObjectData a).exactContents i

/-- The step returns exactly if no empty range is taken apart where `ds` are guessed, and then
with the same exact values. -/
structure Keeps (x : CexData → Except CexStop CexData) (ds : List (Expr × ValueRange)) : Prop where
  returns : ∀ cd, (∃ cd', x cd = .ok cd') ↔ ∀ d ∈ ds, d.1.splitsAt d.2 = true
  stops : ∀ cd s, x cd = .error s → s = .emptyRange
  exact : ∀ cd cd', x cd = .ok cd' → cd'.exactOf = cd.exactOf

open ExprReplaceVisitor (bind_eq_ok)

theorem ok_bind {α β : Type} (a : α) (f : α → Except CexStop β) : (Except.ok a >>= f) = f a := rfl

section Keeps

variable {x y : CexData → Except CexStop CexData} {ds ds' : List (Expr × ValueRange)}
  {d : Expr × ValueRange}

theorem keeps_pure {f : CexData → CexData} (h : ∀ cd, (f cd).exactOf = cd.exactOf) :
    Keeps (fun cd => pure (f cd)) [] where
  returns cd := ⟨fun _ _ hd => absurd hd List.not_mem_nil, fun _ => ⟨_, rfl⟩⟩
  stops cd s hx := by cases hx
  exact cd cd' hx := by
    cases hx
    exact h cd

theorem keeps_id : Keeps pure [] := keeps_pure (f := id) fun _ => rfl

theorem keeps_stop (hd : d ∈ ds) (hsplits : d.1.splitsAt d.2 = false)
    (h : ∀ cd, x cd = .error .emptyRange) : Keeps x ds where
  returns cd := by
    rw [h cd]
    refine ⟨fun ⟨cd', hx⟩ => (by cases hx), fun hall => ?_⟩
    rw [hall d hd] at hsplits
    cases hsplits
  stops cd s hx := (Except.error.inj ((h cd).symm.trans hx)).symm
  exact cd cd' hx := by
    rw [h cd] at hx
    cases hx

theorem Keeps.cons (hx : Keeps x ds) (hd : d.1.splitsAt d.2 = true) : Keeps x (d :: ds) where
  returns cd := by rw [hx.returns, List.forall_mem_cons, and_iff_right hd]
  stops := hx.stops
  exact := hx.exact

theorem Keeps.seq (hx : Keeps x ds) (hy : Keeps y ds') :
    Keeps (fun cd => x cd >>= y) (ds ++ ds') where
  returns cd := by
    rw [List.forall_mem_append, ← hx.returns cd]
    constructor
    · rintro ⟨cd', h⟩
      obtain ⟨cd₁, h₁, h₂⟩ := bind_eq_ok.mp h
      exact ⟨⟨cd₁, h₁⟩, (hy.returns cd₁).mp ⟨cd', h₂⟩⟩
    · rintro ⟨⟨cd₁, h₁⟩, hq⟩
      obtain ⟨cd', h₂⟩ := (hy.returns cd₁).mpr hq
      exact ⟨cd', bind_eq_ok.mpr ⟨cd₁, h₁, h₂⟩⟩
  stops cd s h := by
    cases h₁ : x cd with
    | error s' =>
      rw [h₁] at h
      cases h
      exact hx.stops cd s h₁
    | ok cd₁ =>
      rw [h₁] at h
      exact hy.stops cd₁ s h
  exact cd cd' h := by
    obtain ⟨cd₁, h₁, h₂⟩ := bind_eq_ok.mp h
    exact (hy.exact cd₁ cd' h₂).trans (hx.exact cd cd₁ h₁)

theorem keeps_ite {c : Prop} [Decidable c] (hx : c → Keeps x ds) (hy : ¬ c → Keeps y ds') :
    Keeps (fun cd => if c then x cd else y cd) (if c then ds else ds') := by
  by_cases hc : c
  · simp only [if_pos hc]
    exact hx hc
  · simp only [if_neg hc]
    exact hy hc

/-- An operand that has the value already is not propagated. -/
theorem keeps_skip {c : Prop} [Decidable c] (hx : ¬ c → Keeps x ds) :
    Keeps (fun cd => if c then pure cd else x cd) (if c then [] else ds) :=
  keeps_ite (fun _ => keeps_id) hx

theorem keeps_skip_seq {c : Prop} [Decidable c] (hx : ¬ c → Keeps x ds) (hy : Keeps y ds') :
    Keeps (fun cd => if c then pure cd >>= y else x cd >>= y) ((if c then [] else ds) ++ ds') := by
  have h := keeps_ite (c := c) (fun _ => keeps_id.seq hy) fun hc => (hx hc).seq hy
  by_cases hc : c
  · simpa only [if_pos hc] using h
  · simpa only [if_neg hc] using h

end Keeps

/-! ### Guessing -/

theorem getObjectData_setObjectData (cd : CexData) (a b : KleeArray) (o : CexObjectData) :
    (cd.setObjectData a o).getObjectData b = if b = a then o else cd.getObjectData b := by
  simp only [getObjectData, setObjectData, Function.update_apply]
  split_ifs <;> rfl

theorem exactOf_setObjectData (cd : CexData) (a : KleeArray) (o : CexObjectData)
    (h : o.exactContents = (cd.getObjectData a).exactContents) :
    (cd.setObjectData a o).exactOf = cd.exactOf := by
  funext b i
  unfold exactOf
  rw [getObjectData_setObjectData]
  split_ifs with hb
  · rw [h, hb]
  · rfl

theorem exactOf_possibleRead (a : KleeArray) (i : Expr) (range : ValueRange) (cd : CexData) :
    (propogatePossibleRead a i range cd).exactOf = cd.exactOf := by
  unfold propogatePossibleRead
  simp only
  split
  · split_ifs <;> exact exactOf_setObjectData _ _ _ rfl
  · exact exactOf_setObjectData _ _ _ rfl

/-- Taking the bits out of a range stops if the range is empty, and only then. -/
theorem binaryAnd_fixed (r : ValueRange) (v : ℕ) :
    r.binaryAnd (fixed v) =
      if r.isEmpty then .error .emptyRange else .ok (got (r.binaryAnd (fixed v))) := by
  have hv : (fixed v).isEmpty = false := by simp [ValueRange.isEmpty, fixed]
  unfold ValueRange.binaryAnd
  rw [hv, Bool.or_false]
  split_ifs <;> rfl

theorem isEmpty_shiftRight {r : ValueRange} (bits : ℕ) (h : r.isEmpty = false) :
    (r.binaryShiftRight bits).isEmpty = false := by
  have hle : r.m_min ≤ r.m_max := by simpa [ValueRange.isEmpty] using h
  exact decide_eq_false (not_lt.mpr (Library.Bits.shiftRight_le hle bits))

theorem extract_of_nonempty {r : ValueRange} (h : r.isEmpty = false) (lowBit maxBit : ℕ) :
    ∃ t, r.extract lowBit maxBit = .ok t := by
  unfold ValueRange.extract
  rw [binaryAnd_fixed, isEmpty_shiftRight lowBit h]
  exact ⟨_, rfl⟩

theorem extract_of_empty {r : ValueRange} (h : r.isEmpty = true) (maxBit : ℕ) :
    r.extract 0 maxBit = .error .emptyRange := by
  unfold ValueRange.extract
  rw [binaryAnd_fixed, if_pos (show (r.binaryShiftRight 0).isEmpty = true from h)]

theorem extract_stops {r : ValueRange} {lowBit maxBit : ℕ} {s : CexStop}
    (h : r.extract lowBit maxBit = .error s) : s = .emptyRange := by
  unfold ValueRange.extract at h
  rw [binaryAnd_fixed] at h
  split_ifs at h
  exact (Except.error.inj h).symm

/-- Of an operand that is to be narrowed the range is guessed. -/
theorem keeps_operand {l r : Expr} (operand : Operand) :
    (∀ range, operand = .left range → Keeps (propogatePossibleValues l range) (l.guessed range)) →
    (∀ range, operand = .right range → Keeps (propogatePossibleValues r range) (r.guessed range)) →
    Keeps (fun cd => match operand with
      | .left range => propogatePossibleValues l range cd
      | .right range => propogatePossibleValues r range cd
      | .none => pure cd)
      (match operand with
      | .left range => l.guessed range
      | .right range => r.guessed range
      | .none => []) := by
  intro hl hr
  cases operand with
  | left range => exact hl range rfl
  | right range => exact hr range rfl
  | none => exact keeps_id

/-- A guess returns exactly if no empty range is taken apart. -/
theorem possible_keeps : ∀ (e : Expr) (range : ValueRange), e.wellTyped = true →
    e.narrow = true → (∀ d ∈ e.guessed range, d.1.trustsAt d.2 = true) →
      Keeps (propogatePossibleValues e range) (e.guessed range)
  | .constant _, _, _, _, _ | .notOptimized _, _, _, _, _ | .extract _ _ _, _, _, _, _ =>
    keeps_id.cons rfl
  | .read u i, range, _, _, _ => (keeps_pure (exactOf_possibleRead u.array i range)).cons rfl
  | .select c t f, range, ht, hn, htr => by
    simp only [Expr.wellTyped, Expr.narrow, Bool.and_eq_true] at ht hn
    rw [Expr.guessed] at htr ⊢
    obtain ⟨hc, htr⟩ := List.forall_mem_cons.mp htr
    refine Keeps.cons ?_ rfl
    show Keeps (fun cd => propogatePossibleValues (.select c t f) range cd) _
    simp only [propogatePossibleValues, evaluate_eq c ht.1.1.1.1 hn.1.1 hc, ok_bind]
    refine keeps_ite (fun h => keeps_ite (fun h' => ?_) fun h' => ?_) fun h => ?_
    · rw [if_pos h, if_pos h'] at htr
      exact possible_keeps t range ht.1.1.1.2 hn.1.2 htr
    · rw [if_pos h, if_neg h'] at htr
      exact possible_keeps f range ht.1.1.2 hn.2 htr
    · rw [if_neg h, List.forall_mem_append] at htr
      exact (possible_keeps t range ht.1.1.1.2 hn.1.2 htr.1).seq
        (possible_keeps f range ht.1.1.2 hn.2 htr.2)
  | .concat l r, range, ht, hn, htr => by
    simp only [Expr.wellTyped, Expr.narrow, Bool.and_eq_true] at ht hn
    rw [Expr.guessed] at htr ⊢
    obtain ⟨-, htr⟩ := List.forall_mem_cons.mp htr
    rw [List.forall_mem_append] at htr
    show Keeps (fun cd => propogatePossibleValues (.concat l r) range cd) _
    cases hempty : range.isEmpty with
    | false =>
      refine Keeps.cons ?_ (by rw [Expr.splitsAt, hempty]; rfl)
      obtain ⟨high, hhigh⟩ := extract_of_nonempty hempty r.getWidth (r.getWidth + r.getWidth)
      obtain ⟨low, hlow⟩ := extract_of_nonempty hempty 0 r.getWidth
      simp only [hhigh, hlow, got] at htr
      simp only [propogatePossibleValues, hhigh, hlow, got, ok_bind]
      exact (possible_keeps l high ht.1 hn.1.1 htr.1).seq (possible_keeps r low ht.2 hn.1.2 htr.2)
    | true =>
      refine keeps_stop List.mem_cons_self (by rw [Expr.splitsAt, hempty]; rfl) fun cd => ?_
      simp only [propogatePossibleValues, extract_of_empty hempty]
      cases hhigh : range.extract r.getWidth (r.getWidth + r.getWidth) with
      | error s => exact congrArg Except.error (extract_stops hhigh)
      | ok high =>
        rw [hhigh, got] at htr
        have ih := possible_keeps l high ht.1 hn.1.1 htr.1
        cases hl : propogatePossibleValues l high cd with
        | error s =>
          rw [ih.stops cd s hl] at hl
          rw [ok_bind, hl]
          rfl
        | ok cd₁ =>
          rw [ok_bind, hl]
          rfl
  | .cast .ZExt e w, range, ht, hn, htr => by
    simp only [Expr.wellTyped, Expr.narrow, Bool.and_eq_true] at ht hn
    rw [Expr.guessed] at htr ⊢
    exact (possible_keeps e _ ht.1 hn.1 (List.forall_mem_cons.mp htr).2).cons rfl
  | .cast .SExt e w, range, ht, hn, htr => by
    simp only [Expr.wellTyped, Expr.narrow, Bool.and_eq_true] at ht hn
    rw [Expr.guessed] at htr ⊢
    obtain ⟨-, htr⟩ := List.forall_mem_cons.mp htr
    show Keeps (fun cd => propogatePossibleValues (.cast .SExt e w) range cd) _
    cases hempty : (sextOutput range e.getWidth w).isEmpty with
    | false =>
      refine Keeps.cons ?_ (by rw [Expr.splitsAt, hempty]; rfl)
      simp only [propogatePossibleValues]
      rw [binaryAnd_fixed, hempty]
      exact possible_keeps e _ ht.1 hn.1 htr
    | true =>
      refine keeps_stop List.mem_cons_self (by rw [Expr.splitsAt, hempty]; rfl) fun cd => ?_
      simp only [propogatePossibleValues]
      rw [binaryAnd_fixed, hempty]
      rfl
  | .not e, range, ht, hn, htr => by
    rw [Expr.guessed] at htr ⊢
    obtain ⟨-, htr⟩ := List.forall_mem_cons.mp htr
    refine Keeps.cons ?_ rfl
    show Keeps (fun cd => propogatePossibleValues (.not e) range cd) _
    simp only [propogatePossibleValues]
    refine keeps_ite (fun h => ?_) fun _ => keeps_id
    rw [if_pos h] at htr
    exact possible_keeps e _ ht hn htr
  | .binary k l r, range, ht, hn, htr => by
    obtain ⟨hlt, hrt, -⟩ := Expr.wellTyped_operands ht
    simp only [Expr.narrow, Bool.and_eq_true] at hn
    show Keeps (fun cd => propogatePossibleValues (.binary k l r) range cd) _
    cases k with
    | Sub | Mul | UDiv | SDiv | URem | SRem | Xor | Shl | LShr | AShr | Slt | Sle =>
      exact keeps_id.cons rfl
    | Ne | Ugt | Uge | Sgt | Sge => cases htr _ List.mem_cons_self
    | Add | Eq =>
      cases l with
      | constant c =>
        simp only [Expr.guessed, propogatePossibleValues] at htr ⊢
        refine Keeps.cons (keeps_ite (fun h => ?_) fun _ => keeps_id) rfl
        rw [if_pos h, List.forall_mem_cons] at htr
        exact possible_keeps r _ hrt hn.2 htr.2
      | _ => exact keeps_id.cons rfl
    | And | Or =>
      simp only [Expr.guessed, propogatePossibleValues] at htr ⊢
      refine Keeps.cons (keeps_ite (fun h => ?_) fun _ => keeps_id) rfl
      rw [if_pos h, List.forall_mem_cons] at htr
      obtain ⟨hself, htr⟩ := htr
      simp only [Expr.trustsAt, h.1, h.2, decide_true, Bool.and_self, Bool.not_true, Bool.false_or,
        Bool.and_eq_true] at hself
      simp only [evaluate_eq l hlt hn.1 hself.1, evaluate_eq r hrt hn.2 hself.2, ok_bind]
      refine keeps_ite (fun hv => ?_) fun hv => ?_
      · rw [if_pos hv] at htr
        refine keeps_skip fun hmust => ?_
        rw [if_neg hmust, List.forall_mem_append] at htr
        refine (possible_keeps l _ hlt hn.1 htr.1).seq (keeps_skip fun hone => ?_)
        rw [if_neg hone] at htr
        exact possible_keeps r _ hrt hn.2 htr.2
      · rw [if_neg hv, List.forall_mem_append] at htr
        refine keeps_skip_seq (fun hl => ?_) (keeps_skip fun hr => ?_)
        · rw [if_neg hl] at htr
          exact possible_keeps l _ hlt hn.1 htr.1
        · rw [if_neg hr] at htr
          exact possible_keeps r _ hrt hn.2 htr.2
    | Ult | Ule =>
      simp only [Expr.guessed, propogatePossibleValues] at htr ⊢
      refine Keeps.cons (keeps_ite (fun h => ?_) fun _ => keeps_id) rfl
      rw [if_pos h, List.forall_mem_cons] at htr
      obtain ⟨hself, htr⟩ := htr
      simp only [Expr.trustsAt, h, Bool.not_true, Bool.false_or, Bool.and_eq_true] at hself
      simp only [evaluate_eq l hlt hn.1 hself.1, evaluate_eq r hrt hn.2 hself.2, ok_bind]
      refine keeps_operand _ (fun range' heq => ?_) fun range' heq => ?_
      · rw [heq] at htr
        exact possible_keeps l range' hlt hn.1 htr
      · rw [heq] at htr
        exact possible_keeps r range' hrt hn.2 htr

end CexData

end TaseVerifier
