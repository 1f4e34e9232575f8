import TaseVerifier.Solver.FastCexGuess

/-! Exact values. A byte equation that follows from an expression having its value is written
down; what is written down is true of every assignment that gives the expression the value.
The propagation stops where two of the equations contradict each other. -/

namespace TaseVerifier

open ValueRange CexRangeEvaluator

/-! ### Byte equations -/

/-- A byte of an array and the value it has. -/
structure ByteFact where
  array : KleeArray
  index : ℕ
  value : ℕ
  deriving DecidableEq

namespace ByteFact

/-- The facts do not give one byte two values. -/
def Agrees (f g : ByteFact) : Prop := f.array = g.array → f.index = g.index → f.value = g.value

instance : DecidableRel Agrees := fun f g =>
  inferInstanceAs (Decidable (f.array = g.array → f.index = g.index → f.value = g.value))

def TrueIn (σ : Assignment) (f : ByteFact) : Prop := (σ f.array f.index).toNat = f.value

end ByteFact

mutual
/-- The byte equation that is read off the expression when it has the value. -/
def Expr.forced : Expr → ℕ → Option ByteFact
  | .read u i, value => u.forced i.interval i value
  | .not e, value =>
    if e.getWidth = Width.Bool then e.forced (if value = 0 then 1 else 0) else none
  | .binary k l r, value =>
    match k with
    | .Eq =>
      match l with
      | .constant c =>
        if c.width ≤ 64 then
          if value ≠ 0 then r.forced c.toNat
          else if r.getWidth = Width.Bool then r.forced (if c.toNat = 0 then 1 else 0)
          else none
        else none
      | _ => none
    | _ => none
  | .constant _, _ | .notOptimized _, _ | .select _ _ _, _ | .concat _ _, _
  | .extract _ _ _, _ | .cast _ _ _, _ => none
def UpdateList.forced (index : ValueRange) (i : Expr) (value : ℕ) : UpdateList → Option ByteFact
  | .root a => if index.isFixed ∧ a.isSymbolicArray then some ⟨a, index.m_min, value⟩ else none
  | .node j v next =>
    if !j.interval.mayEqual index then next.forced index i value
    else if j.interval.mustEqual index || i = j then v.forced value
    else none
end

mutual
/-- The intervals that lead to the byte equation are by right rules, and a comparison is
canonical. -/
def Expr.forcedRight : Expr → ℕ → Bool
  | .read u i, value => i.ranged && u.forcedRight i.interval i value
  | .not e, value =>
    if e.getWidth = Width.Bool then e.forcedRight (if value = 0 then 1 else 0) else true
  | .binary k l r, value =>
    match k with
    | .Eq =>
      match l with
      | .constant c =>
        if c.width ≤ 64 then
          if value ≠ 0 then r.forcedRight c.toNat
          else if r.getWidth = Width.Bool then r.forcedRight (if c.toNat = 0 then 1 else 0)
          else true
        else true
      | _ => true
    | k => k.isCanonical
  | .constant _, _ | .notOptimized _, _ | .select _ _ _, _ | .concat _ _, _
  | .extract _ _ _, _ | .cast _ _ _, _ => true
def UpdateList.forcedRight (index : ValueRange) (i : Expr) (value : ℕ) : UpdateList → Bool
  | .root _ => true
  | .node j v next => j.ranged &&
    if !j.interval.mayEqual index then next.forcedRight index i value
    else if j.interval.mustEqual index || i = j then v.forcedRight value
    else true
end

mutual
/-- Every byte that is read is one of the array. -/
def Expr.inBounds (σ : Assignment) : Expr → Bool
  | .constant _ => true
  | .notOptimized s => s.inBounds σ
  | .read u i => u.inBounds σ && i.inBounds σ && decide ((i.eval σ).toNat < u.array.size)
  | .select c t f => c.inBounds σ && t.inBounds σ && f.inBounds σ
  | .concat l r => l.inBounds σ && r.inBounds σ
  | .extract e _ _ => e.inBounds σ
  | .not e => e.inBounds σ
  | .cast _ e _ => e.inBounds σ
  | .binary _ l r => l.inBounds σ && r.inBounds σ
def UpdateList.inBounds (σ : Assignment) : UpdateList → Bool
  | .root _ => true
  | .node i v next => i.inBounds σ && v.inBounds σ && next.inBounds σ
end

theorem isFixed_fixed (v : ℕ) : (fixed v).isFixed = true := beq_self_eq_true v

namespace CexData

open ExprReplaceVisitor (bind_eq_ok)

/-! ### The exact values are those of the facts -/

structure Records (cd : CexData) (facts : List ByteFact) : Prop where
  known : ∀ f ∈ facts, cd.exactOf f.array f.index = fixed f.value
  unknown : ∀ a i, (∀ f ∈ facts, ¬ (f.array = a ∧ f.index = i)) → cd.exactOf a i = full 8

theorem Records.congr {cd cd' : CexData} {facts : List ByteFact} (h : Records cd facts)
    (he : cd'.exactOf = cd.exactOf) : Records cd' facts :=
  ⟨fun f hf => he ▸ h.known f hf, fun a i hi => he ▸ h.unknown a i hi⟩

theorem records_initial : Records initial [] :=
  ⟨fun _ hf => (List.not_mem_nil hf).elim, fun _ _ _ => rfl⟩

/-- The step adds the fact, unless it contradicts one that is there. -/
structure Learns (x : CexData → Except CexStop CexData) (fact : Option ByteFact) : Prop where
  returns : ∀ cd facts, Records cd facts →
    ((∃ cd', x cd = .ok cd') ↔ ∀ f ∈ facts, ∀ g ∈ fact, f.Agrees g)
  stops : ∀ cd facts s, Records cd facts → x cd = .error s → s = .exactConflict
  records : ∀ cd facts cd', Records cd facts → x cd = .ok cd' →
    Records cd' (facts ++ fact.toList)

theorem learns_none : Learns pure none where
  returns _ _ _ := ⟨fun _ _ _ _ hg => (Option.not_mem_none _ hg).elim, fun _ => ⟨_, rfl⟩⟩
  stops _ _ _ _ hx := by cases hx
  records cd facts cd' h hx := by
    cases hx
    simpa using h

theorem learns_ite {c : Prop} [Decidable c] {x y : CexData → Except CexStop CexData}
    {f g : Option ByteFact} (hx : c → Learns x f) (hy : ¬ c → Learns y g) :
    Learns (fun cd => if c then x cd else y cd) (if c then f else g) := by
  by_cases hc : c
  · simp only [if_pos hc]
    exact hx hc
  · simp only [if_neg hc]
    exact hy hc

theorem exactOf_setExactValues (cd : CexData) (a b : KleeArray) (i j : ℕ) (r : ValueRange) :
    (cd.setObjectData a ((cd.getObjectData a).setExactValues i r)).exactOf b j =
      if b = a ∧ j = i then r else cd.exactOf b j := by
  unfold exactOf
  rw [getObjectData_setObjectData]
  by_cases hb : b = a
  · subst hb
    simp only [if_true, true_and, CexObjectData.setExactValues, Function.update_apply]
  · rw [if_neg hb, if_neg fun h => hb h.1]

/-- A byte of which nothing is known gets the value. -/
theorem narrowExact_full {v : ℕ} (h : v < 2 ^ 8) : narrowExact (full 8) (fixed v) = .ok (fixed v) := by
  have h256 : v < 256 := h
  rcases Nat.eq_zero_or_pos v with rfl | hpos
  · rfl
  · rcases Nat.lt_or_ge v 255 with hlt | hge
    · simp [narrowExact, full, fixed, ValueRange.min, ValueRange.max, ValueRange.isEmpty,
        maxValueOfNBits, ok_bind, hpos, hlt, hlt.not_gt, pure, Except.pure]
    · obtain rfl : v = 255 := by omega
      rfl

/-- A byte with a value keeps it; another value is a conflict. -/
theorem narrowExact_fixed (u v : ℕ) :
    narrowExact (fixed u) (fixed v) = if u = v then .ok (fixed v) else .error .exactConflict := by
  rcases lt_trichotomy u v with h | rfl | h
  · simp [narrowExact, fixed, ValueRange.min, ValueRange.max, ValueRange.isEmpty, ok_bind, h,
      h.ne, h.not_ge, pure, Except.pure]
    rfl
  · simp [narrowExact, fixed, ValueRange.min, ValueRange.max, ValueRange.isEmpty, ok_bind, pure,
      Except.pure]
  · simp [narrowExact, fixed, ValueRange.min, ValueRange.max, ValueRange.isEmpty, ok_bind, h,
      h.ne', h.not_gt, h.not_ge, pure, Except.pure]
    rfl

/-- The byte becomes narrower exactly if the value agrees with what is known of it. -/
theorem Records.narrow {cd : CexData} {facts : List ByteFact} (h : Records cd facts)
    {g : ByteFact} (hg : g.value < 2 ^ 8) :
    ((∃ cvd, narrowExact (cd.exactOf g.array g.index) (fixed g.value) = .ok cvd) ↔
      ∀ f ∈ facts, f.Agrees g) ∧
    (∀ cvd, narrowExact (cd.exactOf g.array g.index) (fixed g.value) = .ok cvd →
      cvd = fixed g.value) ∧
    ∀ s, narrowExact (cd.exactOf g.array g.index) (fixed g.value) = .error s →
      s = .exactConflict := by
  by_cases hk : ∃ f ∈ facts, f.array = g.array ∧ f.index = g.index
  · obtain ⟨f, hf, ha, hi⟩ := hk
    have hknown : cd.exactOf g.array g.index = fixed f.value := by rw [← ha, ← hi, h.known f hf]
    simp only [hknown, narrowExact_fixed]
    refine ⟨⟨?_, fun hall => ⟨_, if_pos (hall f hf ha hi)⟩⟩, fun cvd hcvd => ?_, fun s hs => ?_⟩
    · rintro ⟨cvd, hcvd⟩ f' hf' ha' hi'
      split_ifs at hcvd with hv
      have hsame := h.known f' hf'
      rw [ha', hi', hknown] at hsame
      exact (congrArg ValueRange.m_min hsame).symm.trans hv
    · split_ifs at hcvd
      exact (Except.ok.inj hcvd).symm
    · split_ifs at hs
      exact (Except.error.inj hs).symm
  · push Not at hk
    rw [h.unknown _ _ fun f hf hfi => hk f hf hfi.1 hfi.2, narrowExact_full hg]
    exact ⟨⟨fun _ f hf ha hi => absurd hi (hk f hf ha), fun _ => ⟨_, rfl⟩⟩,
      fun cvd hcvd => (Except.ok.inj hcvd).symm, fun s hs => by cases hs⟩

theorem Records.insert {cd : CexData} {facts : List ByteFact} (h : Records cd facts)
    {g : ByteFact} (hg : ∀ f ∈ facts, f.Agrees g) :
    Records (cd.setObjectData g.array
      ((cd.getObjectData g.array).setExactValues g.index (fixed g.value))) (facts ++ [g]) where
  known f hf := by
    rw [exactOf_setExactValues]
    rcases List.mem_append.mp hf with hf | hf
    · split_ifs with hc
      · rw [hg f hf hc.1 hc.2]
      · exact h.known f hf
    · obtain rfl := List.mem_singleton.mp hf
      exact if_pos ⟨rfl, rfl⟩
  unknown a i hi := by
    rw [exactOf_setExactValues, if_neg]
    · exact h.unknown a i fun f hf => hi f (List.mem_append_left _ hf)
    · rintro ⟨rfl, rfl⟩
      exact hi g (List.mem_append_right _ List.mem_cons_self) ⟨rfl, rfl⟩

/-- The initial byte of an array. -/
theorem learns_root (a : KleeArray) {index : ValueRange} {value : ℕ} (hvalue : value < 2 ^ 8)
    (hin : index.isFixed = true → index.m_min < a.size) (i : Expr) :
    Learns (propogateExactRoot a index (fixed value))
      ((UpdateList.root a).forced index i value) := by
  have hforced : (UpdateList.root a).forced index i value =
      if index.isFixed then
        if a.isConstantArray then none else some ⟨a, index.m_min, value⟩
      else none := by
    cases hf : index.isFixed <;> cases hs : a.isSymbolicArray <;>
      simp [UpdateList.forced, hf, hs, KleeArray.isConstantArray]
  rw [hforced]
  refine learns_ite (fun hfixed => ?_) fun _ => learns_none
  simp only [if_pos (hin hfixed)]
  refine learns_ite (fun _ => learns_none) fun _ =>
    ⟨fun cd facts h => ?_, fun cd facts s h hx => ?_, fun cd facts cd' h hx => ?_⟩
  all_goals
    obtain ⟨hiff, hval, hstops⟩ := h.narrow (g := ⟨a, index.m_min, value⟩) hvalue
  · simp only [Option.mem_some, forall_eq', ← hiff]
    constructor
    · rintro ⟨cd', hx⟩
      obtain ⟨cvd, hcvd, -⟩ := bind_eq_ok.mp hx
      exact ⟨cvd, hcvd⟩
    · rintro ⟨cvd, hcvd⟩
      exact ⟨_, bind_eq_ok.mpr ⟨cvd, hcvd, rfl⟩⟩
  · cases hcvd : narrowExact (cd.exactOf a index.m_min) (fixed value) with
    | error s' =>
      rw [exactOf] at hcvd
      rw [hcvd] at hx
      cases hx
      exact hstops s hcvd
    | ok cvd =>
      rw [exactOf] at hcvd
      rw [hcvd] at hx
      cases hx
  · obtain ⟨cvd, hcvd, hx⟩ := bind_eq_ok.mp hx
    cases hx
    rw [hval cvd hcvd]
    exact h.insert (g := ⟨a, index.m_min, value⟩) (hiff.mp ⟨cvd, hcvd⟩)

theorem Learns.touch {x : CexData → Except CexStop CexData} {fact : Option ByteFact}
    (h : Learns x fact) (a : KleeArray) :
    Learns (fun cd => x (cd.setObjectData a (cd.getObjectData a))) fact :=
  have hrec {cd : CexData} {facts : List ByteFact} (hr : Records cd facts) :
      Records (cd.setObjectData a (cd.getObjectData a)) facts :=
    hr.congr (exactOf_setObjectData cd a _ rfl)
  ⟨fun _ facts hr => h.returns _ facts (hrec hr), fun _ facts _ hr => h.stops _ facts _ (hrec hr),
    fun _ facts _ hr => h.records _ facts _ (hrec hr)⟩

/-- The value of the operand of a boolean negation. -/
theorem negated_lt (v : ℕ) {w : ℕ} (hw : w = Width.Bool) : (if v = 0 then 1 else 0) < 2 ^ w := by
  subst hw
  split_ifs <;> decide

mutual
theorem exact_learns {σ : Assignment} : ∀ (e : Expr) (value : ℕ), e.wellTyped = true →
    e.narrow = true → e.forcedRight value = true → e.inBounds σ = true → value < 2 ^ e.getWidth →
      Learns (propogateExactValues e (fixed value)) (e.forced value)
  | .constant _, _, _, _, _, _, _ | .notOptimized _, _, _, _, _, _, _
  | .select _ _ _, _, _, _, _, _, _ | .concat _ _, _, _, _, _, _, _
  | .extract _ _ _, _, _, _, _, _, _ | .cast _ _ _, _, _, _, _, _, _ => learns_none
  | .read u i, value, ht, hn, hr, hb, hv => by
    simp only [Expr.wellTyped, Expr.narrow, Expr.forcedRight, Expr.inBounds, Bool.and_eq_true,
      decide_eq_true_eq] at ht hn hr hb
    have ih := exactRead_learns u i.interval i value ht.1.1 hn.1 hr.2 hb.1.1 hv
      (interval_covers σ i ht.1.2 hn.2) hb.2
    show Learns (fun cd => propogateExactValues (.read u i) (fixed value) cd) _
    simp only [propogateExactValues, evaluate_eq i ht.1.2 hn.2 hr.1, ok_bind]
    exact ih.touch u.array
  | .not e, value, ht, hn, hr, hb, _ => by
    show Learns (fun cd => propogateExactValues (.not e) (fixed value) cd) _
    simp only [propogateExactValues, Expr.forced, isFixed_fixed, and_true]
    refine learns_ite (fun hw => exact_learns e _ ht hn ?_ hb (negated_lt value hw)) fun _ =>
      learns_none
    rwa [Expr.forcedRight, if_pos hw] at hr
  | .binary k l r, value, ht, hn, hr, hb, _ => by
    obtain ⟨-, hrt, hlr⟩ := Expr.wellTyped_operands ht
    simp only [Expr.narrow, Expr.inBounds, Bool.and_eq_true] at hn hb
    show Learns (fun cd => propogateExactValues (.binary k l r) (fixed value) cd) _
    cases k with
    | Eq =>
      cases l with
      | constant c =>
        have ih := fun value hr => exact_learns r value hrt hn.2 hr hb.2
        have hc : c.toNat < 2 ^ r.getWidth := hlr ▸ c.toNat_lt
        simp only [propogateExactValues, Expr.forced, Expr.forcedRight, isFixed_fixed,
          true_and] at hr ⊢
        refine learns_ite (fun hw => ?_) fun _ => learns_none
        rw [if_pos hw] at hr
        refine learns_ite (fun (hv : value ≠ 0) => ?_) fun (hv : ¬ value ≠ 0) =>
          learns_ite (fun hbool => ?_) fun _ => learns_none
        · rw [if_pos hv] at hr
          exact ih _ hr hc
        · rw [if_neg hv, if_pos hbool] at hr
          exact ih _ hr (negated_lt _ hbool)
      | _ => exact learns_none
    | Ne | Ugt | Uge | Sgt | Sge => cases hr
    | _ => exact learns_none
theorem exactRead_learns {σ : Assignment} : ∀ (u : UpdateList) (index : ValueRange) (i : Expr)
    (value : ℕ), u.wellTyped = true → u.narrow = true → u.forcedRight index i value = true →
      u.inBounds σ = true → value < 2 ^ Width.Int8 →
        index.Covers i.getWidth (i.eval σ).toNat → (i.eval σ).toNat < u.array.size →
          Learns (propogateExactRead index i (fixed value) u) (u.forced index i value)
  | .root a, index, i, value, _, _, _, _, hv, hcov, hin =>
    learns_root a hv (fun hf => (hcov.eq_of_isFixed hf).symm ▸ hin) i
  | .node j v next, index, i, value, ht, hn, hr, hb, hv, hcov, hin => by
    simp only [UpdateList.wellTyped, UpdateList.narrow, UpdateList.forcedRight,
      UpdateList.inBounds, Bool.and_eq_true, beq_iff_eq] at ht hn hr hb
    obtain ⟨hj, hr⟩ := hr
    show Learns (fun cd => propogateExactRead index i (fixed value) (.node j v next) cd) _
    simp only [propogateExactRead, UpdateList.forced, evaluate_eq j ht.1.1.1.1 hn.1.1 hj, ok_bind]
    refine learns_ite (fun hmay => ?_) fun hmay => learns_ite (fun hsame => ?_) fun _ => learns_none
    · rw [if_pos hmay] at hr
      exact exactRead_learns next index i value ht.1.1.2 hn.2 hr hb.2 hv hcov hin
    · rw [if_neg hmay, if_pos hsame] at hr
      exact exact_learns v value ht.1.1.1.2 hn.1.2 hr hb.1.2 (ht.2 ▸ hv)
end

end CexData

/-! ### The facts are true -/

theorem forall_mem_ite {c : Prop} [Decidable c] {x y : Option ByteFact} {p : ByteFact → Prop}
    (hx : c → ∀ f ∈ x, p f) (hy : ¬ c → ∀ f ∈ y, p f) : ∀ f ∈ if c then x else y, p f := by
  split_ifs with hc
  · exact hx hc
  · exact hy hc

theorem forall_mem_none {p : ByteFact → Prop} : ∀ f ∈ (none : Option ByteFact), p f :=
  fun _ hf => (Option.not_mem_none _ hf).elim

/-- A boolean that differs from another has the other value. -/
theorem toNat_eq_negated {a : APInt} (hw : a.width = 1) {v : ℕ} (hv : v < 2 ^ 1) (h : v ≠ a.toNat) :
    a.toNat = if v = 0 then 1 else 0 := by
  have hlt := a.toNat_lt
  rw [hw] at hlt
  split_ifs <;> omega

theorem toNat_not {a : APInt} (hw : a.width = 1) :
    a.toNat = if a.not.toNat = 0 then 1 else 0 := by
  rcases a.bool_cases hw with rfl | rfl <;> rfl

mutual
/-- An assignment that gives the expression the value has the byte that is read off. -/
theorem forced_true {σ : Assignment} : ∀ (e : Expr) (value : ℕ), e.wellTyped = true →
    e.narrow = true → e.inBounds σ = true → (e.eval σ).toNat = value →
      ∀ f ∈ e.forced value, f.TrueIn σ
  | .constant _, _, _, _, _, _ | .notOptimized _, _, _, _, _, _
  | .select _ _ _, _, _, _, _, _ | .concat _ _, _, _, _, _, _
  | .extract _ _ _, _, _, _, _, _ | .cast _ _ _, _, _, _, _, _ => forall_mem_none
  | .read u i, value, ht, hn, hb, hv => by
    simp only [Expr.wellTyped, Expr.narrow, Expr.inBounds, Bool.and_eq_true,
      beq_iff_eq, decide_eq_true_eq] at ht hn hb
    exact forcedRead_true u i.interval i value ht.1.1 hn.1 hb.1.1
      ((i.width_eval σ ht.1.2).trans ht.2) (ht.2 ▸ interval_covers σ i ht.1.2 hn.2) hb.2 hv
  | .not e, value, ht, hn, hb, hv => by
    rw [Expr.forced]
    refine forall_mem_ite (fun hw => ?_) fun _ => forall_mem_none
    have hval := toNat_not ((e.width_eval σ ht).trans hw)
    rw [Expr.eval] at hv
    rw [hv] at hval
    exact forced_true e _ ht hn hb hval
  | .binary k l r, value, ht, hn, hb, hv => by
    obtain ⟨-, hrt, hlr⟩ := Expr.wellTyped_operands ht
    simp only [Expr.narrow, Expr.inBounds, Bool.and_eq_true] at hn hb
    cases k with
    | Eq =>
      cases l with
      | constant c =>
        have ih := fun value => forced_true r value hrt hn.2 hb.2
        rw [Expr.eval_eq ht, APInt.toNat_ofBool, Expr.eval] at hv
        rw [Expr.forced]
        refine forall_mem_ite (fun _ => forall_mem_ite (fun hvalue => ?_) fun hvalue =>
          forall_mem_ite (fun hbool => ?_) fun _ => forall_mem_none) fun _ => forall_mem_none
        · have heq : c = r.eval σ := by
            by_contra hne
            exact hvalue (by rw [← hv, decide_eq_false hne]; rfl)
          exact ih _ (congrArg APInt.toNat heq).symm
        · have hcw : c.width = 1 := hlr.trans hbool
          have hrw : (r.eval σ).width = 1 := (r.width_eval σ hrt).trans hbool
          refine ih _ (toNat_eq_negated hrw (hcw ▸ c.toNat_lt) fun heq => ?_)
          have hsame : c = r.eval σ := APInt.ext_toNat (hcw.trans hrw.symm) heq
          exact hvalue (by rw [← hv, decide_eq_true hsame]; decide)
      | _ => exact forall_mem_none
    | _ => exact forall_mem_none
theorem forcedRead_true {σ : Assignment} : ∀ (u : UpdateList) (index : ValueRange) (i : Expr)
    (value : ℕ), u.wellTyped = true → u.narrow = true → u.inBounds σ = true →
      (i.eval σ).width = Width.Int32 → index.Covers Width.Int32 (i.eval σ).toNat →
        (i.eval σ).toNat < u.array.size → (u.evalRead σ (i.eval σ)).toNat = value →
          ∀ f ∈ u.forced index i value, f.TrueIn σ
  | .root a, index, i, value, ht, _, _, _, hcov, hin, hv => by
    rw [UpdateList.forced]
    refine forall_mem_ite (fun hc f hf => ?_) fun _ => forall_mem_none
    obtain rfl := Option.some.inj hf
    rw [UpdateList.evalRead, KleeArray.initialValue, if_pos hc.2,
      if_pos (show (i.eval σ).toNat < a.size from hin), ← hcov.eq_of_isFixed hc.1] at hv
    exact hv
  | .node j v next, index, i, value, ht, hn, hb, hiw, hcov, hin, hv => by
    simp only [UpdateList.wellTyped, UpdateList.narrow, UpdateList.inBounds,
      Bool.and_eq_true, beq_iff_eq] at ht hn hb
    have hjcov := interval_covers σ j ht.1.1.1.1 hn.1.1
    rw [ht.1.2] at hjcov
    rw [UpdateList.evalRead] at hv
    rw [UpdateList.forced]
    refine forall_mem_ite (fun hmay => ?_) fun _ => forall_mem_ite (fun hsame => ?_) fun _ =>
      forall_mem_none
    · rw [if_neg] at hv
      · exact forcedRead_true next index i value ht.1.1.2 hn.2 hb.2 hiw hcov hin hv
      · intro heq
        rw [heq] at hjcov
        simp [hjcov.mayEqual hcov] at hmay
    · have heq : j.eval σ = i.eval σ := by
        rcases Bool.or_eq_true_iff.mp hsame with h | h
        · exact APInt.ext_toNat ((j.width_eval σ ht.1.1.1.1).trans (ht.1.2.trans hiw.symm))
            (hjcov.eq_of_mustEqual hcov h)
        · rw [of_decide_eq_true h]
      rw [if_pos heq] at hv
      exact forced_true v value ht.1.1.1.2 hn.1.2 hb.1.2 hv
end

end TaseVerifier
