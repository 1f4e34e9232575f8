import TaseVerifier.Solver.FastCexExact

/-! The verdict of the fast counterexample solver. Where the ranges that it asks for are by right
rules the propagation goes wrong in two ways only: an empty range is taken apart, or two byte
equations contradict each other. Otherwise the verdict is that of the query. -/

namespace TaseVerifier

open ValueRange CexRangeEvaluator

/-! ### What is propagated -/

namespace Query

/-- The expressions that are propagated, with their values. -/
def demands (q : Query) (checkExpr : Bool) : List (Expr × ℕ) :=
  q.constraints.map (·, 1) ++ if checkExpr then [(q.expr, 0)] else []

/-- The byte equations read off them. -/
def forced (q : Query) (checkExpr : Bool) : List ByteFact :=
  (q.demands checkExpr).filterMap fun d => d.1.forced d.2

/-- No empty range is taken apart, and no two byte equations contradict each other. -/
structure Propagates (q : Query) (checkExpr : Bool) : Prop where
  nonempty : ∀ d ∈ q.demands checkExpr, ∀ g ∈ d.1.guessed (fixed d.2), g.1.splitsAt g.2 = true
  agree : (q.forced checkExpr).Pairwise ByteFact.Agrees

end Query

/-- The intervals that the propagation of the value asks for are by right rules, and the
comparisons that it reaches are canonical. -/
structure Expr.Trusted (e : Expr) (value : ℕ) : Prop where
  guess : ∀ g ∈ e.guessed (fixed value), g.1.trustsAt g.2 = true
  exact : e.forcedRight value = true

def Query.Trusted (q : Query) (checkExpr : Bool) : Prop :=
  ∀ d ∈ q.demands checkExpr, d.1.Trusted d.2

/-- What the propagation of an expression relies on, under some assignment. -/
structure Expr.Propagable (σ : Assignment) (e : Expr) (value : ℕ) : Prop where
  wellTyped : e.wellTyped = true
  narrow : e.narrow = true
  trusted : e.Trusted value
  inBounds : e.inBounds σ = true
  lt : value < 2 ^ e.getWidth

namespace CexData

open ExprReplaceVisitor (bind_eq_ok)

theorem Keeps.records {x : CexData → Except CexStop CexData}
    {ds : List (Expr × ValueRange)} (h : Keeps x ds)
    {cd cd' : CexData} {facts : List ByteFact} (hr : Records cd facts) (hx : x cd = .ok cd') :
    Records cd' facts := hr.congr (h.exact cd cd' hx)

/-- One expression: a guess, then the byte equation. -/
theorem propogate_iff {σ : Assignment} {e : Expr} {value : ℕ} (h : e.Propagable σ value)
    {cd : CexData} {facts : List ByteFact} (hr : Records cd facts) :
    ((∃ cd', cd.propogate e value = .ok cd') ↔
      (∀ g ∈ e.guessed (fixed value), g.1.splitsAt g.2 = true) ∧
        ∀ f ∈ facts, ∀ g ∈ e.forced value, f.Agrees g) ∧
    ∀ cd', cd.propogate e value = .ok cd' → Records cd' (facts ++ (e.forced value).toList) := by
  have hguess := possible_keeps e (fixed value) h.wellTyped h.narrow h.trusted.guess
  have hexact := exact_learns e value h.wellTyped h.narrow h.trusted.exact h.inBounds h.lt
  refine ⟨⟨?_, ?_⟩, fun cd' hx => ?_⟩
  · rintro ⟨cd', hx⟩
    obtain ⟨cd₁, h₁, h₂⟩ := bind_eq_ok.mp hx
    exact ⟨(hguess.returns cd).mp ⟨cd₁, h₁⟩,
      (hexact.returns cd₁ facts (hguess.records hr h₁)).mp ⟨cd', h₂⟩⟩
  · rintro ⟨hg, ha⟩
    obtain ⟨cd₁, h₁⟩ := (hguess.returns cd).mpr hg
    obtain ⟨cd', h₂⟩ := (hexact.returns cd₁ facts (hguess.records hr h₁)).mpr ha
    exact ⟨cd', bind_eq_ok.mpr ⟨cd₁, h₁, h₂⟩⟩
  · obtain ⟨cd₁, h₁, h₂⟩ := bind_eq_ok.mp hx
    exact hexact.records cd₁ facts cd' (hguess.records hr h₁) h₂

/-- Only assertions on ranges stop it. -/
theorem propogate_stops {σ : Assignment} {e : Expr} {value : ℕ} (h : e.Propagable σ value)
    {cd : CexData} {facts : List ByteFact} (hr : Records cd facts) {s : CexStop}
    (hs : cd.propogate e value = .error s) : s = .emptyRange ∨ s = .exactConflict := by
  have hguess := possible_keeps e (fixed value) h.wellTyped h.narrow h.trusted.guess
  have hexact := exact_learns e value h.wellTyped h.narrow h.trusted.exact h.inBounds h.lt
  rw [propogate] at hs
  cases h₁ : propogatePossibleValues e (fixed value) cd with
  | error s' =>
    rw [h₁] at hs
    cases hs
    exact .inl (hguess.stops cd s h₁)
  | ok cd₁ =>
    rw [h₁] at hs
    exact .inr (hexact.stops cd₁ facts s (hguess.records hr h₁) hs)

theorem Records.agree {cd : CexData} {facts : List ByteFact} (h : Records cd facts) :
    facts.Pairwise ByteFact.Agrees := by
  refine List.pairwise_of_forall_mem_list fun f hf g hg ha hi => ?_
  have hsame := h.known f hf
  rw [ha, hi, h.known g hg] at hsame
  exact (congrArg ValueRange.m_min hsame).symm

/-- The expressions one after the other. -/
def propogateAll (cd : CexData) (ds : List (Expr × ℕ)) : Except CexStop CexData :=
  ds.foldlM (fun cd d => cd.propogate d.1 d.2) cd

theorem propogateAll_iff {σ : Assignment} : ∀ (ds : List (Expr × ℕ)),
    (∀ d ∈ ds, d.1.Propagable σ d.2) →
      ∀ (cd : CexData) (facts : List ByteFact), Records cd facts →
        ((∃ cd', cd.propogateAll ds = .ok cd') ↔
          (∀ d ∈ ds, ∀ g ∈ d.1.guessed (fixed d.2), g.1.splitsAt g.2 = true) ∧
            (facts ++ ds.filterMap fun d => d.1.forced d.2).Pairwise ByteFact.Agrees) ∧
        ∀ cd', cd.propogateAll ds = .ok cd' →
          Records cd' (facts ++ ds.filterMap fun d => d.1.forced d.2)
  | [], _, cd, facts, hr => by
    simp only [List.filterMap_nil, List.append_nil]
    refine ⟨⟨fun _ => ⟨fun _ hd => (List.not_mem_nil hd).elim, hr.agree⟩, fun _ => ⟨cd, rfl⟩⟩,
      fun cd' hx => ?_⟩
    cases hx
    exact hr
  | d :: ds, hds, cd, facts, hr => by
    obtain ⟨hd, hds⟩ := List.forall_mem_cons.mp hds
    obtain ⟨hone, hrec⟩ := propogate_iff hd hr
    have ih := fun cd₁ h₁ => propogateAll_iff ds hds cd₁ _ (hrec cd₁ h₁)
    have hforced : facts ++ (d :: ds).filterMap (fun d => d.1.forced d.2) =
        facts ++ (d.1.forced d.2).toList ++ ds.filterMap fun d => d.1.forced d.2 := by
      cases h : d.1.forced d.2 <;> simp [h]
    simp only [propogateAll, List.foldlM_cons, hforced, List.forall_mem_cons]
    refine ⟨⟨?_, ?_⟩, fun cd' hx => ?_⟩
    · rintro ⟨cd', hx⟩
      obtain ⟨cd₁, h₁, h₂⟩ := bind_eq_ok.mp hx
      obtain ⟨hg, ha⟩ := (ih cd₁ h₁).1.mp ⟨cd', h₂⟩
      exact ⟨⟨(hone.mp ⟨cd₁, h₁⟩).1, hg⟩, ha⟩
    · rintro ⟨⟨hg, hgs⟩, ha⟩
      have hnew := (List.pairwise_append.mp (List.pairwise_append.mp ha).1).2.2
      obtain ⟨cd₁, h₁⟩ := hone.mpr ⟨hg, fun f hf g hg => hnew f hf g (Option.mem_toList.mpr hg)⟩
      obtain ⟨cd', h₂⟩ := (ih cd₁ h₁).1.mpr ⟨hgs, ha⟩
      exact ⟨cd', bind_eq_ok.mpr ⟨cd₁, h₁, h₂⟩⟩
    · obtain ⟨cd₁, h₁, h₂⟩ := bind_eq_ok.mp hx
      exact (ih cd₁ h₁).2 cd' h₂

theorem propogateAll_stops {σ : Assignment} {s : CexStop} : ∀ (ds : List (Expr × ℕ)),
    (∀ d ∈ ds, d.1.Propagable σ d.2) → ∀ (cd : CexData) (facts : List ByteFact),
      Records cd facts → cd.propogateAll ds = .error s → s = .emptyRange ∨ s = .exactConflict
  | [], _, _, _, _, hs => by cases hs
  | d :: ds, hds, cd, facts, hr, hs => by
    obtain ⟨hd, hds⟩ := List.forall_mem_cons.mp hds
    rw [propogateAll, List.foldlM_cons] at hs
    cases h₁ : cd.propogate d.1 d.2 with
    | error s' =>
      rw [h₁] at hs
      cases hs
      exact propogate_stops hd hr h₁
    | ok cd₁ =>
      rw [h₁] at hs
      exact propogateAll_stops ds hds cd₁ _ ((propogate_iff hd hr).2 cd₁ h₁) hs

end CexData

theorem propogateValues_eq (q : Query) (checkExpr : Bool) :
    propogateValues q checkExpr = (do
      let cd ← CexData.initial.propogateAll (q.demands checkExpr)
      pure (cd, ← cd.checkResult q checkExpr)) := by
  unfold propogateValues CexData.propogateAll Query.demands
  rw [List.foldlM_append, List.foldlM_map, bind_assoc]
  cases checkExpr with
  | true => simp
  | false => simp

/-! ### The evaluators -/

namespace CexData

open ExprEvaluator (StandsFor)
open ExprReplaceVisitor (bind_eq_ok)

/-- The guess as an assignment. -/
def assignment (cd : CexData) : Assignment := fun a index =>
  BitVec.ofNat 8 (match cd.objects a with
    | none => 127
    | some o => o.getPossibleValue index)

section StandsFor

variable {a : KleeArray} {index : ℕ}

/-- A read of the root stands for the byte itself. -/
theorem unknown_stands (ha : a.wellTyped = true) (hi : index < 2 ^ Width.Int32) :
    (ReadExpr.create (.root a) (.alloc index Width.Int32)).wellTyped = true ∧
      (ReadExpr.create (.root a) (.alloc index Width.Int32)).getWidth = Width.Int8 ∧
        ∀ σ, (ReadExpr.create (.root a) (.alloc index Width.Int32)).eval σ =
          a.initialValue σ index := by
  have ht : (Expr.read (.root a) (.alloc index Width.Int32)).wellTyped = true := by
    simp [Expr.wellTyped, UpdateList.wellTyped, ha]
  have h := ReadExpr.create_agrees ht
  refine ⟨h.wellTyped, h.getWidth, fun σ => ?_⟩
  rw [h.eval, Expr.eval, UpdateList.evalRead, Expr.eval_alloc, APInt.toNat_ofNat,
    Nat.mod_eq_of_lt hi]

/-- A constant stands for the byte where the byte has the value. -/
theorem eval_known (hsym : a.isSymbolicArray = true) (hin : index < a.size) {value : ℕ}
    {σ : Assignment} (hσ : σ a index = BitVec.ofNat 8 value) :
    (Expr.alloc value Width.Int8).eval σ = a.initialValue σ index := by
  rw [KleeArray.initialValue, if_pos hsym, if_pos hin, hσ, Expr.eval_alloc]
  rfl

theorem isSymbolicArray_of_not (h : ¬ (a.isConstantArray ∧ index < a.size)) (hin : index < a.size) :
    a.isSymbolicArray = true := by
  by_contra hs
  exact h ⟨by simp [KleeArray.isConstantArray, hs], hin⟩

end StandsFor

theorem standsFor_possible (cd : CexData) :
    StandsFor (· = cd.assignment) cd.possibleInitialValue := by
  intro a index ha hi hconst
  obtain ⟨ht, hw, hval⟩ := unknown_stands ha hi
  unfold possibleInitialValue
  split_ifs with hsize
  · exact ⟨ht, hw, fun σ _ => hval σ⟩
  · have hin : index < a.size := not_le.mp hsize
    have hsym := isSymbolicArray_of_not hconst hin
    cases ho : cd.objects a with
    | none | some _ =>
      refine ⟨rfl, rfl, ?_⟩
      rintro σ rfl
      exact eval_known hsym hin (by rw [assignment, ho])

theorem Records.value {cd : CexData} {facts : List ByteFact} (h : Records cd facts) {a : KleeArray}
    {index : ℕ} (hf : (cd.exactOf a index).isFixed = true) {σ : Assignment}
    (hσ : ∀ f ∈ facts, f.TrueIn σ) : (σ a index).toNat = (cd.exactOf a index).m_min := by
  by_cases hk : ∃ f ∈ facts, f.array = a ∧ f.index = index
  · obtain ⟨f, hmem, rfl, rfl⟩ := hk
    rw [h.known f hmem]
    exact hσ f hmem
  · push Not at hk
    rw [h.unknown _ _ fun f hf hfi => hk f hf hfi.1 hfi.2] at hf
    cases hf

/-- What is put in is the byte, wherever the facts are true. -/
theorem standsFor_exact {cd : CexData} {facts : List ByteFact} (h : Records cd facts) :
    StandsFor (fun σ => ∀ f ∈ facts, f.TrueIn σ) cd.exactInitialValue := by
  intro a index ha hi hconst
  obtain ⟨ht, hw, hval⟩ := unknown_stands ha hi
  have hunknown := And.intro ht (And.intro hw fun σ (_ : ∀ f ∈ facts, f.TrueIn σ) => hval σ)
  unfold exactInitialValue
  simp only
  split_ifs with hsize
  · exact hunknown
  · have hin : index < a.size := not_le.mp hsize
    cases ho : cd.objects a with
    | none => exact hunknown
    | some o =>
      have hexact : cd.exactOf a index = o.exactContents index := by
        rw [exactOf, getObjectData, ho]
        rfl
      simp only
      split_ifs with hfixed
      · refine ⟨rfl, rfl, fun σ hσ => eval_known (isSymbolicArray_of_not hconst hin) hin ?_⟩
        rw [← hexact] at hfixed ⊢
        rw [← h.value hfixed hσ, BitVec.ofNat_toNat, BitVec.setWidth_eq]
      · exact hunknown

/-! ### The result -/

theorem evaluatePossible_agrees {cd : CexData} {e e' : Expr} (ht : e.wellTyped = true)
    (h : ExprEvaluator.visitWith cd.possibleInitialValue e = .ok e') :
    e'.eval cd.assignment = e.eval cd.assignment :=
  (ExprEvaluator.visitWith_agrees cd.standsFor_possible e ht h).eval _ rfl

theorem evaluateExact_agrees {cd : CexData} {facts : List ByteFact} (hr : Records cd facts)
    {e e' : Expr} (ht : e.wellTyped = true)
    (h : ExprEvaluator.visitWith cd.exactInitialValue e = .ok e') {σ : Assignment}
    (hσ : ∀ f ∈ facts, f.TrueIn σ) : e'.eval σ = e.eval σ :=
  (ExprEvaluator.visitWith_agrees (standsFor_exact hr) e ht h).eval σ hσ

theorem isTrue_eval {e : Expr} (h : e.isTrue = true) (σ : Assignment) :
    (e.eval σ).isTrue = true := by
  cases e with
  | constant c => exact h
  | _ => cases h

theorem isFalse_eval {e : Expr} (h : e.isFalse = true) (σ : Assignment) :
    (e.eval σ).isTrue = false := by
  cases e with
  | constant c =>
    simp only [Expr.isFalse, APInt.isFalse, Bool.and_eq_true, beq_iff_eq] at h
    simp [Expr.eval, APInt.isTrue, h.2]
  | _ => cases h

/-- The result has the property, or a division by the constant zero has stopped the evaluator of
some expression of the list. -/
def OrStopped {α : Type} (es : List Expr) (x : Except CexStop α) (P : α → Prop) : Prop :=
  match x with
  | .ok a => P a
  | .error s => (∃ abort, s = .evaluation abort) ∧ ∃ e ∈ es, e.divides = false

theorem OrStopped.mono {α : Type} {es es' : List Expr} {x : Except CexStop α} {P : α → Prop}
    (h : OrStopped es x P) (hes : es ⊆ es') : OrStopped es' x P := by
  cases x with
  | ok a => exact h
  | error s => exact ⟨h.1, h.2.imp fun e he => ⟨hes he.1, he.2⟩⟩

theorem orStopped_evaluate {α : Type} {es : List Expr} {e : Expr} (he : e ∈ es)
    (getInitialValue : KleeArray → ℕ → Expr) {f : Expr → Except CexStop α} {P : α → Prop}
    (h : ∀ e', ExprEvaluator.visitWith getInitialValue e = .ok e' → OrStopped es (f e') P) :
    OrStopped es ((ExprEvaluator.visitWith getInitialValue e).mapError CexStop.evaluation >>= f)
      P := by
  cases hx : ExprEvaluator.visitWith getInitialValue e with
  | ok e' => exact h e' hx
  | error abort =>
    refine ⟨⟨abort, rfl⟩, e, he, ?_⟩
    by_contra hd
    obtain ⟨e', he'⟩ : ExprEvaluator.Returns (ExprEvaluator.visitWith getInitialValue e) :=
      ExprEvaluator.returns_visitWith e (by simpa using hd)
    rw [hx] at he'
    cases he'

/-- What the second loop finds: a constraint that no assignment with the facts satisfies, or the
guess as a solution. -/
theorem checkConstraints_spec {cd : CexData} {facts : List ByteFact} (hr : Records cd facts) :
    ∀ (cs : List Expr) (has : Bool), (∀ c ∈ cs, c.wellTyped = true) →
      OrStopped cs (cd.checkConstraints has cs) fun verdict =>
        (verdict = some true → ∀ σ, (∀ f ∈ facts, f.TrueIn σ) → ¬ Satisfies σ cs) ∧
        (verdict = some false → has = true ∧ Satisfies cd.assignment cs)
  | [], has, _ => by
    cases has <;> simp [checkConstraints, Satisfies, OrStopped, pure, Except.pure]
  | c :: cs, has, hcs => by
    obtain ⟨ht, hcs⟩ := List.forall_mem_cons.mp hcs
    -- the exact value of the constraint decides, or the rest of the loop
    have hexact : ∀ has' : Bool, (has' = true → has = true ∧ Holds cd.assignment c) →
        OrStopped (c :: cs) (do
          if (← cd.evaluateExact c).isFalse then pure (some true) else cd.checkConstraints has' cs)
          fun verdict =>
            (verdict = some true → ∀ σ, (∀ f ∈ facts, f.TrueIn σ) → ¬ Satisfies σ (c :: cs)) ∧
            (verdict = some false → has = true ∧ Satisfies cd.assignment (c :: cs)) := by
      intro has' hhas
      refine orStopped_evaluate List.mem_cons_self _ fun x hx => ?_
      split_ifs with hfalse
      · refine ⟨fun _ σ hσ hs => ?_, fun h => by cases h⟩
        have hc := evaluateExact_agrees hr ht hx hσ
        have hholds : (c.eval σ).isTrue = true := hs c List.mem_cons_self
        rw [← hc, isFalse_eval hfalse] at hholds
        cases hholds
      · have ih := (checkConstraints_spec hr cs has' hcs).mono (List.subset_cons_self c cs)
        cases hv : cd.checkConstraints has' cs with
        | error s =>
          rw [hv] at ih
          exact ih
        | ok verdict =>
          rw [hv] at ih
          refine ⟨fun h σ hσ hs => ih.1 h σ hσ fun c hc => hs c (List.mem_cons_of_mem _ hc),
            fun h => ?_⟩
          obtain ⟨hhas', hs⟩ := ih.2 h
          exact ⟨(hhas hhas').1, List.forall_mem_cons.mpr ⟨(hhas hhas').2, hs⟩⟩
    cases has with
    | false => exact hexact false fun h => by cases h
    | true =>
      refine orStopped_evaluate List.mem_cons_self _ fun p hp => hexact p.isTrue fun h => ⟨rfl, ?_⟩
      rw [Holds, ← evaluatePossible_agrees ht hp]
      exact isTrue_eval h _

/-- What the result says about assignments with the facts, and about the guess. -/
theorem checkResult_spec {cd : CexData} {facts : List ByteFact} (hr : Records cd facts) {q : Query}
    (checkExpr : Bool) (hcs : ∀ c ∈ q.constraints, c.wellTyped = true)
    (ht : q.expr.wellTyped = true) :
    OrStopped (q.expr :: q.constraints) (cd.checkResult q checkExpr) fun verdict =>
      (verdict = some true → ∀ σ, (∀ f ∈ facts, f.TrueIn σ) → Satisfies σ q.constraints →
        checkExpr = true ∧ Holds σ q.expr) ∧
      (verdict = some false → Satisfies cd.assignment q.constraints ∧
        (checkExpr = true → ¬ Holds cd.assignment q.expr)) := by
  have hloop := fun has => (checkConstraints_spec hr q.constraints has hcs).mono
    (List.subset_cons_self q.expr q.constraints)
  have hrest : ∀ has : Bool,
      (has = true → checkExpr = true → ¬ Holds cd.assignment q.expr) →
        OrStopped (q.expr :: q.constraints) (cd.checkConstraints has q.constraints) fun verdict =>
          (verdict = some true → ∀ σ, (∀ f ∈ facts, f.TrueIn σ) → Satisfies σ q.constraints →
            checkExpr = true ∧ Holds σ q.expr) ∧
          (verdict = some false → Satisfies cd.assignment q.constraints ∧
            (checkExpr = true → ¬ Holds cd.assignment q.expr)) := by
    intro has hhas
    have hspec := hloop has
    cases hv : cd.checkConstraints has q.constraints with
    | error s =>
      rw [hv] at hspec
      exact hspec
    | ok verdict =>
      rw [hv] at hspec
      exact ⟨fun h σ hσ hs => absurd hs (hspec.1 h σ hσ),
        fun h => ⟨(hspec.2 h).2, hhas (hspec.2 h).1⟩⟩
  cases checkExpr with
  | false => exact hrest true fun _ h => by cases h
  | true =>
    rw [checkResult, if_pos rfl]
    refine orStopped_evaluate List.mem_cons_self _ fun p hp => ?_
    refine orStopped_evaluate List.mem_cons_self _ fun x hx => ?_
    split_ifs with hist
    · refine ⟨fun _ σ hσ _ => ⟨rfl, ?_⟩, fun h => by cases h⟩
      rw [Holds, ← evaluateExact_agrees hr ht hx hσ]
      exact isTrue_eval hist σ
    · refine hrest p.isFalse fun hfalse _ => ?_
      rw [Holds, ← evaluatePossible_agrees ht hp, isFalse_eval hfalse]
      exact Bool.false_ne_true

end CexData

/-! ### Soundness -/

/-- What the callers guarantee: a boolean query under constraints that can be met, over
expressions of at most 64 bits, with every read in bounds wherever the constraints hold. -/
structure Query.WellBounded (q : Query) : Prop where
  isBool : q.IsBool
  narrow : ∀ e ∈ q.expr :: q.constraints, e.narrow = true
  satisfiable : Satisfiable q.constraints
  inBounds : ∀ σ, Satisfies σ q.constraints → ∀ e ∈ q.expr :: q.constraints, e.inBounds σ = true

/-- No assertion of the solver fails, and the verdict is right. What can stop it is `APInt` where
an evaluator divides by the constant zero. If the query expression is not propagated, an invalid
query is one whose constraints can be met. -/
structure SoundFor (q : Query) (checkExpr : Bool) : Prop where
  stops : ∀ s, propogateValues q checkExpr = .error s →
    (∃ abort, s = .evaluation abort) ∧ ∃ e ∈ q.expr :: q.constraints, e.divides = false
  valid : ∀ cd, propogateValues q checkExpr = .ok (cd, some true) → q.Valid
  invalid : ∀ cd, propogateValues q checkExpr = .ok (cd, some false) →
    ∃ σ, Satisfies σ q.constraints ∧ (checkExpr = true → ¬ Holds σ q.expr)

namespace Query.WellBounded

variable {q : Query} {checkExpr : Bool} (h : q.WellBounded)

include h

theorem wellTyped {e : Expr} (he : e ∈ q.expr :: q.constraints) :
    e.wellTyped = true ∧ e.getWidth = 1 := by
  rcases List.mem_cons.mp he with rfl | hc
  · exact isBool_iff.mp h.isBool.expr
  · exact isBool_iff.mp (h.isBool.constraints e hc)

omit h in
theorem mem_demands {d : Expr × ℕ} (hd : d ∈ q.demands checkExpr) :
    (d.1 ∈ q.constraints ∧ d.2 = 1) ∨ (checkExpr = true ∧ d = (q.expr, 0)) := by
  rcases List.mem_append.mp hd with hd | hd
  · obtain ⟨c, hc, rfl⟩ := List.mem_map.mp hd
    exact .inl ⟨hc, rfl⟩
  · cases checkExpr with
    | true => exact .inr ⟨rfl, List.mem_singleton.mp hd⟩
    | false => cases hd

theorem propagable {σ : Assignment} (hσ : Satisfies σ q.constraints) {d : Expr × ℕ}
    (hd : d ∈ q.demands checkExpr) (htr : d.1.Trusted d.2) : d.1.Propagable σ d.2 := by
  have hmem : d.1 ∈ q.expr :: q.constraints ∧ d.2 < 2 := by
    rcases mem_demands hd with ⟨hc, hv⟩ | ⟨-, rfl⟩
    · exact ⟨List.mem_cons_of_mem _ hc, by omega⟩
    · exact ⟨List.mem_cons_self, by simp⟩
  obtain ⟨ht, hw⟩ := h.wellTyped hmem.1
  exact ⟨ht, h.narrow _ hmem.1, htr, h.inBounds σ hσ _ hmem.1, by rw [hw]; exact hmem.2⟩

/-- A counterexample gives the expressions the values that are propagated. -/
theorem eval_demand {σ : Assignment} (hσ : Satisfies σ q.constraints)
    (hexpr : checkExpr = true → ¬ Holds σ q.expr) {d : Expr × ℕ} (hd : d ∈ q.demands checkExpr) :
    (d.1.eval σ).toNat = d.2 := by
  rcases mem_demands hd with ⟨hc, hv⟩ | ⟨hcheck, rfl⟩
  · obtain ⟨ht, hw⟩ := h.wellTyped (List.mem_cons_of_mem _ hc)
    obtain ⟨b, hb⟩ := Expr.eval_bool ht hw σ
    have hholds := hσ _ hc
    rw [Holds, hb, APInt.isTrue_ofBool] at hholds
    rw [hb, hholds, hv]
    rfl
  · obtain ⟨ht, hw⟩ := h.wellTyped List.mem_cons_self
    obtain ⟨b, hb⟩ := Expr.eval_bool ht hw σ
    have hholds := hexpr hcheck
    rw [Holds, hb, APInt.isTrue_ofBool, Bool.not_eq_true] at hholds
    show (q.expr.eval σ).toNat = 0
    rw [hb, hholds]
    rfl

theorem forced_true {σ : Assignment} (hσ : Satisfies σ q.constraints)
    (hexpr : checkExpr = true → ¬ Holds σ q.expr) : ∀ f ∈ q.forced checkExpr, f.TrueIn σ := by
  intro f hf
  obtain ⟨d, hd, hdf⟩ := List.mem_filterMap.mp hf
  have hmem : d.1 ∈ q.expr :: q.constraints := by
    rcases mem_demands hd with ⟨hc, -⟩ | ⟨-, rfl⟩
    · exact List.mem_cons_of_mem _ hc
    · exact List.mem_cons_self
  exact TaseVerifier.forced_true d.1 d.2 (h.wellTyped hmem).1 (h.narrow _ hmem)
    (h.inBounds σ hσ _ hmem) (h.eval_demand hσ hexpr hd) f hdf

end Query.WellBounded

section Sound

variable {q : Query} {checkExpr : Bool}

/-- The propagation returns on the queries that propagate, and has recorded the byte equations.
Where it does not, an assertion on ranges fails. -/
theorem propogateAll_demands (h : q.WellBounded) (htr : q.Trusted checkExpr) :
    ((∃ cd, CexData.initial.propogateAll (q.demands checkExpr) = .ok cd) ↔
      q.Propagates checkExpr) ∧
    (∀ cd, CexData.initial.propogateAll (q.demands checkExpr) = .ok cd →
      cd.Records (q.forced checkExpr)) ∧
    ∀ s, CexData.initial.propogateAll (q.demands checkExpr) = .error s →
      s = .emptyRange ∨ s = .exactConflict := by
  obtain ⟨τ, hτ⟩ := h.satisfiable
  have hds := fun d hd => h.propagable hτ hd (htr d hd)
  obtain ⟨hreturns, hrecords⟩ := CexData.propogateAll_iff (q.demands checkExpr) hds .initial []
    CexData.records_initial
  exact ⟨hreturns.trans ⟨fun hp => ⟨hp.1, hp.2⟩, fun hp => ⟨hp.nonempty, hp.agree⟩⟩, hrecords,
    fun s => CexData.propogateAll_stops _ hds .initial [] CexData.records_initial⟩

/-- With the byte equations recorded the result is right. -/
theorem sound_of_records (h : q.WellBounded) {cd : CexData}
    (hcd : CexData.initial.propogateAll (q.demands checkExpr) = .ok cd)
    (hr : cd.Records (q.forced checkExpr)) : SoundFor q checkExpr := by
  have hspec := CexData.checkResult_spec hr checkExpr
    (fun c hc => (h.wellTyped (List.mem_cons_of_mem _ hc)).1) (h.wellTyped List.mem_cons_self).1
  have hrun : propogateValues q checkExpr =
      (cd.checkResult q checkExpr).map fun verdict => (cd, verdict) := by
    rw [propogateValues_eq, hcd, CexData.ok_bind]
    cases cd.checkResult q checkExpr <;> rfl
  cases hv : cd.checkResult q checkExpr with
  | error s =>
    rw [hv] at hspec hrun
    refine ⟨fun s' hs => ?_, fun cd' hx => ?_, fun cd' hx => ?_⟩
    · obtain rfl : s = s' := Except.error.inj (hrun.symm.trans hs)
      exact hspec
    · cases hrun.symm.trans hx
    · cases hrun.symm.trans hx
  | ok verdict =>
    rw [hv] at hspec hrun
    obtain ⟨htrue, hfalse⟩ := hspec
    refine ⟨fun s hs => ?_, fun cd' hvalid σ hσ => ?_, fun cd' hinvalid => ?_⟩
    · cases hrun.symm.trans hs
    · obtain rfl : verdict = some true :=
        congrArg Prod.snd (Except.ok.inj (hrun.symm.trans hvalid))
      -- a counterexample would have the byte equations, and so make the expression true
      by_contra hnot
      exact hnot (htrue rfl σ (h.forced_true hσ fun _ => hnot) hσ).2
    · obtain rfl : verdict = some false :=
        congrArg Prod.snd (Except.ok.inj (hrun.symm.trans hinvalid))
      exact ⟨cd.assignment, hfalse rfl⟩

end Sound

/-- Where the ranges that are asked for are by right rules, the fast solver is sound on exactly
the queries that propagate. -/
theorem propogateValues_sound_where (q : Query) (checkExpr : Bool) (h : q.WellBounded) :
    (q.Trusted checkExpr → q.Propagates checkExpr → SoundFor q checkExpr) ∧
      (q.Trusted checkExpr → SoundFor q checkExpr → q.Propagates checkExpr) := by
  refine ⟨fun htr hp => ?_, fun htr hs => ?_⟩
  all_goals obtain ⟨hreturns, hrecords, hstops⟩ := propogateAll_demands h htr
  · obtain ⟨cd, hcd⟩ := hreturns.mpr hp
    exact sound_of_records h hcd (hrecords cd hcd)
  · rw [← hreturns]
    cases hcd : CexData.initial.propogateAll (q.demands checkExpr) with
    | ok cd => exact ⟨cd, rfl⟩
    | error s =>
      have hrun : propogateValues q checkExpr = .error s := by
        rw [propogateValues_eq, hcd]
        rfl
      obtain ⟨⟨abort, rfl⟩, -⟩ := hs.stops s hrun
      rcases hstops _ hcd with h | h <;> cases h

namespace FastCexSolver

def bytes : KleeArray := { name := "bytes", size := 3, ufe := 0 }
def byte : KleeArray := { name := "byte", size := 1, ufe := 1 }
def written : KleeArray := { name := "written", size := 2 ^ 24, ufe := 2 }

def read (a : KleeArray) (i : ℕ) : Expr := .read (.root a) (.alloc i Width.Int32)

def equals (v : ℕ) (e : Expr) : Expr := .binary .Eq (.alloc v Width.Int8) e

/-- What is negated contradicts the constraint. -/
def excluded : Query :=
  ⟨[equals 5 (read byte 0)], .binary .Eq (.alloc 0 Width.Bool) (equals 6 (read byte 0))⟩

/-- Sixteen bits, bounded by their greatest value. -/
def bounded : Query :=
  ⟨[], .binary .Ule (.concat (read bytes 1) (read bytes 0)) (.alloc 0xFFFF Width.Int16)⟩

def offset : Expr :=
  .concat (.alloc 0 Width.Int8)
    (.concat (read bytes 2) (.concat (read bytes 1) (read bytes 0)))

/-- The byte at the offset is written twice if the offset is `0x10000`, which is over what the
computed range has for it. -/
def overwritten : Query :=
  ⟨[equals 5 (.read (.node (.alloc 0x10000 Width.Int32) (.alloc 5 Width.Int8)
      (.node offset (read byte 0) (.root written))) offset)],
    equals 5 (read byte 0)⟩

theorem inBounds_read (σ : Assignment) {a : KleeArray} {i : ℕ} (h : i < a.size)
    (hi : i < 2 ^ Width.Int32) : (read a i).inBounds σ = true := by
  simp [read, Expr.inBounds, UpdateList.inBounds, UpdateList.array, Nat.mod_eq_of_lt hi, h,
    Expr.alloc]

theorem inBounds_bytes (σ : Assignment) (i : ℕ) (h : i < 3) : (read bytes i).inBounds σ = true :=
  inBounds_read σ h (h.trans (by decide))

theorem inBounds_offset (σ : Assignment) : offset.inBounds σ = true := by
  simp [offset, Expr.inBounds, Expr.alloc, inBounds_bytes]

/-- The offset is made of three bytes. -/
theorem offset_lt (σ : Assignment) : (offset.eval σ).toNat < written.size := by
  have hlow := ((Expr.concat (read bytes 2) (.concat (read bytes 1) (read bytes 0))).eval σ).toNat_lt
  rw [Expr.width_eval σ _ (by decide)] at hlow
  rw [offset, Expr.eval, toNat_concat, Expr.eval_alloc, APInt.toNat_ofNat, Nat.zero_mod,
    Nat.zero_shiftLeft, Nat.zero_or]
  exact hlow

/-- The condition of the selection is true of every byte, and the offset is never ranged. -/
def selected : Query :=
  ⟨[equals 5 (.select (.binary .Ule (.alloc 0 Width.Int8) (read bytes 0)) (read byte 0)
      (.read (.root written) offset))],
    equals 5 (read byte 0)⟩

theorem selected_wellBounded : selected.WellBounded where
  isBool := ⟨by decide, by decide⟩
  narrow := by decide
  satisfiable := ⟨fun _ _ => 5, by decide⟩
  inBounds σ _ := by
    simp [selected, equals, Expr.inBounds, UpdateList.inBounds, UpdateList.array, Expr.alloc,
      inBounds_read, inBounds_bytes, byte, inBounds_offset, offset_lt]

theorem propogateValues_sound_selected :
    selected.WellBounded ∧ selected.Trusted true ∧ selected.Propagates true ∧
      SoundFor selected true := by
  have htr : selected.Trusted true := fun d hd =>
    ⟨(show ∀ d ∈ selected.demands true, ∀ g ∈ d.1.guessed (fixed d.2), g.1.trustsAt g.2 = true by
      decide) d hd, (show ∀ d ∈ selected.demands true, d.1.forcedRight d.2 = true by decide) d hd⟩
  have hp : selected.Propagates true := ⟨by decide, by decide⟩
  exact ⟨selected_wellBounded, htr, hp,
    (propogateValues_sound_where selected true selected_wellBounded).1 htr hp⟩

theorem excluded_wellBounded : excluded.WellBounded where
  isBool := ⟨by decide, by decide⟩
  narrow := by decide
  satisfiable := ⟨fun _ _ => 5, by decide⟩
  inBounds σ _ := by
    simp [excluded, equals, Expr.inBounds, Expr.alloc, inBounds_read, byte]

theorem bounded_wellBounded : bounded.WellBounded where
  isBool := ⟨by decide, by decide⟩
  narrow := by decide
  satisfiable := ⟨fun _ _ => 0, by decide⟩
  inBounds σ _ := by
    simp [bounded, Expr.inBounds, Expr.alloc, inBounds_bytes]

/-- The offset is `0x10000` and the byte is zero. -/
def twice : Assignment := fun a i => if a = bytes ∧ i = 2 then 1 else 0

theorem overwritten_wellBounded : overwritten.WellBounded where
  isBool := ⟨by decide, by decide⟩
  narrow := by decide
  satisfiable := ⟨twice, by decide⟩
  inBounds σ _ := by
    simp [overwritten, equals, Expr.inBounds, UpdateList.inBounds, UpdateList.array, Expr.alloc,
      inBounds_read, byte, inBounds_offset, offset_lt]

/-- An assertion on the exact values fails, an assertion on the ranges fails, and a query is
called valid that has a counterexample. -/
theorem propogateValues_unsound :
    (excluded.WellBounded ∧ ¬ SoundFor excluded true) ∧
      (bounded.WellBounded ∧ ¬ SoundFor bounded true) ∧
        (overwritten.WellBounded ∧ ¬ SoundFor overwritten true) := by
  refine ⟨⟨excluded_wellBounded, fun h => ?_⟩, ⟨bounded_wellBounded, fun h => ?_⟩,
    overwritten_wellBounded, fun h => ?_⟩
  · have hrun : propogateValues excluded true = .error .exactConflict := rfl
    obtain ⟨⟨abort, hs⟩, -⟩ := h.stops _ hrun
    cases hs
  · have hrun : propogateValues bounded true = .error .emptyRange := rfl
    obtain ⟨⟨abort, hs⟩, -⟩ := h.stops _ hrun
    cases hs
  · have hrun : (propogateValues overwritten true).map Prod.snd = .ok (some true) := by
      decide +kernel
    cases hr : propogateValues overwritten true with
    | error s =>
      rw [hr] at hrun
      cases hrun
    | ok r =>
      obtain ⟨cd, verdict⟩ := r
      rw [hr] at hrun
      obtain rfl : verdict = some true := Except.ok.inj hrun
      exact absurd (h.valid cd hr twice (by decide)) (by decide)

end FastCexSolver

end TaseVerifier
