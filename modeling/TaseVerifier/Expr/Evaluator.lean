import TaseVerifier.Expr.Rebuild
import TaseVerifier.Expr.Visitor

/-! Evaluating an expression. The evaluator is a visitor that folds nodes with constant
children; what it takes for the initial bytes of an array is up to the classes derived from
it. Under the bindings of a solution, bytes that are not bound are zero. A divisor that
evaluates to zero is put back unevaluated, so the result need not be a constant, but its
value is the value of the expression. -/

namespace TaseVerifier

/-- The bindings of a `klee::Assignment` without free values. -/
structure Bindings where
  entries : List (KleeArray × List (BitVec 8))
  deriving DecidableEq

namespace Bindings

/-- Inserting keeps the first binding of an array. -/
def ofValues (objects : List KleeArray) (values : List (List (BitVec 8))) : Bindings :=
  ⟨objects.zip values⟩

def find (b : Bindings) (a : KleeArray) : Option (List (BitVec 8)) := b.entries.lookup a

/-- `Assignment::evaluate(array, index)`. -/
def evaluate (b : Bindings) (a : KleeArray) (index : ℕ) : APInt :=
  ⟨8, ((b.find a).getD [])[index]?.getD 0#8⟩

/-- The assignment that the bindings stand for. -/
def toAssignment (b : Bindings) : Assignment := fun a i => ((b.find a).getD [])[i]?.getD 0#8

/-- Symbolic arrays only, with a byte for each index. -/
def Fits (b : Bindings) : Prop :=
  ∀ a values, b.find a = some values → a.isSymbolicArray = true ∧ values.length = a.size

/-- The bytes past the end of an array are zero, or not bound. -/
def Within (b : Bindings) : Prop :=
  ∀ a : KleeArray, a.wellTyped = true → ∀ index, a.size ≤ index → index < 2 ^ Width.Int32 →
    b.evaluate a index = APInt.ofNat 8 0

theorem Fits.within {b : Bindings} (h : b.Fits) : b.Within := by
  intro a _ index hindex _
  have hnone : ((b.find a).getD [])[index]? = none := by
    refine List.getElem?_eq_none ?_
    cases hf : b.find a with
    | none => simp
    | some values =>
      have hlen := (h a values hf).2
      simp only [Option.getD_some]
      omega
  rw [evaluate, hnone]
  rfl

end Bindings

namespace ExprEvaluator

variable (getInitialValue : KleeArray → ℕ → Expr)

/-- `visitExprPost`: a node that is not to be optimised gives way to its operand. -/
def visitExprPost : Expr → Expr
  | .notOptimized s => s
  | e => e

/-- `visitExpr`: a node whose children are all constants is rebuilt from them. -/
def visitExpr (constants : Bool) (rebuilt rest : Except Abort Expr) : Except Abort Expr :=
  if constants then rebuilt else rest

/-- `protectedDivOperation` on the results for the operands. -/
def protectedDivOperation (k : BinaryKind) (l r l' r' : Expr) : Except Abort Expr :=
  let r' := match r' with
    | .constant c => if c.isZero then r else .constant c
    | r' => r'
  if l' = l ∧ r' = r then pure (.binary k l r) else BinaryExpr.create k l' r'

/-- The general case of a binary node. -/
def rebuildBinary (k : BinaryKind) (l r l' r' : Expr) : Except Abort Expr :=
  if l' = l ∧ r' = r then pure (.binary k l r)
  else do
    let e ← BinaryExpr.create k l' r'
    pure (visitExprPost e)

mutual
def visitWith : Expr → Except Abort Expr
  | .constant c => pure (.constant c)
  | .notOptimized s => visitExpr s.isConstant (pure (NotOptimizedExpr.create s)) do
    let s' ← visitWith s
    pure (visitExprPost (if s' = s then .notOptimized s else NotOptimizedExpr.create s'))
  | .read u i => do
    match ← visitWith i with
    | .constant c => evalReadWith c.toNat u
    | i' => pure (visitExprPost (if i' = i then .read u i else ReadExpr.create u i'))
  | .select c t f => visitExpr (c.isConstant && t.isConstant && f.isConstant)
      (pure (SelectExpr.create c t f)) do
    let c' ← visitWith c
    let t' ← visitWith t
    let f' ← visitWith f
    pure (visitExprPost
      (if c' = c ∧ t' = t ∧ f' = f then .select c t f else SelectExpr.create c' t' f'))
  | .concat l r => visitExpr (l.isConstant && r.isConstant) (pure (ConcatExpr.create l r)) do
    let l' ← visitWith l
    let r' ← visitWith r
    pure (visitExprPost (if l' = l ∧ r' = r then .concat l r else ConcatExpr.create l' r'))
  | .extract e off w => visitExpr e.isConstant (pure (ExtractExpr.create e off w)) do
    let e' ← visitWith e
    pure (visitExprPost (if e' = e then .extract e off w else ExtractExpr.create e' off w))
  | .not e => visitExpr e.isConstant (pure (NotExpr.create e)) do
    let e' ← visitWith e
    pure (visitExprPost (if e' = e then .not e else NotExpr.create e'))
  | .cast k e w => visitExpr e.isConstant (pure (CastExpr.create k e w)) do
    let e' ← visitWith e
    pure (visitExprPost (if e' = e then .cast k e w else CastExpr.create k e' w))
  | .binary k l r => visitExpr (l.isConstant && r.isConstant) (BinaryExpr.create k l r) do
    let l' ← visitWith l
    let r' ← visitWith r
    if k.isDivision then protectedDivOperation k l r l' r' else rebuildBinary k l r l' r'
/-- The walk over the updates; one whose index stays unknown ends it. -/
def evalReadWith (index : ℕ) : UpdateList → Except Abort Expr
  | .root a =>
    pure (if a.isConstantArray ∧ index < a.size then
        .constant (a.constantValues[index]?.getD (APInt.ofNat Width.Int8 0))
      else getInitialValue a index)
  | .node i v next => do
    match ← visitWith i with
    | .constant c => if c.toNat = index then visitWith v else evalReadWith index next
    | _ => pure (ReadExpr.create (.node i v next) (.alloc index Width.Int32))
end

/-- The evaluator of an assignment. -/
def visit (b : Bindings) : Expr → Except Abort Expr :=
  visitWith fun a index => .constant (b.evaluate a index)

/-! ### The result has the value of the expression -/

section Agrees

variable {getInitialValue} {H : Assignment → Prop}

open ExprReplaceVisitor (bind_eq_ok)

theorem agreesOn_post {e e' : Expr} (h : AgreesOn H e e') : AgreesOn H e (visitExprPost e') := by
  cases e' with
  | notOptimized s => exact ⟨h.wellTyped, h.getWidth, h.eval⟩
  | _ => exact h

/-- A node is kept or rebuilt. -/
theorem agreesOn_ite {p : Prop} [Decidable p] {e e' : Expr} (he : e.wellTyped = true)
    (h : AgreesOn H e e') : AgreesOn H e (visitExprPost (if p then e else e')) := by
  split_ifs
  · exact agreesOn_post (.refl he)
  · exact agreesOn_post h

theorem agreesOn_visitExpr {constants : Bool} {rebuilt rest : Except Abort Expr} {e e' : Expr}
    (h : visitExpr constants rebuilt rest = .ok e') (h₁ : rebuilt = .ok e' → AgreesOn H e e')
    (h₂ : rest = .ok e' → AgreesOn H e e') : AgreesOn H e e' := by
  unfold visitExpr at h
  split_ifs at h
  · exact h₁ h
  · exact h₂ h

theorem agreesOn_protectedDiv {k : BinaryKind} {l r l' r' e : Expr}
    (ht : (Expr.binary k l r).wellTyped = true) (hl : AgreesOn H l l') (hr : AgreesOn H r r')
    (h : protectedDivOperation k l r l' r' = .ok e) : AgreesOn H (.binary k l r) e := by
  obtain ⟨-, hrt, -⟩ := Expr.wellTyped_operands ht
  unfold protectedDivOperation at h
  -- the divisor used is the result for it, or the divisor itself
  obtain ⟨d, hd, h⟩ : ∃ d, AgreesOn H r d ∧
      (if l' = l ∧ d = r then pure (.binary k l r) else BinaryExpr.create k l' d) = .ok e := by
    refine ⟨_, ?_, h⟩
    split
    · split_ifs
      · exact .refl hrt
      · exact hr
    · exact hr
  split_ifs at h
  · cases h
    exact .refl ht
  · exact .binary ht hl hd h

theorem agreesOn_rebuildBinary {k : BinaryKind} {l r l' r' e : Expr}
    (ht : (Expr.binary k l r).wellTyped = true) (hl : AgreesOn H l l') (hr : AgreesOn H r r')
    (h : rebuildBinary k l r l' r' = .ok e) : AgreesOn H (.binary k l r) e := by
  unfold rebuildBinary at h
  split_ifs at h
  · cases h
    exact .refl ht
  · obtain ⟨e₁, h₁, h⟩ := bind_eq_ok.mp h
    cases h
    exact agreesOn_post (.binary ht hl hr h₁)

/-- What is taken for the initial byte at an index may stand for it. -/
def StandsFor (H : Assignment → Prop) (getInitialValue : KleeArray → ℕ → Expr) : Prop :=
  ∀ (a : KleeArray) (index : ℕ), a.wellTyped = true → index < 2 ^ Width.Int32 →
    ¬ (a.isConstantArray ∧ index < a.size) →
      (getInitialValue a index).wellTyped = true ∧ (getInitialValue a index).getWidth = Width.Int8 ∧
        ∀ σ, H σ → (getInitialValue a index).eval σ = a.initialValue σ index

/-- The byte of the root. -/
theorem evalRoot_agrees (h : StandsFor H getInitialValue) (a : KleeArray) (ha : a.wellTyped = true)
    {c : APInt} (hc : c.width = Width.Int32) {e : Expr}
    (he : evalReadWith getInitialValue c.toNat (.root a) = .ok e) :
    e.wellTyped = true ∧ e.getWidth = Width.Int8 ∧
      ∀ σ, H σ → e.eval σ = a.initialValue σ c.toNat := by
  cases he
  split_ifs with hin
  · have hs : a.isSymbolicArray = false := by simpa [KleeArray.isConstantArray] using hin.1
    have hval : ∀ σ, a.initialValue σ c.toNat =
        a.constantValues[c.toNat]?.getD (APInt.ofNat Width.Int8 0) := by
      intro σ
      rw [KleeArray.initialValue, hs, if_neg (by simp)]
      rfl
    refine ⟨rfl, ?_, fun σ _ => (hval σ).symm⟩
    rw [Expr.getWidth, ← hval fun _ _ => 0]
    exact a.width_initialValue _ _ ha
  · exact h a c.toNat ha (hc ▸ c.toNat_lt) hin

mutual
/-- A visit that returns has kept type, width and value. -/
theorem visitWith_agrees (hb : StandsFor H getInitialValue) :
    ∀ (e : Expr) {e' : Expr}, e.wellTyped = true → visitWith getInitialValue e = .ok e' →
      AgreesOn H e e'
  | .constant _, _, he, h => by
    cases h
    exact .refl he
  | .notOptimized s, _, he, h => by
    refine agreesOn_visitExpr h (fun h => ?_) fun h => ?_
    · cases h
      exact .refl he
    · obtain ⟨s', hs, h⟩ := bind_eq_ok.mp h
      cases h
      have ih := visitWith_agrees hb s he hs
      exact agreesOn_ite he ⟨ih.wellTyped, ih.getWidth, ih.eval⟩
  | .read u i, _, he, h => by
    have hkids := he
    simp only [Expr.wellTyped, Bool.and_eq_true, beq_iff_eq] at hkids
    obtain ⟨⟨hu, hi⟩, hw⟩ := hkids
    obtain ⟨i', hi', h⟩ := bind_eq_ok.mp h
    have ih := visitWith_agrees hb i hi hi'
    split at h
    next c =>
      obtain ⟨ht, hw', hv⟩ := evalReadWith_agrees hb u hu (ih.getWidth.trans hw) h
      refine ⟨ht, hw', fun σ hσ => ?_⟩
      rw [hv σ hσ, Expr.eval, ← ih.eval σ hσ, Expr.eval]
    next =>
      cases h
      exact agreesOn_ite he (.read he ih)
  | .select c t f, _, he, h => by
    have hkids := he
    simp only [Expr.wellTyped, Bool.and_eq_true] at hkids
    obtain ⟨⟨⟨⟨hc, ht⟩, hf⟩, -⟩, -⟩ := hkids
    refine agreesOn_visitExpr h (fun h => ?_) fun h => ?_
    · cases h
      exact .select he (.refl hc) (.refl ht) (.refl hf)
    · obtain ⟨c', hc', h⟩ := bind_eq_ok.mp h
      obtain ⟨t', ht', h⟩ := bind_eq_ok.mp h
      obtain ⟨f', hf', h⟩ := bind_eq_ok.mp h
      cases h
      exact agreesOn_ite he (.select he (visitWith_agrees hb c hc hc') (visitWith_agrees hb t ht ht')
        (visitWith_agrees hb f hf hf'))
  | .concat l r, _, he, h => by
    obtain ⟨hl, hr⟩ := Expr.wellTyped_concat.mp he
    refine agreesOn_visitExpr h (fun h => ?_) fun h => ?_
    · cases h
      exact .concat (.refl hl) (.refl hr)
    · obtain ⟨l', hl', h⟩ := bind_eq_ok.mp h
      obtain ⟨r', hr', h⟩ := bind_eq_ok.mp h
      cases h
      exact agreesOn_ite he (.concat (visitWith_agrees hb l hl hl') (visitWith_agrees hb r hr hr'))
  | .extract e off w, _, he, h => by
    have hk := (Expr.wellTyped_extract.mp he).1
    refine agreesOn_visitExpr h (fun h => ?_) fun h => ?_
    · cases h
      exact .extract he (.refl hk)
    · obtain ⟨e', he', h⟩ := bind_eq_ok.mp h
      cases h
      exact agreesOn_ite he (.extract he (visitWith_agrees hb e hk he'))
  | .not e, _, he, h => by
    refine agreesOn_visitExpr h (fun h => ?_) fun h => ?_
    · cases h
      exact .not (.refl he)
    · obtain ⟨e', he', h⟩ := bind_eq_ok.mp h
      cases h
      exact agreesOn_ite he (.not (visitWith_agrees hb e he he'))
  | .cast k e w, _, he, h => by
    have hk : e.wellTyped = true := by
      simp only [Expr.wellTyped, Bool.and_eq_true] at he
      exact he.1
    refine agreesOn_visitExpr h (fun h => ?_) fun h => ?_
    · cases h
      exact .cast he (.refl hk)
    · obtain ⟨e', he', h⟩ := bind_eq_ok.mp h
      cases h
      exact agreesOn_ite he (.cast he (visitWith_agrees hb e hk he'))
  | .binary k l r, _, he, h => by
    obtain ⟨hl, hr, -⟩ := Expr.wellTyped_operands he
    refine agreesOn_visitExpr h (fun h => .binary he (.refl hl) (.refl hr) h) fun h => ?_
    obtain ⟨l', hl', h⟩ := bind_eq_ok.mp h
    obtain ⟨r', hr', h⟩ := bind_eq_ok.mp h
    have ihl := visitWith_agrees hb l hl hl'
    have ihr := visitWith_agrees hb r hr hr'
    split_ifs at h
    · exact agreesOn_protectedDiv he ihl ihr h
    · exact agreesOn_rebuildBinary he ihl ihr h
theorem evalReadWith_agrees (hb : StandsFor H getInitialValue) :
    ∀ (u : UpdateList) {c : APInt} {e : Expr},
      u.wellTyped = true → c.width = Width.Int32 → evalReadWith getInitialValue c.toNat u = .ok e →
        e.wellTyped = true ∧ e.getWidth = Width.Int8 ∧ ∀ σ, H σ → e.eval σ = u.evalRead σ c
  | .root a, c, _, hu, hc, h => evalRoot_agrees hb a hu hc h
  | .node i v next, c, _, hu, hc, h => by
    have hkids := hu
    simp only [UpdateList.wellTyped, Bool.and_eq_true, beq_iff_eq] at hkids
    obtain ⟨⟨⟨⟨hi, hv⟩, hn⟩, hiw⟩, hvw⟩ := hkids
    obtain ⟨i', hi', h⟩ := bind_eq_ok.mp h
    have ih := visitWith_agrees hb i hi hi'
    split at h
    next d =>
      have hd : ∀ σ, H σ → i.eval σ = d := fun σ hσ => (ih.eval σ hσ).symm
      have hdw : d.width = Width.Int32 := ih.getWidth.trans hiw
      split_ifs at h with hdc
      · have ihv := visitWith_agrees hb v hv h
        refine ⟨ihv.wellTyped, ihv.getWidth.trans hvw, fun σ hσ => ?_⟩
        rw [UpdateList.evalRead, hd σ hσ, if_pos (APInt.ext_toNat (hdw.trans hc.symm) hdc)]
        exact ihv.eval σ hσ
      · obtain ⟨ht, hw, hv⟩ := evalReadWith_agrees hb next hn hc h
        refine ⟨ht, hw, fun σ hσ => ?_⟩
        rw [UpdateList.evalRead, hd σ hσ, if_neg fun h => hdc (congrArg APInt.toNat h)]
        exact hv σ hσ
    next =>
      cases h
      have ht : (Expr.read (.node i v next) (.alloc c.toNat Width.Int32)).wellTyped = true := by
        simp [Expr.wellTyped, hu]
      have hlt : c.toNat < 2 ^ Width.Int32 := hc ▸ c.toNat_lt
      have hindex : APInt.ofNat Width.Int32 c.toNat = c :=
        APInt.ext_toNat hc.symm (by rw [APInt.toNat_ofNat, Nat.mod_eq_of_lt hlt])
      have ha := ReadExpr.create_agrees ht
      refine ⟨ha.wellTyped, ha.getWidth, fun σ _ => ?_⟩
      rw [ha.eval, Expr.eval, Expr.eval_alloc, hindex]
end

/-- The bytes of bindings are those of their assignment. -/
theorem standsFor_bindings {b : Bindings} (hb : b.Within) :
    StandsFor (· = b.toAssignment) fun a index => .constant (b.evaluate a index) := by
  rintro a index ha hlt hin
  refine ⟨rfl, rfl, fun σ hσ => ?_⟩
  subst hσ
  rw [Expr.eval, KleeArray.initialValue]
  cases hs : a.isSymbolicArray with
  | true =>
    rw [if_pos rfl]
    split_ifs with hi
    · rfl
    · exact hb a ha index (by omega) hlt
  | false =>
    have hlen : a.constantValues.length = a.size := by
      simp only [KleeArray.wellTyped, hs, Bool.false_or, Bool.and_eq_true, beq_iff_eq] at ha
      exact ha.2
    have hout : ¬ index < a.size := fun h => hin ⟨by simp [KleeArray.isConstantArray, hs], h⟩
    rw [if_neg (by simp), List.getElem?_eq_none (by omega)]
    exact hb a ha index (by omega) hlt

theorem visit_agrees {b : Bindings} (hb : b.Fits) (e : Expr) {e' : Expr} (he : e.wellTyped = true)
    (h : visit b e = .ok e') : AgreesOn (· = b.toAssignment) e e' :=
  visitWith_agrees (standsFor_bindings hb.within) e he h

end Agrees

end ExprEvaluator

/-! ### Expressions that always fold -/

/-- A constant that is not zero. -/
def Expr.isDivisor : Expr → Bool
  | .constant c => !c.isZero
  | _ => false

mutual
/-- Nothing is kept from being optimised, and every divisor is a constant other than zero. -/
def Expr.evaluable : Expr → Bool
  | .constant _ => true
  | .notOptimized _ => false
  | .read u i => u.evaluable && i.evaluable
  | .select c t f => c.evaluable && t.evaluable && f.evaluable
  | .concat l r => l.evaluable && r.evaluable
  | .extract e _ _ => e.evaluable
  | .not e => e.evaluable
  | .cast _ e _ => e.evaluable
  | .binary k l r => l.evaluable && r.evaluable && (!k.isDivision || r.isDivisor)
def UpdateList.evaluable : UpdateList → Bool
  | .root _ => true
  | .node i v next => i.evaluable && v.evaluable && next.evaluable
end

namespace ExprEvaluator

variable {getInitialValue : KleeArray → ℕ → Expr}

open ExprReplaceVisitor (bind_eq_ok)

/-- The computation returns a constant. -/
def Folds (x : Except Abort Expr) : Prop := ∃ c, x = .ok (.constant c)

theorem folds_pure {e : Expr} (h : e.isConstant = true) : Folds (pure e) := by
  cases e with
  | constant c => exact ⟨c, rfl⟩
  | _ => cases h

theorem Folds.bind {x : Except Abort Expr} {f : Expr → Except Abort Expr} (hx : Folds x)
    (hf : ∀ c, Folds (f (.constant c))) : Folds (x >>= f) := by
  obtain ⟨c, rfl⟩ := hx
  exact hf c

/-- With constant children the node is rebuilt at once. -/
theorem folds_visitExpr {constants : Bool} {rebuilt rest : Except Abort Expr}
    (h₁ : constants = true → Folds rebuilt) (h₂ : constants = false → Folds rest) :
    Folds (visitExpr constants rebuilt rest) := by
  unfold visitExpr
  split_ifs with hc
  · exact h₁ hc
  · exact h₂ (by simpa using hc)

theorem folds_ite {p : Prop} [Decidable p] {e e' : Expr} (hp : ¬ p) (h : e'.isConstant = true) :
    Folds (pure (visitExprPost (if p then e else e'))) := by
  rw [if_neg hp]
  cases e' with
  | constant c => exact ⟨c, rfl⟩
  | _ => cases h

theorem isConstant_extract (c : APInt) (off w : ℕ) :
    (ExtractExpr.create (.constant c) off w).isConstant = true := by
  simp only [ExtractExpr.create, ExtractExpr.height, ExtractExpr.createF]
  split_ifs <;> rfl

theorem isConstant_cast (k : CastKind) (c : APInt) (w : ℕ) :
    (CastExpr.create k (.constant c) w).isConstant = true := by
  unfold CastExpr.create
  split_ifs
  · rfl
  · exact isConstant_extract c 0 w
  · rfl

theorem isConstant_select (c t f : APInt) :
    (SelectExpr.create (.constant c) (.constant t) (.constant f)).isConstant = true := by
  simp only [SelectExpr.create]
  split_ifs <;> rfl

theorem folds_binary (k : BinaryKind) (l r : APInt) (h : k.isDivision = true → r.isZero = false) :
    Folds (BinaryExpr.create k (.constant l) (.constant r)) := by
  have hdiv : k.isDivision = true → ∀ bool : Expr → Expr,
      Folds (divCreate k bool (.constant l) (.constant r)) := by
    intro hk bool
    exact ⟨k.apply l r, by rw [divCreate, h hk]; rfl⟩
  cases k with
  | UDiv | SDiv => exact hdiv rfl id
  | URem | SRem => exact hdiv rfl fun _ => Expr.alloc 0 Width.Bool
  | Add => exact ⟨_, by rw [BinaryExpr.create, AddExpr.create]; rfl⟩
  | Sub => exact ⟨_, by rw [BinaryExpr.create, SubExpr.create]; rfl⟩
  | _ => exact ⟨_, rfl⟩

theorem isDivisor_iff {e : Expr} :
    e.isDivisor = true ↔ ∃ c, e = .constant c ∧ c.isZero = false := by
  cases e <;> simp [Expr.isDivisor]

section Nodes

/-! A node folds where its children do. -/

variable {e l r c t f : Expr}

theorem folds_notOptimized (hs : e.isConstant = false) (h : Folds (visitWith getInitialValue e)) :
    Folds (visitWith getInitialValue (.notOptimized e)) := by
  refine folds_visitExpr (fun hc => by simp [hs] at hc) fun _ => h.bind fun c => ?_
  rw [if_neg]
  · exact ⟨c, rfl⟩
  · rintro rfl
    cases hs

theorem folds_select (hc : Folds (visitWith getInitialValue c))
    (ht : Folds (visitWith getInitialValue t)) (hf : Folds (visitWith getInitialValue f)) :
    Folds (visitWith getInitialValue (.select c t f)) := by
  refine folds_visitExpr (fun hconst => ?_) fun hconst => ?_
  · simp only [Bool.and_eq_true, Expr.isConstant_iff] at hconst
    obtain ⟨⟨⟨c, rfl⟩, t, rfl⟩, f, rfl⟩ := hconst
    exact folds_pure (isConstant_select c t f)
  · refine hc.bind fun c' => ht.bind fun t' => hf.bind fun f' =>
      folds_ite ?_ (isConstant_select c' t' f')
    rintro ⟨rfl, rfl, rfl⟩
    cases hconst

theorem folds_concat (hl : Folds (visitWith getInitialValue l))
    (hr : Folds (visitWith getInitialValue r)) :
    Folds (visitWith getInitialValue (.concat l r)) := by
  refine folds_visitExpr (fun hconst => ?_) fun hconst => ?_
  · simp only [Bool.and_eq_true, Expr.isConstant_iff] at hconst
    obtain ⟨⟨l, rfl⟩, r, rfl⟩ := hconst
    exact folds_pure rfl
  · refine hl.bind fun l' => hr.bind fun r' => folds_ite ?_ rfl
    rintro ⟨rfl, rfl⟩
    cases hconst

theorem folds_extract (off w : ℕ) (h : Folds (visitWith getInitialValue e)) :
    Folds (visitWith getInitialValue (.extract e off w)) := by
  refine folds_visitExpr (fun hconst => ?_) fun hconst => ?_
  · obtain ⟨c, rfl⟩ := Expr.isConstant_iff.mp hconst
    exact folds_pure (isConstant_extract c off w)
  · refine h.bind fun e' => folds_ite ?_ (isConstant_extract e' off w)
    rintro rfl
    cases hconst

theorem folds_not (h : Folds (visitWith getInitialValue e)) :
    Folds (visitWith getInitialValue (.not e)) := by
  refine folds_visitExpr (fun hconst => ?_) fun hconst => ?_
  · obtain ⟨c, rfl⟩ := Expr.isConstant_iff.mp hconst
    exact folds_pure rfl
  · refine h.bind fun e' => folds_ite ?_ rfl
    rintro rfl
    cases hconst

theorem folds_cast (k : CastKind) (w : ℕ) (h : Folds (visitWith getInitialValue e)) :
    Folds (visitWith getInitialValue (.cast k e w)) := by
  refine folds_visitExpr (fun hconst => ?_) fun hconst => ?_
  · obtain ⟨c, rfl⟩ := Expr.isConstant_iff.mp hconst
    exact folds_pure (isConstant_cast k c w)
  · refine h.bind fun e' => folds_ite ?_ (isConstant_cast k e' w)
    rintro rfl
    cases hconst

/-- A division folds where its divisor is evaluated to a constant other than zero. -/
theorem folds_binaryNode {k : BinaryKind} (hl : Folds (visitWith getInitialValue l))
    (hr : Folds (visitWith getInitialValue r))
    (hdiv : k.isDivision = true → ∀ d : APInt,
      visitWith getInitialValue r = .ok (.constant d) → d.isZero = false) :
    Folds (visitWith getInitialValue (.binary k l r)) := by
  refine folds_visitExpr (fun hconst => ?_) fun hconst => ?_
  · simp only [Bool.and_eq_true, Expr.isConstant_iff] at hconst
    obtain ⟨⟨l, rfl⟩, r, rfl⟩ := hconst
    exact folds_binary k l r fun hk => hdiv hk r rfl
  · obtain ⟨d, hd⟩ := hr
    have hkept (l' : APInt) : ¬ (Expr.constant l' = l ∧ Expr.constant d = r) := by
      rintro ⟨rfl, rfl⟩
      cases hconst
    rw [hd]
    refine hl.bind fun l' => ?_
    show Folds (if k.isDivision then protectedDivOperation k l r (.constant l') (.constant d)
      else rebuildBinary k l r (.constant l') (.constant d))
    split_ifs with hk
    · have hz := hdiv hk d hd
      simp only [protectedDivOperation, hz, Bool.false_eq_true, if_false]
      rw [if_neg (hkept l')]
      exact folds_binary k l' d fun _ => hz
    · rw [rebuildBinary, if_neg (hkept l')]
      exact (folds_binary k l' d fun h => absurd h hk).bind fun c => ⟨c, rfl⟩

end Nodes

mutual
theorem folds_visitWith (hb : ∀ a index, (getInitialValue a index).isConstant = true) :
    ∀ e : Expr, e.evaluable = true → Folds (visitWith getInitialValue e)
  | .constant c, _ => ⟨c, rfl⟩
  | .notOptimized _, h => by cases h
  | .read u i, h => by
    simp only [Expr.evaluable, Bool.and_eq_true] at h
    exact (folds_visitWith hb i h.2).bind fun c => folds_evalReadWith hb u c.toNat h.1
  | .select c t f, h => by
    simp only [Expr.evaluable, Bool.and_eq_true] at h
    exact folds_select (folds_visitWith hb c h.1.1) (folds_visitWith hb t h.1.2)
      (folds_visitWith hb f h.2)
  | .concat l r, h => by
    simp only [Expr.evaluable, Bool.and_eq_true] at h
    exact folds_concat (folds_visitWith hb l h.1) (folds_visitWith hb r h.2)
  | .extract e off w, h => folds_extract off w (folds_visitWith hb e h)
  | .not e, h => folds_not (folds_visitWith hb e h)
  | .cast k e w, h => folds_cast k w (folds_visitWith hb e h)
  | .binary k l r, h => by
    simp only [Expr.evaluable, Bool.and_eq_true] at h
    obtain ⟨⟨hl, hr⟩, hdiv⟩ := h
    refine folds_binaryNode (folds_visitWith hb l hl) (folds_visitWith hb r hr) fun hk d hd => ?_
    obtain ⟨d', rfl, hz⟩ := isDivisor_iff.mp (by simpa [hk] using hdiv)
    cases hd
    exact hz
theorem folds_evalReadWith (hb : ∀ a index, (getInitialValue a index).isConstant = true) :
    ∀ (u : UpdateList) (index : ℕ), u.evaluable = true →
      Folds (evalReadWith getInitialValue index u)
  | .root a, index, _ => by
    refine folds_pure ?_
    split_ifs
    · rfl
    · exact hb a index
  | .node i v next, index, h => by
    simp only [UpdateList.evaluable, Bool.and_eq_true] at h
    refine (folds_visitWith hb i h.1.1).bind fun c => ?_
    simp only
    split_ifs
    · exact folds_visitWith hb v h.1.2
    · exact folds_evalReadWith hb next index h.2
end

theorem folds_visit {b : Bindings} (e : Expr) (h : e.evaluable = true) : Folds (visit b e) :=
  folds_visitWith (fun _ _ => rfl) e h

end ExprEvaluator

/-! ### Expressions that are always evaluated to something -/

def Expr.isZeroConstant : Expr → Bool
  | .constant c => c.isZero
  | _ => false

mutual
/-- No divisor is the constant zero. -/
def Expr.divides : Expr → Bool
  | .constant _ => true
  | .notOptimized s => s.divides
  | .read u i => u.divides && i.divides
  | .select c t f => c.divides && t.divides && f.divides
  | .concat l r => l.divides && r.divides
  | .extract e _ _ => e.divides
  | .not e => e.divides
  | .cast _ e _ => e.divides
  | .binary k l r => l.divides && r.divides && !(k.isDivision && r.isZeroConstant)
def UpdateList.divides : UpdateList → Bool
  | .root _ => true
  | .node i v next => i.divides && v.divides && next.divides
end

namespace ExprEvaluator

variable {getInitialValue : KleeArray → ℕ → Expr}

open ExprReplaceVisitor (bind_eq_ok)

/-- The computation does not stop. -/
def Returns (x : Except Abort Expr) : Prop := ∃ e, x = .ok e

theorem Returns.bind {x : Except Abort Expr} {f : Expr → Except Abort Expr} (hx : Returns x)
    (hf : ∀ e, Returns (f e)) : Returns (x >>= f) := by
  obtain ⟨e, rfl⟩ := hx
  exact hf e

theorem returns_visitExpr {constants : Bool} {rebuilt rest : Except Abort Expr}
    (h₁ : Returns rebuilt) (h₂ : Returns rest) : Returns (visitExpr constants rebuilt rest) := by
  unfold visitExpr
  split_ifs <;> assumption

/-- A divisor that evaluates to zero is the original one, and that is not zero. -/
theorem returns_protectedDiv (k : BinaryKind) (l r l' r' : Expr)
    (hr : r.isZeroConstant = false) : Returns (protectedDivOperation k l r l' r') := by
  unfold protectedDivOperation
  simp only
  split_ifs
  · exact ⟨_, rfl⟩
  · refine BinaryExpr.create_ok k l' _ fun _ c hc => ?_
    split at hc
    · split_ifs at hc with hz
      · subst hc
        exact hr
      · cases hc
        simpa using hz
    next hne => exact absurd hc (hne c)

mutual
theorem returns_visitWith : ∀ e : Expr, e.divides = true → Returns (visitWith getInitialValue e)
  | .constant _, _ => ⟨_, rfl⟩
  | .notOptimized s, h =>
    returns_visitExpr ⟨_, rfl⟩ ((returns_visitWith s h).bind fun _ => ⟨_, rfl⟩)
  | .read u i, h => by
    simp only [Expr.divides, Bool.and_eq_true] at h
    refine (returns_visitWith i h.2).bind fun i' => ?_
    split
    · exact returns_evalReadWith u _ h.1
    · exact ⟨_, rfl⟩
  | .select c t f, h => by
    simp only [Expr.divides, Bool.and_eq_true] at h
    exact returns_visitExpr ⟨_, rfl⟩ ((returns_visitWith c h.1.1).bind fun _ =>
      (returns_visitWith t h.1.2).bind fun _ => (returns_visitWith f h.2).bind fun _ => ⟨_, rfl⟩)
  | .concat l r, h => by
    simp only [Expr.divides, Bool.and_eq_true] at h
    exact returns_visitExpr ⟨_, rfl⟩ ((returns_visitWith l h.1).bind fun _ =>
      (returns_visitWith r h.2).bind fun _ => ⟨_, rfl⟩)
  | .extract e _ _, h | .not e, h | .cast _ e _, h =>
    returns_visitExpr ⟨_, rfl⟩ ((returns_visitWith e h).bind fun _ => ⟨_, rfl⟩)
  | .binary k l r, h => by
    simp only [Expr.divides, Bool.and_eq_true, Bool.not_eq_true', Bool.and_eq_false_iff] at h
    obtain ⟨⟨hl, hr⟩, hdiv⟩ := h
    refine returns_visitExpr (BinaryExpr.create_ok k l r fun hk c hc => ?_) ?_
    · subst hc
      exact hdiv.resolve_left (by simp [hk])
    · refine (returns_visitWith l hl).bind fun l' => (returns_visitWith r hr).bind fun r' => ?_
      split_ifs with hk
      · exact returns_protectedDiv k l r l' r' (hdiv.resolve_left (by simp [hk]))
      · unfold rebuildBinary
        split_ifs
        · exact ⟨_, rfl⟩
        · exact Returns.bind (BinaryExpr.create_ok k l' r' fun h => absurd h hk) fun _ => ⟨_, rfl⟩
theorem returns_evalReadWith : ∀ (u : UpdateList) (index : ℕ), u.divides = true →
    Returns (evalReadWith getInitialValue index u)
  | .root _, _, _ => ⟨_, rfl⟩
  | .node i v next, index, h => by
    simp only [UpdateList.divides, Bool.and_eq_true] at h
    refine (returns_visitWith i h.1.1).bind fun i' => ?_
    split
    · split_ifs
      · exact returns_visitWith v h.1.2
      · exact returns_evalReadWith next index h.2
    · exact ⟨_, rfl⟩
end

end ExprEvaluator

end TaseVerifier
