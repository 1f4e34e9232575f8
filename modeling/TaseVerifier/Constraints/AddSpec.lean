import TaseVerifier.Constraints.Manager

/-! What adding a constraint does to the vector, and which updates of the union-find
store it makes on the way. The store is the log of its updates here. Whatever is
added, the vector afterwards holds under exactly the assignments that satisfied it
before and satisfy the new constraint. -/

namespace TaseVerifier

namespace ConstraintManager

def DefinedAll (σ : Assignment) (cs : List Expr) : Prop := ∀ c ∈ cs, c.defined σ = true

def BoolAll (cs : List Expr) : Prop := ∀ c ∈ cs, c.isBool = true

/-- The step from `s` to `s'` adds the meaning `G` to the vector. `H` is an assumption
on assignments, `D` the definedness and `w` the weight of what is added, and `old`
the constraints that may return to the vector without an update of the store. -/
structure Grown (H G D : Assignment → Prop) (w : ℕ) (old : List Expr)
    (s s' : ConstraintState UFLog) : Prop where
  bool : BoolAll s'.constraints
  meaning : ∀ σ, H σ → (Satisfies σ s'.constraints ↔ Satisfies σ s.constraints ∧ G σ)
  weights : weights s'.constraints ≤ weights s.constraints + w
  defined : ∀ σ, H σ → Satisfies σ s.constraints → G σ → DefinedAll σ s.constraints → D σ →
    DefinedAll σ s'.constraints
  log : ∃ new, s'.ufmanager = s.ufmanager ++ new ∧
    (∀ p ∈ new, p.1 = findSymbolicObjects p.2 ∧ p.2.isBool = true ∧
      ∀ σ, H σ → Satisfies σ s.constraints → G σ → Holds σ p.2) ∧
    ∀ c ∈ s'.constraints, c ∈ s.constraints ∨ c ∈ old ∨ ∃ p ∈ new, p.2 = c

/-- The result of such a step, with the reason why it stopped when it did. -/
def GrowSpec (n : ℕ) (H G D : Assignment → Prop) (w : ℕ) (old : List Expr)
    (s : ConstraintState UFLog) : Except Abort (ConstraintState UFLog) → Prop
  | .ok s' => Grown H G D w old s s'
  | .error .invalidConstraint => ∀ σ, H σ → Satisfies σ s.constraints → ¬ G σ
  | .error .divideByZero => ∀ σ, H σ → Satisfies σ s.constraints → G σ →
      DefinedAll σ s.constraints → ¬ D σ
  | .error .diverged => n ≤ weights s.constraints + w

@[simp] theorem weights_append (cs ds : List Expr) : weights (cs ++ ds) = weights cs + weights ds := by
  simp [TaseVerifier.weights]

@[simp] theorem weights_cons (c : Expr) (cs : List Expr) : weights (c :: cs) = c.weight + weights cs := by
  simp [TaseVerifier.weights]

@[simp] theorem weights_nil : weights [] = 0 := rfl

section Compose

variable {H G G₁ G₂ D D₁ D₂ : Assignment → Prop} {w w₁ w₂ n : ℕ} {old old₁ old₂ : List Expr}
  {s s₁ s₂ : ConstraintState UFLog}

theorem Grown.trans (h₁ : Grown H G₁ D₁ w₁ old₁ s s₁) (h₂ : Grown H G₂ D₂ w₂ old₂ s₁ s₂) :
    Grown H (fun σ => G₁ σ ∧ G₂ σ) (fun σ => D₁ σ ∧ D₂ σ) (w₁ + w₂) (old₁ ++ old₂) s s₂ where
  bool := h₂.bool
  meaning σ hσ := by rw [h₂.meaning σ hσ, h₁.meaning σ hσ, and_assoc]
  weights := by
    have := h₁.weights
    have := h₂.weights
    omega
  defined σ hσ hs hG hd hD := by
    have hs₁ := (h₁.meaning σ hσ).mpr ⟨hs, hG.1⟩
    exact h₂.defined σ hσ hs₁ hG.2 (h₁.defined σ hσ hs hG.1 hd hD.1) hD.2
  log := by
    obtain ⟨new₁, he₁, hn₁, hc₁⟩ := h₁.log
    obtain ⟨new₂, he₂, hn₂, hc₂⟩ := h₂.log
    refine ⟨new₁ ++ new₂, by rw [he₂, he₁, List.append_assoc], fun p hp => ?_, fun c hc => ?_⟩
    · rcases List.mem_append.mp hp with hp | hp
      · obtain ⟨ha, hb, hi⟩ := hn₁ p hp
        exact ⟨ha, hb, fun σ hσ hs hG => hi σ hσ hs hG.1⟩
      · obtain ⟨ha, hb, hi⟩ := hn₂ p hp
        exact ⟨ha, hb, fun σ hσ hs hG => hi σ hσ ((h₁.meaning σ hσ).mpr ⟨hs, hG.1⟩) hG.2⟩
    · rcases hc₂ c hc with hc | hc | ⟨p, hp, rfl⟩
      · rcases hc₁ c hc with hc | hc | ⟨p, hp, rfl⟩
        · exact .inl hc
        · exact .inr (.inl (List.mem_append_left _ hc))
        · exact .inr (.inr ⟨p, List.mem_append_left _ hp, rfl⟩)
      · exact .inr (.inl (List.mem_append_right _ hc))
      · exact .inr (.inr ⟨p, List.mem_append_right _ hp, rfl⟩)

/-- Two steps in sequence add both meanings. -/
theorem GrowSpec.bind {x : Except Abort (ConstraintState UFLog)}
    {f : ConstraintState UFLog → Except Abort (ConstraintState UFLog)}
    (hx : GrowSpec n H G₁ D₁ w₁ old₁ s x)
    (hf : ∀ s₁, BoolAll s₁.constraints → GrowSpec n H G₂ D₂ w₂ old₂ s₁ (f s₁)) :
    GrowSpec n H (fun σ => G₁ σ ∧ G₂ σ) (fun σ => D₁ σ ∧ D₂ σ) (w₁ + w₂) (old₁ ++ old₂) s
      (x >>= f) := by
  cases x with
  | error a =>
    cases a with
    | invalidConstraint => exact fun σ hσ hs hG => hx σ hσ hs hG.1
    | divideByZero => exact fun σ hσ hs hG hd hD => hx σ hσ hs hG.1 hd hD.1
    | diverged =>
      simp only [GrowSpec] at hx
      exact hx.trans (by omega)
  | ok s₁ =>
    have hx : Grown H G₁ D₁ w₁ old₁ s s₁ := hx
    have hf := hf s₁ hx.bool
    change GrowSpec n H _ _ _ _ s (f s₁)
    cases hfs : f s₁ with
    | ok s₂ =>
      rw [hfs] at hf
      exact hx.trans hf
    | error a =>
      rw [hfs] at hf
      cases a with
      | invalidConstraint =>
        exact fun σ hσ hs hG => hf σ hσ ((hx.meaning σ hσ).mpr ⟨hs, hG.1⟩) hG.2
      | divideByZero =>
        exact fun σ hσ hs hG hd hD => hf σ hσ ((hx.meaning σ hσ).mpr ⟨hs, hG.1⟩) hG.2
          (hx.defined σ hσ hs hG.1 hd hD.1) hD.2
      | diverged =>
        have := hx.weights
        simp only [GrowSpec] at hf ⊢
        omega

/-- A step may be described by another meaning that is the same under the assumption. -/
theorem GrowSpec.mono {n' w' : ℕ} {H' G' D' : Assignment → Prop}
    {x : Except Abort (ConstraintState UFLog)} (hx : GrowSpec n H G D w old s x)
    (hH : ∀ σ, H' σ → H σ) (hG : ∀ σ, H' σ → (G' σ ↔ G σ))
    (hD : ∀ σ, H' σ → Satisfies σ s.constraints → G' σ → D' σ → D σ)
    (hw : w ≤ w') (hn : n ≤ weights s.constraints + w → n' ≤ weights s.constraints + w') :
    GrowSpec n' H' G' D' w' old s x := by
  cases x with
  | ok s' =>
    have hx : Grown H G D w old s s' := hx
    obtain ⟨new, he, hnew, hc⟩ := hx.log
    exact
      { bool := hx.bool
        meaning := fun σ hσ => by rw [hx.meaning σ (hH σ hσ), hG σ hσ]
        weights := hx.weights.trans (by omega)
        defined := fun σ hσ hs hg hd hd' =>
          hx.defined σ (hH σ hσ) hs ((hG σ hσ).mp hg) hd (hD σ hσ hs hg hd')
        log := ⟨new, he, fun p hp => ⟨(hnew p hp).1, (hnew p hp).2.1, fun σ hσ hs hg =>
          (hnew p hp).2.2 σ (hH σ hσ) hs ((hG σ hσ).mp hg)⟩, hc⟩ }
  | error a =>
    cases a with
    | invalidConstraint => exact fun σ hσ hs hg => hx σ (hH σ hσ) hs ((hG σ hσ).mp hg)
    | divideByZero =>
      exact fun σ hσ hs hg hd hd' =>
        hx σ (hH σ hσ) hs ((hG σ hσ).mp hg) hd (hD σ hσ hs hg hd')
    | diverged => exact hn hx

theorem GrowSpec.weaken_old {x : Except Abort (ConstraintState UFLog)}
    (hx : GrowSpec n H G D w [] s x) : GrowSpec n H G D w old s x := by
  cases x with
  | error a => cases a <;> exact hx
  | ok s' =>
    have hx : Grown H G D w [] s s' := hx
    obtain ⟨new, he, hnew, hc⟩ := hx.log
    refine { hx with log := ⟨new, he, hnew, fun c h => ?_⟩ }
    rcases hc c h with h | h | h
    · exact .inl h
    · cases h
    · exact .inr (.inr h)

/-- A rebuilt vector, seen from the state it was swapped out of. Under `G` the
assumption of the rebuilding holds, and `G` is part of the rebuilt vector. -/
theorem GrowSpec.rebase {x : Except Abort (ConstraintState UFLog)}
    (hx : GrowSpec n H (fun σ => Satisfies σ s.constraints ∧ G σ)
      (fun σ => DefinedAll σ s.constraints ∧ D σ) (weights s.constraints + w) old
      { s with constraints := [] } x)
    (hH : ∀ σ, G σ → H σ) (hold : ∀ c ∈ old, c ∈ s.constraints)
    (hG : ∀ s', x = .ok s' → ∀ σ, Satisfies σ s'.constraints → G σ) :
    GrowSpec n (fun _ => True) G D w [] s x := by
  have hnil : ∀ σ, Satisfies σ ([] : List Expr) := satisfies_nil
  have hdnil : ∀ σ, DefinedAll σ ([] : List Expr) := fun σ c hc => by cases hc
  cases x with
  | ok s' =>
    have hx : Grown H _ _ _ old _ s' := hx
    obtain ⟨new, he, hnew, hc⟩ := hx.log
    have hw := hx.weights
    simp only [weights_nil] at hw
    exact
      { bool := hx.bool
        meaning := fun σ _ =>
          ⟨fun h => ((hx.meaning σ (hH σ (hG s' rfl σ h))).mp h).2,
            fun h => (hx.meaning σ (hH σ h.2)).mpr ⟨hnil σ, h⟩⟩
        weights := by omega
        defined := fun σ _ hs hg hd hD =>
          hx.defined σ (hH σ hg) (hnil σ) ⟨hs, hg⟩ (hdnil σ) ⟨hd, hD⟩
        log := ⟨new, he, fun p hp => ⟨(hnew p hp).1, (hnew p hp).2.1, fun σ _ hs hg =>
          (hnew p hp).2.2 σ (hH σ hg) (hnil σ) ⟨hs, hg⟩⟩, fun c h => by
            rcases hc c h with h | h | h
            · cases h
            · exact .inl (hold c h)
            · exact .inr (.inr h)⟩ }
  | error a =>
    cases a with
    | invalidConstraint => exact fun σ _ hs hg => hx σ (hH σ hg) (hnil σ) ⟨hs, hg⟩
    | divideByZero =>
      exact fun σ _ hs hg hd hD => hx σ (hH σ hg) (hnil σ) ⟨hs, hg⟩ (hdnil σ) ⟨hd, hD⟩
    | diverged =>
      simp only [GrowSpec, weights_nil] at hx ⊢
      omega

end Compose

theorem BoolAll.append {cs ds : List Expr} (hc : BoolAll cs) (hd : BoolAll ds) : BoolAll (cs ++ ds) :=
  fun c h => (List.mem_append.mp h).elim (hc c) (hd c)

theorem DefinedAll.append {σ : Assignment} {cs ds : List Expr} (hc : DefinedAll σ cs)
    (hd : DefinedAll σ ds) : DefinedAll σ (cs ++ ds) :=
  fun c h => (List.mem_append.mp h).elim (hc c) (hd c)

/-- Storing a constraint without touching the others. -/
theorem push_grown {e : Expr} {s : ConstraintState UFLog} {H : Assignment → Prop}
    (hs : BoolAll s.constraints) (he : e.isBool = true) :
    Grown H (Holds · e) (fun σ => e.defined σ = true) e.weight [] s
      (push logUpdate e none false s) where
  bool := BoolAll.append hs (by simpa [BoolAll] using he)
  meaning σ _ := by simp [push]
  weights := by simp [push]
  defined σ _ _ _ hd hD := DefinedAll.append hd (by simpa [DefinedAll] using hD)
  log := by
    refine ⟨[(findSymbolicObjects e, e)], rfl, ?_, ?_⟩
    · intro p hp
      obtain rfl := List.mem_singleton.mp hp
      exact ⟨rfl, he, fun σ _ _ h => h⟩
    · intro c hc
      simp only [push, Bool.false_eq_true, if_false, List.mem_append, List.mem_singleton] at hc
      rcases hc with hc | rfl
      · exact .inl hc
      · exact .inr (.inr ⟨_, List.mem_singleton_self _, rfl⟩)

/-- What `addConstraintInternal` has to satisfy at depth `n`. -/
def AddSpec (n : ℕ)
    (add : Expr → ConstraintState UFLog → Except Abort (ConstraintState UFLog)) : Prop :=
  ∀ e s, BoolAll s.constraints → e.isBool = true →
    GrowSpec n (fun _ => True) (Holds · e) (fun σ => e.defined σ = true) e.weight [] s (add e s)

theorem holds_and {σ : Assignment} {l r : Expr} (hl : l.wellTyped = true) (hr : r.wellTyped = true)
    (hlw : l.getWidth = 1) (hrw : r.getWidth = 1) :
    Holds σ (.binary .And l r) ↔ Holds σ l ∧ Holds σ r := by
  obtain ⟨x, hx⟩ := Expr.eval_bool hl hlw σ
  obtain ⟨y, hy⟩ := Expr.eval_bool hr hrw σ
  rw [Holds, Holds, Holds, Expr.eval_binary, hx, hy]
  cases x <;> cases y <;> decide

section Rewrite

variable {n : ℕ} {src dst : Expr}
  {add : Expr → ConstraintState UFLog → Except Abort (ConstraintState UFLog)}
  (hadd : AddSpec n add) (hd : dst.isConstant = true) (hw : src.getWidth = dst.getWidth)

include hadd hd hw

/-- One round of the loop keeps the constraint's meaning where the replacement is
justified, and calls `add` only on something lighter. -/
theorem rewriteStep_spec {c : Expr} (hc : c.isBool = true) (s : ConstraintState UFLog)
    (hs : BoolAll s.constraints) :
    GrowSpec (n + 1) (fun σ => src.eval σ = dst.eval σ) (Holds · c)
      (fun σ => c.defined σ = true) c.weight [c] s (rewriteStep add src dst s c) := by
  obtain ⟨hct, hcw⟩ := isBool_iff.mp hc
  have hdw : dst.wellTyped = true := by cases dst <;> first | rfl | cases hd
  unfold rewriteStep
  cases hv : ExprReplaceVisitor.visit src dst c with
  | error a =>
    obtain rfl := ExprReplaceVisitor.onlyDivides_visit c a hv
    intro σ hσ _ _ _ hdef
    have hdd : dst.defined σ = true := by cases dst <;> first | rfl | cases hd
    obtain ⟨e', he', -⟩ := ExprReplaceVisitor.visit_defined hdd hdw hw hσ c hct hdef
    rw [hv] at he'
    cases he'
  | ok e =>
    have hvis := ExprReplaceVisitor.visits_of_visit hv
    have ha := hvis.agreesUnder hdw hw hct
    change GrowSpec _ _ _ _ _ _ _ (if e = c then _ else _)
    split_ifs with hec
    · exact
        { bool := BoolAll.append hs (by simpa [BoolAll] using hc)
          meaning := fun σ _ => by simp
          weights := by simp
          defined := fun σ _ _ _ hd hD => DefinedAll.append hd (by simpa [DefinedAll] using hD)
          log := ⟨[], by simp, by simp, fun d hd' => by
            rcases List.mem_append.mp hd' with h | h
            · exact .inl h
            · exact .inr (.inl h)⟩ }
    · have hlt := (hvis.weight_lt hd).resolve_left hec
      have hspec := hadd e s hs (isBool_iff.mpr ⟨ha.wellTyped, ha.getWidth.trans hcw⟩)
      refine GrowSpec.weaken_old (GrowSpec.mono hspec (fun _ _ => trivial) (fun σ hσ => ?_)
        (fun σ hσ _ _ hD => ?_) hlt.le (by omega))
      · rw [Holds, Holds, ha.eval σ hσ]
      · have hdd : dst.defined σ = true := by cases dst <;> first | rfl | cases hd
        obtain ⟨e', he', hed⟩ := ExprReplaceVisitor.visit_defined hdd hdw hw hσ c hct hD
        rw [hv] at he'
        cases he'
        exact hed

/-- The whole loop, over the constraints `cs` still to be visited. -/
theorem rewriteLoop_spec {cs : List Expr} (hcs : BoolAll cs) (s : ConstraintState UFLog)
    (hs : BoolAll s.constraints) :
    GrowSpec (n + 1) (fun σ => src.eval σ = dst.eval σ) (Satisfies · cs) (DefinedAll · cs)
      (weights cs) cs s (cs.foldlM (rewriteStep add src dst) s) := by
  induction cs generalizing s with
  | nil =>
    exact
      { bool := hs
        meaning := fun σ _ => by simp
        weights := by simp
        defined := fun σ _ _ _ h _ => h
        log := ⟨[], by simp, by simp, fun c hc => .inl hc⟩ }
  | cons c cs ih =>
    have hstep := rewriteStep_spec hadd hd hw (hcs c List.mem_cons_self) s hs
    have hloop := fun s₁ hs₁ => ih (fun d h => hcs d (List.mem_cons_of_mem c h)) s₁ hs₁
    rw [List.foldlM_cons]
    refine GrowSpec.mono (hstep.bind hloop) (fun _ h => h) (fun σ _ => ?_) (fun σ _ _ _ h => ?_)
      (by simp) (by simp)
    · exact satisfies_cons σ c cs
    · exact ⟨h c List.mem_cons_self, fun d hd' => h d (List.mem_cons_of_mem c hd')⟩

end Rewrite

/-- Adding a boolean constraint, at every depth. -/
theorem addConstraintInternal_spec (n : ℕ) :
    AddSpec n (fun e => addConstraintInternal logUpdate n e none false) := by
  induction n with
  | zero => exact fun e s _ _ => Nat.zero_le _
  | succ n ih =>
    intro e s hs he
    obtain ⟨het, hew⟩ := isBool_iff.mp he
    simp only
    unfold addConstraintInternal
    split
    next c =>
      have hc : c = APInt.ofBool true ∨ c = APInt.ofBool false := c.bool_cases hew
      rcases hc with rfl | rfl
      · exact
          { bool := hs
            meaning := fun σ _ => by simp [Holds]
            weights := by simp
            defined := fun σ _ _ _ h _ => h
            log := ⟨[], by simp, by simp, fun c hc => .inl hc⟩ }
      · intro σ _ _ h
        simp [Holds] at h
    next l r =>
      obtain ⟨hl, hr, hlr⟩ := Expr.wellTyped_operands het
      have hlb : l.isBool = true := isBool_iff.mpr ⟨hl, hew⟩
      have hrb : r.isBool = true := isBool_iff.mpr ⟨hr, hlr.symm.trans hew⟩
      have hseq := (ih l s hs hlb).bind fun s₁ hs₁ => ih r s₁ hs₁ hrb
      refine GrowSpec.mono hseq (fun _ h => h) (fun σ _ => holds_and hl hr hew (hlr.symm.trans hew))
        (fun σ _ _ _ h => ?_) (by simp [Expr.weight, BinaryKind.weight])
        (by simp only [Expr.weight, BinaryKind.weight]; omega)
      exact ((hereditary_defined σ).binary .And l r rfl).mp h
    next l r =>
      obtain ⟨hl, hr, hlr⟩ := Expr.wellTyped_operands het
      split_ifs with hconst
      · have hloop := rewriteLoop_spec ih hconst hlr.symm hs { s with constraints := [] }
          (by simp [BoolAll])
        have hseq := hloop.bind fun s₁ hs₁ =>
          show GrowSpec (n + 1) _ _ _ _ [] s₁ (pure (push logUpdate (.binary .Eq l r) none false s₁))
            from push_grown hs₁ he
        refine hseq.rebase (fun σ h => ((holds_eq het).mp h).symm) (by simp) fun s' hs' σ hsat => ?_
        obtain ⟨s₁, -, hs₁⟩ := ExprReplaceVisitor.bind_eq_ok.mp hs'
        cases hs₁
        exact hsat _ (by simp [push])
      · exact push_grown hs he
    next => exact push_grown hs he

/-- The depth `addConstraint` allows is never used up, so its bound may be any. -/
theorem addConstraint_spec (n : ℕ) {e : Expr} {s : ConstraintState UFLog}
    (hs : BoolAll s.constraints) (he : e.isBool = true) :
    GrowSpec n (fun _ => True) (Holds · e) (fun σ => e.defined σ = true) e.weight [] s
      (addConstraint logUpdate e s) := by
  have h : GrowSpec (depth e s) (fun _ => True) (Holds · e) (fun σ => e.defined σ = true) e.weight
      [] s (addConstraint logUpdate e s) := addConstraintInternal_spec (depth e s) e s hs he
  cases hx : addConstraint logUpdate e s with
  | ok s' =>
    rw [hx] at h
    exact h
  | error a =>
    rw [hx] at h
    cases a with
    | invalidConstraint | divideByZero => exact h
    | diverged =>
      simp only [GrowSpec, depth] at h
      omega

theorem addConstraints_spec (n : ℕ) {es : List Expr} (hes : BoolAll es) {s : ConstraintState UFLog}
    (hs : BoolAll s.constraints) :
    GrowSpec n (fun _ => True) (Satisfies · es) (DefinedAll · es) (weights es) [] s
      (addConstraints logUpdate es s) := by
  induction es generalizing s with
  | nil =>
    exact
      { bool := hs
        meaning := fun σ _ => by simp
        weights := by simp
        defined := fun σ _ _ _ h _ => h
        log := ⟨[], by simp, by simp, fun c hc => .inl hc⟩ }
  | cons e es ih =>
    have hstep := addConstraint_spec n hs (hes e List.mem_cons_self)
    have hrest := fun s₁ hs₁ => ih (fun d h => hes d (List.mem_cons_of_mem e h)) (s := s₁) hs₁
    rw [addConstraints, List.foldlM_cons]
    refine GrowSpec.mono (hstep.bind hrest) (fun _ h => h) (fun σ _ => ?_) (fun σ _ _ _ h => ?_)
      (by simp) (by simp)
    · exact satisfies_cons σ e es
    · exact ⟨h e List.mem_cons_self, fun d hd => h d (List.mem_cons_of_mem e hd)⟩

/-- A sequence of calls on any store is the logged sequence, played back. -/
theorem addConstraints_replay {U : Type} (upd : List KleeArray → Expr → U → U) (es : List Expr)
    (s : ConstraintState U) :
    addConstraints upd es s = (addConstraints logUpdate es (logged s)).map (replayed upd s) :=
  foldlM_map (f := replayed upd s) (fun t e =>
    addConstraintInternal_map (fun as e log => replay_logUpdate upd as e log _)
      (fun as e log => replay_logUpdate upd as e log _) _ e none false t) es (logged s)

section Arrays

variable {as : List KleeArray} {Q : List KleeArray × Expr → Prop}

/-- All that is stored is over the arrays, and all that is logged meets `Q`. -/
def LogOver (as : List KleeArray) (Q : List KleeArray × Expr → Prop) (s : ConstraintState UFLog) :
    Prop :=
  (∀ c ∈ s.constraints, c.Over as) ∧ ∀ p ∈ s.ufmanager, Q p

/-- All that is stored or logged stays over the arrays it was over. -/
def OverAll (as : List KleeArray) (s : ConstraintState UFLog) : Prop :=
  LogOver as (fun p => p.2.Over as) s

theorem push_over {s : ConstraintState UFLog} {e : Expr} {symNames : Option (List KleeArray)}
    (hs : LogOver as Q s) (he : e.Over as) (hq : Q (symNames.getD (findSymbolicObjects e), e)) :
    LogOver as Q (push logUpdate e symNames false s) := by
  refine ⟨fun c hc => ?_, fun p hp => ?_⟩
  · rcases List.mem_append.mp hc with hc | hc
    · exact hs.1 c hc
    · obtain rfl := List.mem_singleton.mp hc
      exact he
  · rcases List.mem_append.mp hp with hp | hp
    · exact hs.2 p hp
    · obtain rfl := List.mem_singleton.mp hp
      exact hq

theorem rewriteLoop_over {src dst : Expr}
    {add : Expr → ConstraintState UFLog → Except Abort (ConstraintState UFLog)}
    (hadd : ∀ e s s', e.Over as → LogOver as Q s → add e s = .ok s' → LogOver as Q s')
    (hdst : dst.Over as) {cs : List Expr} (hcs : ∀ c ∈ cs, c.Over as)
    {s s' : ConstraintState UFLog} (hs : LogOver as Q s)
    (h : cs.foldlM (rewriteStep add src dst) s = .ok s') : LogOver as Q s' := by
  induction cs generalizing s with
  | nil =>
    cases h
    exact hs
  | cons c cs ih =>
    rw [List.foldlM_cons] at h
    obtain ⟨s₁, h₁, h₂⟩ := ExprReplaceVisitor.bind_eq_ok.mp h
    refine ih (fun d hd => hcs d (List.mem_cons_of_mem c hd)) ?_ h₂
    obtain ⟨e, hv, h₁⟩ := ExprReplaceVisitor.bind_eq_ok.mp h₁
    have hc := hcs c List.mem_cons_self
    have he : e.Over as := (ExprReplaceVisitor.visits_of_visit hv).hereditary
      (hereditary_over as) (over_binary as) hdst hc
    split_ifs at h₁
    · cases h₁
      refine ⟨fun d hd => ?_, hs.2⟩
      rcases List.mem_append.mp hd with hd | hd
      · exact hs.1 d hd
      · obtain rfl := List.mem_singleton.mp hd
        exact hc
    · exact hadd e s s₁ he hs h₁

/-- What holds of every constraint over the arrays with its own arrays, and of `e` with
the names passed, holds of all that is logged. -/
theorem addConstraintInternal_over (n : ℕ) {e : Expr} {symNames : Option (List KleeArray)}
    {s s' : ConstraintState UFLog} (hQ : ∀ e : Expr, e.Over as → Q (findSymbolicObjects e, e))
    (he : e.Over as) (hq : Q (symNames.getD (findSymbolicObjects e), e)) (hs : LogOver as Q s)
    (h : addConstraintInternal logUpdate n e symNames false s = .ok s') : LogOver as Q s' := by
  induction n generalizing e symNames s s' with
  | zero => cases h
  | succ n ih =>
    have ihn : ∀ (e : Expr) s s', e.Over as → LogOver as Q s →
        addConstraintInternal logUpdate n e none false s = .ok s' → LogOver as Q s' := by
      intro e s s' he hs h
      refine ih he ?_ hs h
      exact hQ e he
    unfold addConstraintInternal at h
    split at h
    · split_ifs at h
      cases h
      exact hs
    next l r =>
      obtain ⟨hl, hr⟩ := (over_binary as _ l r).mp he
      obtain ⟨s₁, h₁, h₂⟩ := ExprReplaceVisitor.bind_eq_ok.mp h
      exact ihn r s₁ s' hr (ihn l s s₁ hl hs h₁) h₂
    next l r =>
      obtain ⟨hl, hr⟩ := (over_binary as _ l r).mp he
      simp only at h
      split_ifs at h
      · obtain ⟨s₁, h₁, h₂⟩ := ExprReplaceVisitor.bind_eq_ok.mp h
        cases h₂
        have hnil : LogOver as Q { s with constraints := [] } := ⟨by simp, hs.2⟩
        exact push_over (rewriteLoop_over ihn hl hs.1 hnil h₁) he hq
      · cases h
        exact push_over hs he hq
    · cases h
      exact push_over hs he hq

end Arrays

/-- Adding constraints keeps the meaning. From an empty vector, and for constraints that
hold together under some assignment, no call stops at an invalid constraint or runs
on; the vector after each call has the meaning of the conjunction so far. A call
that does not return stopped at a zero divisor, which a common assignment without
zero divisors excludes. -/
theorem addConstraints_meaning {U : Type} (updateUFStructures : List KleeArray → Expr → U → U)
    (es : List Expr) (s : ConstraintState U) (hs : s.constraints = []) (hes : BoolAll es)
    (hsat : ∃ σ, Satisfies σ es) (i : ℕ) :
    (∀ a, addConstraints updateUFStructures (es.take i) s = .error a → a = .divideByZero) ∧
    (∀ s', addConstraints updateUFStructures (es.take i) s = .ok s' →
      ∀ σ, Satisfies σ s'.constraints ↔ Satisfies σ (es.take i)) ∧
    ((∃ σ, Satisfies σ es ∧ DefinedAll σ es) →
      ∃ s', addConstraints updateUFStructures (es.take i) s = .ok s') := by
  have hb : BoolAll (es.take i) := fun e he => hes e (List.mem_of_mem_take he)
  have hlog : (logged s).constraints = [] := hs
  have hspec := addConstraints_spec (weights (es.take i) + 1) hb (s := logged s)
    (by simp [hlog, BoolAll])
  rw [addConstraints_replay]
  cases hx : addConstraints logUpdate (es.take i) (logged s) with
  | ok t =>
    rw [hx] at hspec
    have hspec : Grown _ _ _ _ _ (logged s) t := hspec
    refine ⟨fun a h => (by cases h), fun s' h σ => ?_, fun _ => ⟨_, rfl⟩⟩
    cases h
    have hm := hspec.meaning σ trivial
    rw [hlog] at hm
    simpa [replayed, ConstraintState.map] using hm
  | error a =>
    rw [hx] at hspec
    have hnil : ∀ σ, Satisfies σ (logged s).constraints := fun σ => by simp [hlog]
    have htake : ∀ σ, Satisfies σ es → Satisfies σ (es.take i) :=
      fun σ h e he => h e (List.mem_of_mem_take he)
    cases a with
    | invalidConstraint =>
      obtain ⟨σ, hσ⟩ := hsat
      exact absurd (htake σ hσ) (hspec σ trivial (hnil σ))
    | divideByZero =>
      refine ⟨fun a h => (by cases h; rfl), fun s' h => (by cases h), ?_⟩
      rintro ⟨σ, hσ, hdef⟩
      have hd : DefinedAll σ (es.take i) := fun e he => hdef e (List.mem_of_mem_take he)
      exact absurd hd (hspec σ trivial (hnil σ) (htake σ hσ) (by simp [hlog, DefinedAll]))
    | diverged =>
      simp only [GrowSpec, hlog, weights_nil] at hspec
      omega

/-- A comparison stored first is rewritten, and dropped as true, by a later equality. -/
theorem addConstraints_meaning_rewritten :
    let byte := Expr.read (.root ⟨"a", 1, 0, []⟩) (.alloc 0 32)
    let es := [Expr.binary .Ult byte (.alloc 10 8), .binary .Eq (.alloc 5 8) byte]
    addConstraints logUpdate es ⟨[], [], [], []⟩ =
        .ok ⟨[.binary .Eq (.alloc 5 8) byte], [],
          [([⟨"a", 1, 0, []⟩], .binary .Ult byte (.alloc 10 8)),
            ([⟨"a", 1, 0, []⟩], .binary .Eq (.alloc 5 8) byte)], []⟩ ∧
      ∀ σ, Satisfies σ [.binary .Eq (.alloc 5 8) byte] ↔ Satisfies σ es := by
  intro byte es
  have hrun : addConstraints logUpdate es ⟨[], [], [], []⟩ =
      .ok ⟨[.binary .Eq (.alloc 5 8) byte], [],
        [([⟨"a", 1, 0, []⟩], .binary .Ult byte (.alloc 10 8)),
          ([⟨"a", 1, 0, []⟩], .binary .Eq (.alloc 5 8) byte)], []⟩ := by decide +kernel
  refine ⟨hrun, ?_⟩
  have hmean := addConstraints_meaning logUpdate es ⟨[], [], [], []⟩ rfl
    (by unfold BoolAll; decide) ⟨fun _ _ => 5, by decide⟩ 2
  exact hmean.2.1 _ hrun

end ConstraintManager

end TaseVerifier
