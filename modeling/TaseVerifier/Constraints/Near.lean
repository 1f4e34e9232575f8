import TaseVerifier.Constraints.AddSpec

/-! How far adding a constraint reaches. A stored constraint is rewritten only when it
shares an array with the equality that rewrites it. So for a set of arrays that no
stored constraint leaves, whatever is stored on the way stays within the set or
follows from what was there before. -/

namespace TaseVerifier

namespace ExprReplaceVisitor

/-- An expression that a visit changes has all arrays of the replaced expression. -/
theorem Visits.roots_subset {src dst e e' : Expr} (h : Visits src dst e e') :
    e' = e ∨ src.symbolicRoots ⊆ e.symbolicRoots := by
  induction h with
  | same e => exact .inl rfl
  | replaced _ _ ih =>
    rcases ih with rfl | ih
    · exact .inr (List.Subset.refl _)
    · exact .inr ih
  | notOptimized _ hne ih => exact .inr (ih.resolve_left hne)
  | read _ hne ih => exact .inr (List.subset_append_of_subset_right _ (ih.resolve_left hne))
  | select _ _ _ hne ihc iht ihf =>
    rcases ihc with rfl | ihc
    · rcases iht with rfl | iht
      · have ihf := ihf.resolve_left fun h => hne ⟨rfl, rfl, h⟩
        exact .inr (List.subset_append_of_subset_right _ ihf)
      · exact .inr (List.subset_append_of_subset_left _ (List.subset_append_of_subset_right _ iht))
    · exact .inr (List.subset_append_of_subset_left _ (List.subset_append_of_subset_left _ ihc))
  | concat _ _ hne ihl ihr =>
    rcases ihl with rfl | ihl
    · have ihr := ihr.resolve_left fun h => hne ⟨rfl, h⟩
      exact .inr (List.subset_append_of_subset_right _ ihr)
    · exact .inr (List.subset_append_of_subset_left _ ihl)
  | extract _ hne ih => exact .inr (ih.resolve_left hne)
  | not _ hne ih => exact .inr (ih.resolve_left hne)
  | cast _ hne ih => exact .inr (ih.resolve_left hne)
  | binary _ _ hne _ ihl ihr =>
    rcases ihl with rfl | ihl
    · have ihr := ihr.resolve_left fun h => hne ⟨rfl, h⟩
      exact .inr (List.subset_append_of_subset_right _ ihr)
    · exact .inr (List.subset_append_of_subset_left _ ihl)

end ExprReplaceVisitor

namespace ConstraintManager

/-- Playing a log back on a log appends it. -/
theorem replay_log (log u : UFLog) : replay logUpdate log u = u ++ log := by
  induction log generalizing u with
  | nil => simp [replay]
  | cons p log ih =>
    have := ih (logUpdate p.1 p.2 u)
    simpa [replay, logUpdate] using this

theorem addConstraintInternal_log {n : ℕ} {e : Expr} {s s' : ConstraintState UFLog}
    (h : addConstraintInternal logUpdate n e none false s = .ok s') :
    s.ufmanager ⊆ s'.ufmanager := by
  rw [addConstraintInternal_replay] at h
  cases ht : addConstraintInternal logUpdate n e none false (logged s) with
  | error a => rw [ht] at h; cases h
  | ok t =>
    rw [ht] at h
    cases h
    simp only [replayed, ConstraintState.map, replay_log]
    exact List.subset_append_left _ _

theorem rewriteLoop_log {src dst : Expr} {n : ℕ} {cs : List Expr} {s s' : ConstraintState UFLog}
    (h : cs.foldlM (rewriteStep (fun e => addConstraintInternal logUpdate n e none false) src dst) s =
      .ok s') : s.ufmanager ⊆ s'.ufmanager := by
  induction cs generalizing s with
  | nil =>
    cases h
    exact List.Subset.refl _
  | cons c cs ih =>
    rw [List.foldlM_cons] at h
    obtain ⟨s₁, h₁, h₂⟩ := ExprReplaceVisitor.bind_eq_ok.mp h
    obtain ⟨e, -, h₁⟩ := ExprReplaceVisitor.bind_eq_ok.mp h₁
    refine List.Subset.trans ?_ (ih h₂)
    split_ifs at h₁
    · cases h₁
      exact List.Subset.refl _
    · exact addConstraintInternal_log h₁

section Near

variable (as : List KleeArray) (V : Assignment → Prop)

/-- `c` stays within the arrays `as`, or follows from `V`. -/
def Near (c : Expr) : Prop := c.Over as ∨ ∀ σ, V σ → Holds σ c

/-- `c` does not lead out of the arrays `as`. -/
def Closed (c : Expr) : Prop := (∃ a ∈ c.symbolicRoots, a ∈ as) → c.Over as

/-- A constraint handed to the store does not lead out of `as`, and is true if it has no
array at all. -/
def Filed (c : Expr) : Prop := Closed as c ∧ (c.symbolicRoots = [] → ∀ σ, Holds σ c)

/-- A constraint of the vector. -/
structure NearStored (c : Expr) : Prop where
  near : Near as V c
  closed : Closed as c
  bool : c.isBool = true

variable {as V}

/-- Rewriting by an equality that is near gives something near. -/
theorem near_visit {l r c e : Expr} (heq : (Expr.binary .Eq l r).isBool = true)
    (hl : l.isConstant = true) (hnear : Near as V (.binary .Eq l r))
    (hfiled : Filed as (.binary .Eq l r)) (hc : NearStored as V c)
    (hv : ExprReplaceVisitor.visit r l c = .ok e) (hne : e ≠ c) :
    Near as V e ∧ e.isBool = true := by
  obtain ⟨het, hew⟩ := isBool_iff.mp heq
  obtain ⟨hct, hcw⟩ := isBool_iff.mp hc.bool
  obtain ⟨hlt, hrt, hlr⟩ := Expr.wellTyped_operands het
  have hvis := ExprReplaceVisitor.visits_of_visit hv
  have ha := hvis.agreesUnder hlt hlr.symm hct
  have hlroots : l.symbolicRoots = [] := by cases l <;> first | rfl | cases hl
  have hover : c.Over as → e.Over as := fun hcov =>
    hvis.hereditary (hereditary_over as) (over_binary as) (by simp [Expr.Over, hlroots]) hcov
  have himp : (∀ σ, V σ → Holds σ (.binary .Eq l r)) → (∀ σ, V σ → Holds σ c) →
      ∀ σ, V σ → Holds σ e := fun hVeq hVc σ hσ => by
    rw [Holds, ha.eval σ ((holds_eq het).mp (hVeq σ hσ)).symm]
    exact hVc σ hσ
  refine ⟨?_, isBool_iff.mpr ⟨ha.wellTyped, ha.getWidth.trans hcw⟩⟩
  rcases hc.near with hcov | hVc
  · exact .inl (hover hcov)
  · rcases hnear with heqov | hVeq
    · cases hr : r.symbolicRoots with
      | nil =>
        have htrue := hfiled.2 (by simp [Expr.symbolicRoots, hlroots, hr])
        exact .inr (himp (fun σ _ => htrue σ) hVc)
      | cons a rest =>
        have hac : a ∈ c.symbolicRoots := (hvis.roots_subset.resolve_left hne) (by simp [hr])
        have haas : a ∈ as := heqov a (by simp [Expr.symbolicRoots, hlroots, hr])
        exact .inl (hover (hc.closed ⟨a, hac, haas⟩))
    · exact .inr (himp hVeq hVc)

theorem push_near {e : Expr} {s : ConstraintState UFLog} (hs : ∀ c ∈ s.constraints, NearStored as V c)
    (he : NearStored as V e) :
    (∀ c ∈ (push logUpdate e none false s).constraints, NearStored as V c) ∧
      ∀ p ∈ (push logUpdate e none false s).ufmanager, p ∈ s.ufmanager ∨ Near as V p.2 := by
  refine ⟨fun c hc => ?_, fun p hp => ?_⟩
  · rcases List.mem_append.mp hc with hc | hc
    · exact hs c hc
    · obtain rfl := List.mem_singleton.mp hc
      exact he
  · rcases List.mem_append.mp hp with hp | hp
    · exact .inl hp
    · obtain rfl := List.mem_singleton.mp hp
      exact .inr he.near

/-- The state after adding to `s`: the vector and the new part of the log are near. -/
def NearResult (as : List KleeArray) (V : Assignment → Prop) (s s' : ConstraintState UFLog) : Prop :=
  (∀ c ∈ s'.constraints, NearStored as V c) ∧ ∀ p ∈ s'.ufmanager, p ∈ s.ufmanager ∨ Near as V p.2

theorem NearResult.trans {s s₁ s₂ : ConstraintState UFLog} (h₁ : NearResult as V s s₁)
    (h₂ : NearResult as V s₁ s₂) : NearResult as V s s₂ :=
  ⟨h₂.1, fun p hp => (h₂.2 p hp).elim (h₁.2 p) .inr⟩

theorem rewriteLoop_near {n : ℕ} {l r : Expr}
    (hadd : ∀ e s s', Near as V e → e.isBool = true → (∀ c ∈ s.constraints, NearStored as V c) →
      (∀ p ∈ s'.ufmanager, Filed as p.2) →
      addConstraintInternal logUpdate n e none false s = .ok s' → NearResult as V s s')
    (heq : (Expr.binary .Eq l r).isBool = true) (hl : l.isConstant = true)
    (hnear : Near as V (.binary .Eq l r)) (hfiled : Filed as (.binary .Eq l r)) {cs : List Expr}
    (hcs : ∀ c ∈ cs, NearStored as V c) {s s' : ConstraintState UFLog}
    (hs : ∀ c ∈ s.constraints, NearStored as V c) (hlog : ∀ p ∈ s'.ufmanager, Filed as p.2)
    (h : cs.foldlM (rewriteStep (fun e => addConstraintInternal logUpdate n e none false) r l) s =
      .ok s') : NearResult as V s s' := by
  induction cs generalizing s with
  | nil =>
    cases h
    exact ⟨hs, fun p hp => .inl hp⟩
  | cons c cs ih =>
    rw [List.foldlM_cons] at h
    obtain ⟨s₁, h₁, h₂⟩ := ExprReplaceVisitor.bind_eq_ok.mp h
    obtain ⟨e, hv, h₁⟩ := ExprReplaceVisitor.bind_eq_ok.mp h₁
    have hc := hcs c List.mem_cons_self
    have hlog₁ : ∀ p ∈ s₁.ufmanager, Filed as p.2 := fun p hp => hlog p (rewriteLoop_log h₂ hp)
    have hstep : NearResult as V s s₁ := by
      split_ifs at h₁ with hne
      · cases h₁
        refine ⟨fun d hd => ?_, fun p hp => .inl hp⟩
        rcases List.mem_append.mp hd with hd | hd
        · exact hs d hd
        · obtain rfl := List.mem_singleton.mp hd
          exact hc
      · obtain ⟨hne', heb⟩ := near_visit heq hl hnear hfiled hc hv hne
        exact hadd e s s₁ hne' heb hs hlog₁ h₁
    exact hstep.trans (ih (fun d hd => hcs d (List.mem_cons_of_mem c hd)) hstep.1 h₂)

/-- Adding something near to a vector that is near. -/
theorem addConstraintInternal_near (n : ℕ) {e : Expr} {s s' : ConstraintState UFLog}
    (he : Near as V e) (heb : e.isBool = true) (hs : ∀ c ∈ s.constraints, NearStored as V c)
    (hlog : ∀ p ∈ s'.ufmanager, Filed as p.2)
    (h : addConstraintInternal logUpdate n e none false s = .ok s') : NearResult as V s s' := by
  induction n generalizing e s s' with
  | zero => cases h
  | succ n ih =>
    have hpush : ∀ {s₁ : ConstraintState UFLog}, s' = push logUpdate e none false s₁ →
        (∀ c ∈ s₁.constraints, NearStored as V c) → NearResult as V s₁ s' := by
      rintro s₁ rfl hs₁
      have hf : Filed as e := hlog (findSymbolicObjects e, e) (by simp [push, logUpdate])
      exact push_near hs₁ ⟨he, hf.1, heb⟩
    obtain ⟨het, hew⟩ := isBool_iff.mp heb
    unfold addConstraintInternal at h
    split at h
    · split_ifs at h
      cases h
      exact ⟨hs, fun p hp => .inl hp⟩
    next l r =>
      obtain ⟨hl, hr, hlr⟩ := Expr.wellTyped_operands het
      have hlr' : r.getWidth = 1 := hlr.symm.trans hew
      have hsplit : Near as V l ∧ Near as V r := by
        rcases he with hov | hV
        · obtain ⟨hlo, hro⟩ := (over_binary as _ l r).mp hov
          exact ⟨.inl hlo, .inl hro⟩
        · have hboth := fun σ hσ => (holds_and hl hr hew hlr').mp (hV σ hσ)
          exact ⟨.inr fun σ hσ => (hboth σ hσ).1, .inr fun σ hσ => (hboth σ hσ).2⟩
      obtain ⟨s₁, h₁, h₂⟩ := ExprReplaceVisitor.bind_eq_ok.mp h
      have hlog₁ : ∀ p ∈ s₁.ufmanager, Filed as p.2 :=
        fun p hp => hlog p (addConstraintInternal_log h₂ hp)
      have hn₁ := ih hsplit.1 (isBool_iff.mpr ⟨hl, hew⟩) hs hlog₁ h₁
      exact hn₁.trans (ih hsplit.2 (isBool_iff.mpr ⟨hr, hlr'⟩) hn₁.1 hlog h₂)
    next l r =>
      simp only at h
      split_ifs at h with hconst
      · obtain ⟨s₁, h₁, h₂⟩ := ExprReplaceVisitor.bind_eq_ok.mp h
        cases h₂
        have hfiled : Filed as (.binary .Eq l r) :=
          hlog (findSymbolicObjects (.binary .Eq l r), .binary .Eq l r) (by simp [push, logUpdate])
        have hloop := rewriteLoop_near (fun e s s' => ih) heb hconst he hfiled hs
          (s := { s with constraints := [] }) (by simp)
          (fun p hp => hlog p (by simp [push, logUpdate, hp])) h₁
        exact NearResult.trans hloop (hpush rfl hloop.1)
      · cases h
        exact hpush rfl hs
    · cases h
      exact hpush rfl hs

end Near

end ConstraintManager

end TaseVerifier
