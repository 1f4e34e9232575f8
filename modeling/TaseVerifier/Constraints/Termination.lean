import TaseVerifier.Constraints.AddSpec

/-! The recursion of `addConstraintInternal` ends on every vector and every expression.
Re-adding a changed constraint can start another rewrite, but the replacement of a
term by a constant weighs less than what it replaces, so the weight of the vector
together with the constraint being added drops at every nested call. -/

namespace TaseVerifier

namespace ConstraintManager

variable {U : Type} {updateUFStructures : List KleeArray → Expr → U → U}

/-- A call that comes back, leaving a vector at most `w` heavier than that of `s`. -/
structure Ends (w : ℕ) (s : ConstraintState U) (x : Except Abort (ConstraintState U)) : Prop where
  ended : x ≠ .error .diverged
  weights : ∀ s', x = .ok s' → weights s'.constraints ≤ weights s.constraints + w

theorem Ends.of_ok {w : ℕ} {s s' : ConstraintState U}
    (h : TaseVerifier.weights s'.constraints ≤ TaseVerifier.weights s.constraints + w) :
    Ends w s (.ok s') where
  ended := nofun
  weights t ht := by
    cases ht
    exact h

theorem Ends.of_error {w : ℕ} {s : ConstraintState U} {a : Abort} (h : a ≠ .diverged) :
    Ends w s (.error a) where
  ended he := h (Except.error.inj he)
  weights := nofun

/-- Two calls in sequence end when the second does after whatever the first leaves. -/
theorem Ends.bind {w₁ w₂ : ℕ} {s : ConstraintState U} {x : Except Abort (ConstraintState U)}
    {f : ConstraintState U → Except Abort (ConstraintState U)} (hx : Ends w₁ s x)
    (hf : ∀ s₁, TaseVerifier.weights s₁.constraints ≤ TaseVerifier.weights s.constraints + w₁ →
      Ends w₂ s₁ (f s₁)) : Ends (w₁ + w₂) s (x >>= f) := by
  cases x with
  | error a => exact Ends.of_error fun ha => hx.ended (congrArg Except.error ha)
  | ok s₁ =>
    have hw := hx.weights s₁ rfl
    have h₂ := hf s₁ hw
    exact ⟨h₂.ended, fun s' hs' => (h₂.weights s' hs').trans (by omega)⟩

theorem Ends.mono {w w' : ℕ} {s s' : ConstraintState U} {x : Except Abort (ConstraintState U)}
    (hx : Ends w s x) (h : TaseVerifier.weights s.constraints + w ≤
      TaseVerifier.weights s'.constraints + w') : Ends w' s' x :=
  ⟨hx.ended, fun t ht => (hx.weights t ht).trans h⟩

theorem ends_push (e : Expr) (symNames : Option (List KleeArray)) (cheat : Bool)
    (s : ConstraintState U) :
    Ends e.weight s (.ok (push updateUFStructures e symNames cheat s)) := by
  refine Ends.of_ok ?_
  cases cheat <;> simp [push]

section Rewrite

variable {n : ℕ} (src : Expr) {dst : Expr}
  {add add' : Expr → ConstraintState U → Except Abort (ConstraintState U)}
  (hadd : ∀ e s, weights s.constraints + e.weight < n →
    Ends e.weight s (add e s) ∧ add' e s = add e s)
  (hd : dst.isConstant = true)

include hadd hd

/-- A round of the loop re-adds only what has become lighter. -/
theorem rewriteStep_ends (c : Expr) (s : ConstraintState U)
    (hn : weights s.constraints + c.weight ≤ n) :
    Ends c.weight s (rewriteStep add src dst s c) ∧
      rewriteStep add' src dst s c = rewriteStep add src dst s c := by
  unfold rewriteStep
  cases hv : ExprReplaceVisitor.visit src dst c with
  | error a =>
    obtain rfl := ExprReplaceVisitor.onlyDivides_visit c a hv
    exact ⟨Ends.of_error nofun, rfl⟩
  | ok e =>
    have hw := (ExprReplaceVisitor.visits_of_visit hv).weight_lt hd
    simp only [bind, Except.bind]
    split_ifs with hec
    · exact ⟨Ends.of_ok (by simp), rfl⟩
    · have hlt := hw.resolve_left hec
      obtain ⟨hends, heq⟩ := hadd e s (by omega)
      exact ⟨hends.mono (by omega), heq⟩

/-- The loop over the constraints `cs` still to be visited. -/
theorem rewriteLoop_ends (cs : List Expr) (s : ConstraintState U)
    (hn : weights s.constraints + weights cs ≤ n) :
    Ends (weights cs) s (cs.foldlM (rewriteStep add src dst) s) ∧
      cs.foldlM (rewriteStep add' src dst) s = cs.foldlM (rewriteStep add src dst) s := by
  induction cs generalizing s with
  | nil => exact ⟨Ends.of_ok le_rfl, rfl⟩
  | cons c cs ih =>
    rw [weights_cons] at hn ⊢
    obtain ⟨hends, heq⟩ := rewriteStep_ends src hadd hd c s (by omega)
    rw [List.foldlM_cons, List.foldlM_cons, heq]
    refine ⟨hends.bind fun s₁ hs₁ => (ih s₁ (by omega)).1, ?_⟩
    cases hs₁ : rewriteStep add src dst s c with
    | error a => rfl
    | ok s₁ =>
      have hw := hends.weights s₁ hs₁
      exact (ih s₁ (by omega)).2

end Rewrite

/-- A depth above the weight of the vector and the expression is not used up, and more
depth changes nothing. -/
theorem addConstraintInternal_ends {n m : ℕ} (hnm : n ≤ m) (e : Expr)
    (symNames : Option (List KleeArray)) (cheat : Bool) (s : ConstraintState U)
    (hn : weights s.constraints + e.weight < n) :
    Ends e.weight s (addConstraintInternal updateUFStructures n e symNames cheat s) ∧
      addConstraintInternal updateUFStructures m e symNames cheat s =
        addConstraintInternal updateUFStructures n e symNames cheat s := by
  induction n generalizing m e symNames cheat s with
  | zero => exact absurd hn (Nat.not_lt_zero _)
  | succ n ih =>
    obtain ⟨m, rfl⟩ : ∃ k, m = k + 1 := ⟨m - 1, by omega⟩
    have hnm : n ≤ m := by omega
    unfold addConstraintInternal
    split
    next c =>
      refine ⟨?_, rfl⟩
      split_ifs
      · exact Ends.of_ok (Nat.le_add_right _ _)
      · exact Ends.of_error nofun
    next l r =>
      simp only [Expr.weight, BinaryKind.weight] at hn ⊢
      obtain ⟨hends, heq⟩ := ih hnm l none cheat s (by omega)
      have hright := fun s₁ (hs₁ : weights s₁.constraints ≤ weights s.constraints + l.weight) =>
        ih hnm r none cheat s₁ (by omega)
      rw [heq]
      refine ⟨(hends.bind fun s₁ hs₁ => (hright s₁ hs₁).1).mono (by omega), ?_⟩
      cases hs₁ : addConstraintInternal updateUFStructures n l none cheat s with
      | error a => rfl
      | ok s₁ => exact (hright s₁ (hends.weights s₁ hs₁)).2
    next l r =>
      have hw : (Expr.binary .Eq l r).weight = l.weight + r.weight + 1 := rfl
      split_ifs with hconst
      · obtain ⟨hends, heq⟩ := rewriteLoop_ends r
          (fun e s hs => ih hnm e none false s hs) hconst s.constraints
          { s with constraints := [] } (by simp only [weights_nil]; omega)
        unfold rewriteConstraints
        rw [heq]
        refine ⟨(hends.bind fun s₁ _ => ends_push _ symNames cheat s₁).mono ?_, rfl⟩
        simp
      · exact ⟨ends_push _ symNames cheat s, rfl⟩
    next => exact ⟨ends_push e symNames cheat s, rfl⟩

/-- Whatever the vector and the expression, the recursion comes back: from some depth on
the call has one result, and it is not that the depth ran out. -/
theorem addConstraintInternal_terminates (updateUFStructures : List KleeArray → Expr → U → U)
    (e : Expr) (symNames : Option (List KleeArray)) (cheat : Bool) (s : ConstraintState U) :
    ∃ r, r ≠ .error .diverged ∧ ∃ N, ∀ n, N ≤ n →
      addConstraintInternal updateUFStructures n e symNames cheat s = r := by
  have hdepth : ∀ n, depth e s ≤ n →
      Ends e.weight s (addConstraintInternal updateUFStructures (depth e s) e symNames cheat s) ∧
        addConstraintInternal updateUFStructures n e symNames cheat s =
          addConstraintInternal updateUFStructures (depth e s) e symNames cheat s :=
    fun n hn => addConstraintInternal_ends hn e symNames cheat s (Nat.lt_succ_self _)
  exact ⟨_, (hdepth _ le_rfl).1.ended, depth e s, fun n hn => (hdepth n hn).2⟩

end ConstraintManager

end TaseVerifier
