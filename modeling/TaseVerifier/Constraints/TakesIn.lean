import TaseVerifier.Constraints.Termination

/-! What a list of constraints becomes when one more is taken in, without the manager: the
conjuncts are taken in one after the other, and an equality with a constant replaces its other
side in all constraints, of which those that change are taken in anew. There is no rule for a
false constant, nor for a divisor that becomes zero. -/

namespace TaseVerifier

namespace Expr

/-- No constant, no conjunction and no equality with a constant on the left. -/
def storedAsIs : Expr → Bool
  | .constant _ => false
  | .binary .And _ _ => false
  | .binary .Eq l _ => !l.isConstant
  | _ => true

theorem storedAsIs_of_ne {e : Expr} (hconst : ∀ c, e = .constant c → False)
    (hand : ∀ l r, e = .binary .And l r → False) (heq : ∀ l r, e = .binary .Eq l r → False) :
    e.storedAsIs = true := by
  unfold storedAsIs
  split
  · exact (hconst _ rfl).elim
  · exact (hand _ _ rfl).elim
  · exact (heq _ _ rfl).elim
  · rfl

end Expr

namespace ConstraintManager

mutual
/-- `cs` takes in `e` and becomes the last list. What is stored on the way has `P`, with its
arrays: those that came with it, or its own. -/
inductive TakesIn (P : List KleeArray → Expr → Prop) :
    List Expr → Expr → Option (List KleeArray) → List Expr → Prop where
  | true {cs : List Expr} {c : APInt} {symNames : Option (List KleeArray)} (hc : c.isTrue = true) :
    TakesIn P cs (.constant c) symNames cs
  | and {cs cs₁ cs₂ : List Expr} {l r : Expr} {symNames : Option (List KleeArray)}
    (hl : TakesIn P cs l none cs₁) (hr : TakesIn P cs₁ r none cs₂) :
    TakesIn P cs (.binary .And l r) symNames cs₂
  | equality {cs cs' : List Expr} {l r : Expr} {symNames : Option (List KleeArray)}
    (hl : l.isConstant = true) (h : Rewrites P r l [] cs cs')
    (hp : P (symNames.getD (findSymbolicObjects (.binary .Eq l r))) (.binary .Eq l r)) :
    TakesIn P cs (.binary .Eq l r) symNames (cs' ++ [.binary .Eq l r])
  | asIs {cs : List Expr} {e : Expr} {symNames : Option (List KleeArray)}
    (he : e.storedAsIs = true) (hp : P (symNames.getD (findSymbolicObjects e)) e) :
    TakesIn P cs e symNames (cs ++ [e])
/-- The first list takes in the second one with `src` replaced by `dst`. -/
inductive Rewrites (P : List KleeArray → Expr → Prop) :
    Expr → Expr → List Expr → List Expr → List Expr → Prop where
  | nil {src dst : Expr} {done : List Expr} : Rewrites P src dst done [] done
  | same {src dst c : Expr} {done cs cs' : List Expr}
    (hv : ExprReplaceVisitor.visit src dst c = .ok c)
    (h : Rewrites P src dst (done ++ [c]) cs cs') : Rewrites P src dst done (c :: cs) cs'
  | changed {src dst c e : Expr} {done done' cs cs' : List Expr}
    (hv : ExprReplaceVisitor.visit src dst c = .ok e) (hne : e ≠ c)
    (he : TakesIn P done e none done') (h : Rewrites P src dst done' cs cs') :
    Rewrites P src dst done (c :: cs) cs'
end

section

variable {P : List KleeArray → Expr → Prop} {n : ℕ} {e src dst : Expr}
  {symNames : Option (List KleeArray)} {s s' : ConstraintState UFLog} {cs cs' done : List Expr}

/-- A call that returns has taken the constraint in, and has logged what was stored. -/
def Logged (s s' : ConstraintState UFLog)
    (taken : (List KleeArray → Expr → Prop) → Prop) : Prop :=
  ∃ new, s'.ufmanager = s.ufmanager ++ new ∧
    ∀ P : List KleeArray → Expr → Prop, (∀ p ∈ new, P p.1 p.2) → taken P

theorem Logged.bind {s₁ : ConstraintState UFLog}
    {taken taken' both : (List KleeArray → Expr → Prop) → Prop} (h : Logged s s₁ taken)
    (h' : Logged s₁ s' taken') (hboth : ∀ P, taken P → taken' P → both P) :
    Logged s s' both := by
  obtain ⟨new, hnew, hP⟩ := h
  obtain ⟨new', hnew', hP'⟩ := h'
  refine ⟨new ++ new', by rw [hnew', hnew, List.append_assoc], fun P hall => ?_⟩
  exact hboth P (hP P fun p hp => hall p (List.mem_append_left _ hp))
    (hP' P fun p hp => hall p (List.mem_append_right _ hp))

theorem logged_push {taken : (List KleeArray → Expr → Prop) → Prop}
    (h : ∀ P : List KleeArray → Expr → Prop, P (symNames.getD (findSymbolicObjects e)) e → taken P) :
    Logged s (push logUpdate e symNames false s) taken :=
  ⟨[(symNames.getD (findSymbolicObjects e), e)], rfl,
    fun P hP => h P (hP _ (List.mem_singleton_self _))⟩

theorem rewriteLoop_logged
    (hadd : ∀ {e : Expr} {s s' : ConstraintState UFLog},
      addConstraintInternal logUpdate n e none false s = .ok s' →
        Logged s s' fun P => TakesIn P s.constraints e none s'.constraints)
    (h : cs.foldlM (rewriteStep (fun e => addConstraintInternal logUpdate n e none false) src dst) s =
      .ok s') : Logged s s' fun P => Rewrites P src dst s.constraints cs s'.constraints := by
  induction cs generalizing s with
  | nil =>
    cases h
    exact ⟨[], by simp, fun P _ => .nil⟩
  | cons c cs ih =>
    rw [List.foldlM_cons] at h
    obtain ⟨s₁, h₁, h₂⟩ := ExprReplaceVisitor.bind_eq_ok.mp h
    obtain ⟨e, hv, h₁⟩ := ExprReplaceVisitor.bind_eq_ok.mp h₁
    split_ifs at h₁ with hsame
    · cases h₁
      obtain ⟨new, hnew, hP⟩ := ih h₂
      exact ⟨new, hnew, fun P hall => .same (hsame ▸ hv) (hP P hall)⟩
    · exact (hadd h₁).bind (ih h₂) fun P he hrest => .changed hv hsame he hrest

theorem addConstraintInternal_logged (h : addConstraintInternal logUpdate n e symNames false s = .ok s') :
    Logged s s' fun P => TakesIn P s.constraints e symNames s'.constraints := by
  induction n generalizing e symNames s s' with
  | zero => cases h
  | succ n ih =>
    unfold addConstraintInternal at h
    split at h
    next c =>
      split_ifs at h with hc
      cases h
      exact ⟨[], by simp, fun P _ => .true hc⟩
    next l r =>
      obtain ⟨s₁, h₁, h₂⟩ := ExprReplaceVisitor.bind_eq_ok.mp h
      exact (ih h₁).bind (ih h₂) fun P hl hr => .and hl hr
    next l r =>
      split_ifs at h with hl
      · obtain ⟨s₁, h₁, h₂⟩ := ExprReplaceVisitor.bind_eq_ok.mp h
        cases h₂
        have hloop : Logged s s₁ fun P => Rewrites P r l [] s.constraints s₁.constraints :=
          rewriteLoop_logged ih h₁
        exact hloop.bind (logged_push fun P hp => hp) fun P hr hp => .equality hl hr hp
      · cases h
        exact logged_push fun P hp => .asIs (by simpa [Expr.storedAsIs] using hl) hp
    next hconst hand heq =>
      cases h
      exact logged_push fun P hp => .asIs (Expr.storedAsIs_of_ne hconst hand heq) hp

/-! ### What is taken in -/

/-- A call that returns, with the constraints it leaves; what it has logged has `P`. -/
def Adds (P : List KleeArray → Expr → Prop) (s : ConstraintState UFLog) (cs' : List Expr)
    (x : Except Abort (ConstraintState UFLog)) : Prop :=
  ∃ s', x = .ok s' ∧ s'.constraints = cs' ∧
    ∃ new, s'.ufmanager = s.ufmanager ++ new ∧ ∀ p ∈ new, P p.1 p.2

theorem Adds.of_constraints (cs : List Expr) : Adds P s cs (.ok { s with constraints := cs }) :=
  ⟨_, rfl, rfl, [], by simp, by simp⟩

theorem Adds.bind {x : Except Abort (ConstraintState UFLog)}
    {f : ConstraintState UFLog → Except Abort (ConstraintState UFLog)} (h : Adds P s cs x)
    (hf : ∀ s₁, s₁.constraints = cs → Adds P s₁ cs' (f s₁)) : Adds P s cs' (x >>= f) := by
  obtain ⟨s₁, rfl, hcs, new, hnew, hP⟩ := h
  obtain ⟨s₂, h₂, hcs', new', hnew', hP'⟩ := hf s₁ hcs
  refine ⟨s₂, h₂, hcs', new ++ new', by rw [hnew', hnew, List.append_assoc], fun p hp => ?_⟩
  exact (List.mem_append.mp hp).elim (hP p) (hP' p)

theorem adds_push (hs : s.constraints = cs) (hp : P (symNames.getD (findSymbolicObjects e)) e) :
    Adds P s (cs ++ [e]) (.ok (push logUpdate e symNames false s)) :=
  ⟨_, rfl, by simp [push, hs], [(symNames.getD (findSymbolicObjects e), e)], rfl, by simpa using hp⟩

mutual
theorem TakesIn.adds {cs cs' : List Expr} {e : Expr} {symNames : Option (List KleeArray)} :
    TakesIn P cs e symNames cs' → ∃ N, ∀ n, N ≤ n → ∀ s : ConstraintState UFLog,
      s.constraints = cs → Adds P s cs' (addConstraintInternal logUpdate n e symNames false s)
  | .true hc => by
    refine ⟨1, fun n hn s hs => ?_⟩
    obtain ⟨n, rfl⟩ : ∃ k, n = k + 1 := ⟨n - 1, by omega⟩
    rw [addConstraintInternal, if_pos hc]
    subst hs
    exact Adds.of_constraints _
  | .and hl hr => by
    obtain ⟨N₁, h₁⟩ := hl.adds
    obtain ⟨N₂, h₂⟩ := hr.adds
    refine ⟨N₁ + N₂ + 1, fun n hn s hs => ?_⟩
    obtain ⟨n, rfl⟩ : ∃ k, n = k + 1 := ⟨n - 1, by omega⟩
    rw [addConstraintInternal]
    exact (h₁ n (by omega) s hs).bind fun s₁ hs₁ => h₂ n (by omega) s₁ hs₁
  | .equality hl h hp => by
    obtain ⟨N, hN⟩ := h.adds
    refine ⟨N + 1, fun n hn s hs => ?_⟩
    obtain ⟨n, rfl⟩ : ∃ k, n = k + 1 := ⟨n - 1, by omega⟩
    rw [addConstraintInternal, if_pos hl, rewriteConstraints, hs]
    exact (hN n (by omega) _ rfl).bind fun s₁ hs₁ => adds_push hs₁ hp
  | .asIs he hp => by
    refine ⟨1, fun n hn s hs => ?_⟩
    obtain ⟨n, rfl⟩ : ∃ k, n = k + 1 := ⟨n - 1, by omega⟩
    unfold addConstraintInternal
    split
    · cases he
    · cases he
    next l r =>
      rw [if_neg (by simpa [Expr.storedAsIs] using he)]
      exact adds_push hs hp
    next => exact adds_push hs hp
theorem Rewrites.adds {src dst : Expr} {done cs cs' : List Expr} :
    Rewrites P src dst done cs cs' → ∃ N, ∀ n, N ≤ n → ∀ s : ConstraintState UFLog,
      s.constraints = done → Adds P s cs' (cs.foldlM
        (rewriteStep (fun e => addConstraintInternal logUpdate n e none false) src dst) s)
  | .nil => by
    refine ⟨0, fun n _ s hs => ?_⟩
    subst hs
    exact Adds.of_constraints _
  | .same hv h => by
    obtain ⟨N, hN⟩ := h.adds
    refine ⟨N, fun n hn s hs => ?_⟩
    rw [List.foldlM_cons, rewriteStep, hv]
    simp only [bind, Except.bind, if_true]
    subst hs
    exact hN n hn { s with constraints := s.constraints ++ [_] } rfl
  | .changed hv hne he h => by
    obtain ⟨N₁, h₁⟩ := he.adds
    obtain ⟨N₂, h₂⟩ := h.adds
    refine ⟨N₁ + N₂, fun n hn s hs => ?_⟩
    rw [List.foldlM_cons, rewriteStep, hv]
    simp only [bind, Except.bind, if_neg hne]
    exact (h₁ n (by omega) s hs).bind fun s₁ hs₁ => h₂ n (by omega) s₁ hs₁
end

/-- A call with enough depth returns exactly if the constraint is taken in. -/
theorem takesIn_iff (hn : weights s.constraints + e.weight < n) :
    TakesIn P s.constraints e symNames cs' ↔
      Adds P s cs' (addConstraintInternal logUpdate n e symNames false s) := by
  constructor
  · intro h
    obtain ⟨N, hN⟩ := h.adds
    have hmore : addConstraintInternal logUpdate (n + N) e symNames false s =
        addConstraintInternal logUpdate n e symNames false s :=
      (addConstraintInternal_ends (Nat.le_add_right n N) e symNames false s hn).2
    rw [← hmore]
    exact hN _ (Nat.le_add_left N n) s rfl
  · rintro ⟨s', hs', rfl, new, hnew, hP⟩
    obtain ⟨new', hnew', hall⟩ := addConstraintInternal_logged hs'
    obtain rfl := List.append_cancel_left (hnew.symm.trans hnew')
    exact hall P hP

end

end ConstraintManager

end TaseVerifier
