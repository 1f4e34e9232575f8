import TaseVerifier.Expr.Weight
import TaseVerifier.Expr.Defined

/-! The constraint manager. Adding a constraint splits conjunctions, uses an equality
with a constant to rewrite the constraints already stored, and re-adds whatever
the rewriting changed. Each stored constraint is also handed, with its arrays, to
one of the two union-find stores; the store is a parameter here, since the manager
reaches it only through `updateUFStructures`. -/

namespace TaseVerifier

/-- A `ConstraintManager` together with `ufmanager` and `ufmanager_cheat`. -/
structure ConstraintState (U : Type) where
  constraints : List Expr
  cheatConstraints : List Expr
  ufmanager : U
  ufmanagerCheat : U
  deriving DecidableEq

namespace ConstraintManager

variable {U : Type} (updateUFStructures : List KleeArray → Expr → U → U)

/-- Both kinds of stored constraint end the same way: update the union-find store of
the arrays (found unless the caller passed them) and push the constraint. -/
def push (e : Expr) (symNames : Option (List KleeArray)) (cheat : Bool) (s : ConstraintState U) :
    ConstraintState U :=
  let arrays := symNames.getD (findSymbolicObjects e)
  if cheat then
    { s with
      ufmanagerCheat := updateUFStructures arrays e s.ufmanagerCheat
      cheatConstraints := s.cheatConstraints ++ [e] }
  else
    { s with
      ufmanager := updateUFStructures arrays e s.ufmanager
      constraints := s.constraints ++ [e] }

/-- One round of the loop of `rewriteConstraints`. -/
def rewriteStep (addConstraint : Expr → ConstraintState U → Except Abort (ConstraintState U))
    (src dst : Expr) (s : ConstraintState U) (ce : Expr) : Except Abort (ConstraintState U) := do
  let e ← ExprReplaceVisitor.visit src dst ce
  if e = ce then pure { s with constraints := s.constraints ++ [ce] } else addConstraint e s

/-- The constraints are swapped out and visited in order; changed ones are added
again, to the vector that is being rebuilt. -/
def rewriteConstraints (addConstraint : Expr → ConstraintState U → Except Abort (ConstraintState U))
    (src dst : Expr) (s : ConstraintState U) : Except Abort (ConstraintState U) :=
  s.constraints.foldlM (rewriteStep addConstraint src dst) { s with constraints := [] }

/-- `addConstraintInternal`, with `n` bounding the depth of its recursion. -/
def addConstraintInternal : ℕ → Expr → Option (List KleeArray) → Bool → ConstraintState U →
    Except Abort (ConstraintState U)
  | 0, _, _, _, _ => throw .diverged
  | n + 1, e, symNames, cheat, s =>
    match e with
    | .constant c => if c.isTrue then pure s else throw .invalidConstraint
    -- the names are not passed on to the conjuncts
    | .binary .And l r => do
      let s ← addConstraintInternal n l none cheat s
      addConstraintInternal n r none cheat s
    | .binary .Eq l r => do
      let s ← if l.isConstant then
          rewriteConstraints (fun e => addConstraintInternal n e none false) r l s
        else pure s
      pure (push updateUFStructures (.binary .Eq l r) symNames cheat s)
    | e => pure (push updateUFStructures e symNames cheat s)

end ConstraintManager

def weights (cs : List Expr) : ℕ := (cs.map Expr.weight).sum

namespace ConstraintManager

variable {U : Type} (updateUFStructures : List KleeArray → Expr → U → U)

/-- A depth that the recursion cannot reach. -/
def depth (e : Expr) (s : ConstraintState U) : ℕ := weights s.constraints + e.weight + 1

def addConstraint (e : Expr) (s : ConstraintState U) : Except Abort (ConstraintState U) :=
  addConstraintInternal updateUFStructures (depth e s) e none false s

def addCheatConstraint (e : Expr) (s : ConstraintState U) : Except Abort (ConstraintState U) :=
  addConstraintInternal updateUFStructures (depth e s) e none true s

/-- A sequence of `addConstraint` calls. -/
def addConstraints (es : List Expr) (s : ConstraintState U) : Except Abort (ConstraintState U) :=
  es.foldlM (fun s e => addConstraint updateUFStructures e s) s

/-- `clear` empties the vector and nothing else. -/
def clear (s : ConstraintState U) : ConstraintState U := { s with constraints := [] }

end ConstraintManager

/-! The manager does not look at its union-find stores: maps between two kinds of
store that commute with the updates commute with every call. -/

def ConstraintState.map {U V : Type} (f g : U → V) (s : ConstraintState U) : ConstraintState V where
  constraints := s.constraints
  cheatConstraints := s.cheatConstraints
  ufmanager := f s.ufmanager
  ufmanagerCheat := g s.ufmanagerCheat

/-- A map that commutes with each step of a loop commutes with the loop. -/
theorem foldlM_map {ε α S T : Type} {f : S → T} {g : S → α → Except ε S} {h : T → α → Except ε T}
    (hgh : ∀ s a, h (f s) a = (g s a).map f) (as : List α) (s : S) :
    as.foldlM h (f s) = (as.foldlM g s).map f := by
  induction as generalizing s with
  | nil => rfl
  | cons a as ih =>
    rw [List.foldlM_cons, List.foldlM_cons, hgh]
    cases g s a with
    | error err => rfl
    | ok s' => exact ih s'

namespace ConstraintManager

section Natural

variable {U V : Type} {updU : List KleeArray → Expr → U → U} {updV : List KleeArray → Expr → V → V}
  {f g : U → V}

theorem rewriteStep_map {addU : Expr → ConstraintState U → Except Abort (ConstraintState U)}
    {addV : Expr → ConstraintState V → Except Abort (ConstraintState V)}
    (hadd : ∀ e s, addV e (s.map f g) = (addU e s).map (·.map f g)) (src dst : Expr)
    (s : ConstraintState U) (c : Expr) :
    rewriteStep addV src dst (s.map f g) c = (rewriteStep addU src dst s c).map (·.map f g) := by
  unfold rewriteStep
  cases ExprReplaceVisitor.visit src dst c with
  | error a => rfl
  | ok e =>
    simp only [bind, Except.bind]
    split_ifs
    · rfl
    · exact hadd e s

theorem rewriteConstraints_map {addU : Expr → ConstraintState U → Except Abort (ConstraintState U)}
    {addV : Expr → ConstraintState V → Except Abort (ConstraintState V)}
    (hadd : ∀ e s, addV e (s.map f g) = (addU e s).map (·.map f g)) (src dst : Expr)
    (s : ConstraintState U) :
    rewriteConstraints addV src dst (s.map f g) =
      (rewriteConstraints addU src dst s).map (·.map f g) := by
  exact foldlM_map (rewriteStep_map hadd src dst) s.constraints { s with constraints := [] }

variable (hf : ∀ as e u, f (updU as e u) = updV as e (f u))
  (hg : ∀ as e u, g (updU as e u) = updV as e (g u))

include hf hg

theorem push_map (e : Expr) (symNames : Option (List KleeArray)) (cheat : Bool)
    (s : ConstraintState U) :
    push updV e symNames cheat (s.map f g) = (push updU e symNames cheat s).map f g := by
  cases cheat <;> simp [push, ConstraintState.map, hf, hg]

theorem addConstraintInternal_map (n : ℕ) (e : Expr) (symNames : Option (List KleeArray))
    (cheat : Bool) (s : ConstraintState U) :
    addConstraintInternal updV n e symNames cheat (s.map f g) =
      (addConstraintInternal updU n e symNames cheat s).map (·.map f g) := by
  induction n generalizing e symNames cheat s with
  | zero => rfl
  | succ n ih =>
    unfold addConstraintInternal
    split
    · split_ifs <;> rfl
    · rw [ih]
      cases addConstraintInternal updU n _ none cheat s with
      | error a => rfl
      | ok s' => exact ih _ none cheat s'
    next l r =>
      split_ifs
      · rw [rewriteConstraints_map (fun e s => ih e none false s)]
        cases rewriteConstraints (fun e => addConstraintInternal updU n e none false) r l s with
        | error a => rfl
        | ok s' => exact congrArg Except.ok (push_map hf hg _ symNames cheat s')
      · exact congrArg Except.ok (push_map hf hg _ symNames cheat s)
    · exact congrArg Except.ok (push_map hf hg _ symNames cheat s)

end Natural

/-- The updates of a union-find store in order: the arrays and the constraint. -/
abbrev UFLog := List (List KleeArray × Expr)

def logUpdate (as : List KleeArray) (e : Expr) (log : UFLog) : UFLog := log ++ [(as, e)]

def replay {U : Type} (upd : List KleeArray → Expr → U → U) (log : UFLog) (u : U) : U :=
  log.foldl (fun u p => upd p.1 p.2 u) u

theorem replay_logUpdate {U : Type} (upd : List KleeArray → Expr → U → U) (as : List KleeArray)
    (e : Expr) (log : UFLog) (u : U) :
    replay upd (logUpdate as e log) u = upd as e (replay upd log u) := by
  simp [replay, logUpdate]

/-- The state with its stores replaced by empty logs. -/
def logged {U : Type} (s : ConstraintState U) : ConstraintState UFLog := s.map (fun _ => []) fun _ => []

/-- The logs of `t` played back on the stores of `s`. -/
def replayed {U : Type} (upd : List KleeArray → Expr → U → U) (s : ConstraintState U)
    (t : ConstraintState UFLog) : ConstraintState U :=
  t.map (replay upd · s.ufmanager) (replay upd · s.ufmanagerCheat)

/-- A call on any store is the logged call, played back. -/
theorem addConstraintInternal_replay {U : Type} (upd : List KleeArray → Expr → U → U) (n : ℕ)
    (e : Expr) (symNames : Option (List KleeArray)) (cheat : Bool) (s : ConstraintState U) :
    addConstraintInternal upd n e symNames cheat s =
      (addConstraintInternal logUpdate n e symNames cheat (logged s)).map (replayed upd s) :=
  addConstraintInternal_map (f := (replay upd · s.ufmanager)) (g := (replay upd · s.ufmanagerCheat))
    (fun as e log => replay_logUpdate upd as e log _)
    (fun as e log => replay_logUpdate upd as e log _) n e symNames cheat (logged s)

theorem addConstraint_replay {U : Type} (upd : List KleeArray → Expr → U → U) (e : Expr)
    (s : ConstraintState U) :
    addConstraint upd e s = (addConstraint logUpdate e (logged s)).map (replayed upd s) :=
  addConstraintInternal_replay upd _ e none false s

end ConstraintManager

end TaseVerifier
