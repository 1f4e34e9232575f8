import TaseVerifier.Solver.Independent

/-! The two views of the path condition: the vector of the manager, which `clear`
empties, and the union-find store, from which `getDepCons` reads. The store keeps
all that was ever added, and the executor makes an expression constant when it has
one value under that. -/

namespace TaseVerifier

open UFManager

namespace Executor

/-- `getDepCons`; `cheat` selects the second store. Paths are compressed on the way. -/
def getDepCons (e : Expr) (cheat : Bool) (s : PathState) : List Expr × PathState :=
  if cheat then
    let (cons, m) := s.cons.ufmanagerCheat.getDepCons e
    (cons, { s with cons := { s.cons with ufmanagerCheat := m } })
  else
    let (cons, m) := s.cons.ufmanager.getDepCons e
    (cons, { s with cons := { s.cons with ufmanager := m } })

/-- `toUnique` over a state with the constraints `cs`. -/
def toUnique (solver : Solver) (cs : List Expr) (e : Expr) : Expr :=
  if e.isConstant then e
  else match solver.getValue cs e with
    | none => e
    | some value =>
      match solver.mustBeTrue cs (EqExpr.create e (.constant value)) with
      | some true => .constant value
      | _ => e

def toUniquePreCalc (solver : Solver) (e : Expr) (cheat : Bool) (s : PathState) : Expr × PathState :=
  let (cons, s) := getDepCons e cheat s
  (toUnique solver cons e, s)

end Executor

/-- Compressing the paths of the store keeps the invariant. -/
theorem PathState.Inv.compressed {s : PathState} {es stored : List Expr} {joins : List (ℕ × ℕ)}
    {stores : List (ℕ × Expr)} (h : PathState.Inv s es stored joins stores) {m : UFManager}
    (hc : Compressed s.cons.ufmanager m) :
    PathState.Inv { s with cons := { s.cons with ufmanager := m } } es stored joins stores :=
  { h with
    store := h.store.compressed hc
    arrays := fun a ha => lt_of_lt_of_eq (h.arrays a ha) hc.size.symm }

namespace Executor

section Views

variable {s : PathState} {es stored : List Expr} {joins : List (ℕ × ℕ)} {stores : List (ℕ × Expr)}

/-- The slice holds the constraints of the classes of `e`, in the state before. -/
theorem getDepCons_slice (h : PathState.Inv s es stored joins stores) (e : Expr) :
    IsSlice s.cons.ufmanager stored e (getDepCons e false s).1 :=
  (h.store.getDepCons e).2

theorem inv_getDepCons (h : PathState.Inv s es stored joins stores) (e : Expr) :
    PathState.Inv (getDepCons e false s).2 es stored joins stores :=
  h.compressed (h.store.getDepCons e).1

theorem canBe_getDepCons (h : PathState.Inv s es stored joins stores) (hsat : Satisfiable es)
    (e : Expr) (v : APInt) : CanBe (getDepCons e false s).1 e v ↔ CanBe es e v :=
  h.canBe_slice (getDepCons_slice h e) hsat v

theorem satisfiable_getDepCons (h : PathState.Inv s es stored joins stores)
    (hsat : Satisfiable es) (e : Expr) : Satisfiable (getDepCons e false s).1 :=
  h.satisfiable_slice (getDepCons_slice h e) hsat

end Views

theorem holds_create_eq {e : Expr} (he : e.wellTyped = true) {σ : Assignment} {v : APInt}
    (hw : v.width = e.getWidth) :
    Holds σ (EqExpr.create e (.constant v)) ↔ e.eval σ = v := by
  have hb : (Expr.binary .Eq e (.constant v)).wellTyped = true :=
    Expr.wellTyped_binary he rfl hw.symm rfl
  rw [Holds, (EqExpr.create_agrees hb).eval]
  exact holds_eq hb

/-- An ideal solver makes `e` constant exactly when it has one value, and that is the
value it becomes. -/
theorem toUnique_spec {solver : Solver} (hideal : solver.Ideal) {cs : List Expr}
    (hsat : Satisfiable cs) {e : Expr} (he : e.wellTyped = true) :
    ((toUnique solver cs e).isConstant = true ↔ ∃ v, ∀ σ, Satisfies σ cs → e.eval σ = v) ∧
      ∀ σ, Satisfies σ cs → (toUnique solver cs e).eval σ = e.eval σ := by
  unfold toUnique
  split_ifs with hc
  · refine ⟨iff_of_true hc ?_, fun σ _ => rfl⟩
    cases e with
    | constant c => exact ⟨c, fun σ _ => rfl⟩
    | _ => cases hc
  · obtain ⟨v, hv, τ, hτ, hτv⟩ := hideal.getValue cs e hsat
    have hw : v.width = e.getWidth := hτv ▸ e.width_eval τ he
    obtain ⟨b, hb, hbt⟩ := hideal.mustBeTrue cs (EqExpr.create e (.constant v)) hsat
    rw [hv]
    simp only [hb]
    have hall : b = true ↔ ∀ σ, Satisfies σ cs → e.eval σ = v :=
      hbt.trans (forall₂_congr fun σ _ => holds_create_eq he hw)
    cases b with
    | true =>
      have hone := hall.mp rfl
      exact ⟨iff_of_true rfl ⟨v, hone⟩, fun σ hσ => (hone σ hσ).symm⟩
    | false =>
      refine ⟨iff_of_false hc fun ⟨w, hone⟩ => ?_, fun σ _ => rfl⟩
      have hvw : v = w := hτv.symm.trans (hone τ hτ)
      exact Bool.false_ne_true (hall.mpr fun σ hσ => (hone σ hσ).trans hvw.symm)

/-- The values of `e` under its slice are the values under all that was ever added, by
runs whose joins meet the condition of the store; without a `clear` that is what the
vector says too. `toUniquePreCalc` returns a constant exactly when there is one value. -/
theorem toUniquePreCalc_path (solver : Solver) (hideal : solver.Ideal) (calls : List PathState.Call)
    (s : PathState) (hwf : PathState.Along PathState.WellFormed PathState.init calls)
    (hok : PathState.Along PathState.JoinsOk PathState.init calls)
    (hrun : PathState.init.run calls = .ok s) (hsat : Satisfiable (PathState.added calls))
    (e : Expr) (he : e.wellTyped = true) :
    (∀ v, CanBe (getDepCons e false s).1 e v ↔ CanBe (PathState.added calls) e v) ∧
    (.clear ∉ calls → ∀ v, CanBe (getDepCons e false s).1 e v ↔ CanBe s.cons.constraints e v) ∧
    ((toUniquePreCalc solver e false s).1.isConstant = true ↔
      ∃ v, ∀ σ, Satisfies σ (PathState.added calls) → e.eval σ = v) := by
  obtain ⟨stored, joins, stores, hinv⟩ := PathState.inv_run PathState.inv_init hwf hok hrun
  have hvals : ∀ v, CanBe (getDepCons e false s).1 e v ↔ CanBe (PathState.added calls) e v :=
    canBe_getDepCons hinv hsat e
  refine ⟨hvals, fun hnc v => ?_, ?_⟩
  · have hV := PathState.satisfies_run hnc PathState.inv_init (by simp [PathState.init]) hwf hok hrun
    refine (hvals v).trans ?_
    exact ⟨CanBe.mono fun σ => (hV σ).mpr, CanBe.mono fun σ => (hV σ).mp⟩
  · have hspec := toUnique_spec hideal (satisfiable_getDepCons hinv hsat e) he
    refine hspec.1.trans (exists_congr fun w => ?_)
    exact forall_of_canBe_iff hvals fun v => v = w

/-- Two arrays in one class, with the constraint kept at the first. -/
theorem toUniquePreCalc_path_second :
    let a : KleeArray := ⟨"a", 1, 0, []⟩
    let b : KleeArray := ⟨"b", 1, 1, []⟩
    let byte := fun x : KleeArray => Expr.read (.root x) (.alloc 0 32)
    let less := Expr.binary .Ult (byte a) (byte b)
    let calls := [PathState.Call.createArray "a" 1 [], .createArray "b" 1 [], .addConstraint less]
    ∃ s, PathState.init.run calls = .ok s ∧
      ((toUniquePreCalc idealSolver (byte b) false s).1.isConstant = true ↔
        ∃ v, ∀ σ, Satisfies σ [less] → (byte b).eval σ = v) := by
  intro a b byte less calls
  let uf : UFManager := ⟨[⟨0, a, 0, [less]⟩, ⟨0, b, 0, []⟩]⟩
  let uf' : UFManager := ⟨[⟨0, a, 0, []⟩, ⟨1, b, 0, []⟩]⟩
  have hless : Satisfies (fun x _ => if x = b then 1#8 else 0#8) [less] := by decide
  have hrun : PathState.init.run calls = .ok ⟨[a, b], ⟨[less], [], uf, uf'⟩⟩ := rfl
  exact ⟨_, hrun, (toUniquePreCalc_path idealSolver idealSolver_ideal calls _ (by decide)
    (by decide) hrun ⟨_, hless⟩ (byte b) rfl).2.2⟩

/-- After `a = 5` and a `clear`, the slice still says `a = 5` and the vector nothing. -/
theorem getDepCons_keeps_cleared :
    let a : KleeArray := ⟨"a", 1, 0, []⟩
    let byte := Expr.read (.root a) (.alloc 0 32)
    let calls := [PathState.Call.createArray "a" 1 [], .addConstraint (.binary .Eq (.alloc 5 8) byte),
      .clear]
    ∃ s, PathState.init.run calls = .ok s ∧ CanBe s.cons.constraints byte (APInt.ofNat 8 6) ∧
      ¬ CanBe (getDepCons byte false s).1 byte (APInt.ofNat 8 6) := by
  intro a byte calls
  let five := Expr.binary .Eq (.alloc 5 8) byte
  let uf : UFManager := ⟨[⟨0, a, 0, [five]⟩]⟩
  let uf' : UFManager := ⟨[⟨0, a, 0, []⟩]⟩
  have hrun : PathState.init.run calls = .ok ⟨[a], ⟨[], [], uf, uf'⟩⟩ := rfl
  refine ⟨_, hrun, ⟨fun _ _ => 6#8, satisfies_nil _, rfl⟩, ?_⟩
  rintro ⟨σ, hσ, hv⟩
  have hslice : (getDepCons byte false ⟨[a], ⟨[], [], uf, uf'⟩⟩).1 = [five] := rfl
  rw [hslice] at hσ
  have heq : Expr.eval σ (.alloc 5 8) = byte.eval σ :=
    (holds_eq rfl).mp (hσ five (by simp))
  rw [hv, Expr.eval_alloc] at heq
  exact absurd heq (by decide)

end Executor

end TaseVerifier
