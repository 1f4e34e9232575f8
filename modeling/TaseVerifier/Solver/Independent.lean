import TaseVerifier.Constraints.PathState
import TaseVerifier.Solver.Ideal

/-! The independent solver asks the solver below it about a slice of the constraints
only. The slice is read from the elements of the query's arrays in the union-find
store, so it is complete when the representatives are among these elements. -/

namespace TaseVerifier

open UFManager

namespace IndependentSolver

/-- `computeValidity` with `useUF` set: the constraints of the query are not looked at. -/
def computeValidity (solver : Solver) (e : Expr) (m : UFManager) : Option Validity :=
  solver.computeValidity (m.required e) e

end IndependentSolver

/-- The arrays that a chain of constraints sharing arrays leads to from `e`. -/
inductive Reaches (cs : List Expr) (e : Expr) : KleeArray → Prop
  | query {a : KleeArray} : a ∈ e.symbolicRoots → Reaches cs e a
  | link {a b : KleeArray} {c : Expr} : Reaches cs e a → c ∈ cs → a ∈ c.symbolicRoots →
      b ∈ c.symbolicRoots → Reaches cs e b

/-- `c` is linked to `e` by a chain of constraints sharing arrays. -/
def Linked (cs : List Expr) (e c : Expr) : Prop := ∃ a ∈ c.symbolicRoots, Reaches cs e a

namespace PathState

section Query

variable {s : PathState} {es stored : List Expr} {joins : List (ℕ × ℕ)} {stores : List (ℕ × Expr)}
  {e : Expr}

theorem Inv.find_of_reaches (h : Inv s es stored joins stores) {a : KleeArray}
    (ha : Reaches s.cons.constraints e a) :
    ∃ b ∈ e.symbolicRoots,
      (s.cons.ufmanager.find a.ufe).1 = (s.cons.ufmanager.find b.ufe).1 := by
  induction ha with
  | query ha => exact ⟨_, ha, rfl⟩
  | link _ hc ha hb ih =>
    obtain ⟨b, hbe, hfind⟩ := ih
    refine ⟨b, hbe, Eq.trans ?_ hfind⟩
    exact (h.store.classes.find_eq _ _).mpr (h.store.linked _ (h.vector _ hc) _ hb _ ha)

/-- The slice holds every linked constraint of the vector. -/
theorem Inv.mem_slice (h : Inv s es stored joins stores) {slice : List Expr}
    (hslice : IsSlice s.cons.ufmanager stored e slice) {c : Expr} (hc : c ∈ s.cons.constraints)
    (hl : Linked s.cons.constraints e c) : c ∈ slice := by
  obtain ⟨a, ha, hr⟩ := hl
  obtain ⟨b, hb, hfind⟩ := h.find_of_reaches hr
  exact (hslice c).mpr ⟨h.vector c hc, a, ha, b, hb, hfind⟩

/-- The values under the slice are the values under all that was added. -/
theorem Inv.canBe_slice (h : Inv s es stored joins stores) {slice : List Expr}
    (hslice : IsSlice s.cons.ufmanager stored e slice) (hsat : Satisfiable es) (v : APInt) :
    CanBe slice e v ↔ CanBe es e v := by
  have hstored : ∃ τ, Satisfies τ stored := by
    obtain ⟨τ, hτ⟩ := hsat
    exact ⟨τ, (h.meaning τ).mpr hτ⟩
  refine (h.store.slice_values hslice hstored v).trans ?_
  exact ⟨CanBe.mono fun σ => (h.meaning σ).mp, CanBe.mono fun σ => (h.meaning σ).mpr⟩

theorem Inv.satisfiable_slice (h : Inv s es stored joins stores) {slice : List Expr}
    (hslice : IsSlice s.cons.ufmanager stored e slice) (hsat : Satisfiable es) :
    Satisfiable slice := by
  obtain ⟨τ, hτ⟩ := hsat
  exact ⟨τ, fun c hc => (h.meaning τ).mpr hτ c ((hslice c).mp hc).1⟩

end Query

/-- Slicing is sound after every run that makes arrays and adds constraints, when each
join met the condition of the store and the representatives are read: all linked
constraints are required, and the validity is the one under all constraints. -/
theorem computeValidity_slice (solver : Solver) (hideal : solver.Ideal) (calls : List Call)
    (s : PathState) (hnc : .clear ∉ calls) (hwf : Along WellFormed init calls)
    (hrun : init.run calls = .ok s) (hok : Along JoinsOk init calls) (e : Expr)
    (hreps : RepsRead s.cons.ufmanager e) :
    (∀ c ∈ s.cons.constraints, Linked s.cons.constraints e c →
      c ∈ s.cons.ufmanager.required e) ∧
    (Satisfiable s.cons.constraints →
      IndependentSolver.computeValidity solver e s.cons.ufmanager =
        some (validity s.cons.constraints e)) := by
  obtain ⟨stored, joins, stores, hinv⟩ := inv_run inv_init hwf hok hrun
  have hV := satisfies_run hnc inv_init (by simp [init]) hwf hok hrun
  have hslice := hinv.store.required hreps
  refine ⟨fun c hc hl => hinv.mem_slice hslice hc hl, fun hsat => ?_⟩
  have hes : Satisfiable ([] ++ added calls) := by
    obtain ⟨τ, hτ⟩ := hsat
    exact ⟨τ, (hV τ).mp hτ⟩
  rw [IndependentSolver.computeValidity,
    hideal.computeValidity _ _ (hinv.satisfiable_slice hslice hes)]
  refine congrArg some (validity_congr fun v => ?_)
  refine (hinv.canBe_slice hslice hes v).trans ?_
  exact ⟨CanBe.mono fun σ => (hV σ).mpr, CanBe.mono fun σ => (hV σ).mp⟩

/-- The element of `a` represents both arrays, so a query about `a` is answered under
the constraint. -/
theorem computeValidity_slice_first :
    let a : KleeArray := ⟨"a", 1, 0, []⟩
    let b : KleeArray := ⟨"b", 1, 1, []⟩
    let byte := fun x : KleeArray => Expr.read (.root x) (.alloc 0 32)
    let less := Expr.binary .Ult (byte a) (byte b)
    let query := Expr.binary .Eq (.alloc 255 8) (byte a)
    let calls := [Call.createArray "a" 1 [], .createArray "b" 1 [], .addConstraint less]
    ∃ s, init.run calls = .ok s ∧ less ∈ s.cons.ufmanager.required query ∧
      IndependentSolver.computeValidity idealSolver query s.cons.ufmanager =
        some (validity s.cons.constraints query) := by
  intro a b byte less query calls
  let uf : UFManager := ⟨[⟨0, a, 0, [less]⟩, ⟨0, b, 0, []⟩]⟩
  let uf' : UFManager := ⟨[⟨0, a, 0, []⟩, ⟨1, b, 0, []⟩]⟩
  have hless : Satisfies (fun x _ => if x = b then 1#8 else 0#8) [less] := by decide
  have hrun : init.run calls = .ok ⟨[a, b], ⟨[less], [], uf, uf'⟩⟩ := rfl
  obtain ⟨hreq, hval⟩ := computeValidity_slice idealSolver idealSolver_ideal calls _ (by decide)
    (by decide) hrun (by decide) query (by decide)
  exact ⟨_, hrun, hreq less (by simp) ⟨a, by decide, .query (by decide)⟩,
    hval ⟨_, hless⟩⟩

/-- After `a < b` the element of `b` is no representative, and a query about `b` alone
is answered without the constraint. -/
theorem computeValidity_misses_constraint :
    let a : KleeArray := ⟨"a", 1, 0, []⟩
    let b : KleeArray := ⟨"b", 1, 1, []⟩
    let byte := fun x : KleeArray => Expr.read (.root x) (.alloc 0 32)
    let less := Expr.binary .Ult (byte a) (byte b)
    let query := Expr.binary .Eq (.alloc 0 8) (byte b)
    let calls := [Call.createArray "a" 1 [], .createArray "b" 1 [], .addConstraint less]
    ∃ s, init.run calls = .ok s ∧ Along WellFormed init calls ∧ Satisfiable s.cons.constraints ∧
      less ∈ s.cons.constraints ∧ Linked s.cons.constraints query less ∧
      less ∉ s.cons.ufmanager.required query ∧
      IndependentSolver.computeValidity idealSolver query s.cons.ufmanager = some .Unknown ∧
      validity s.cons.constraints query = .False := by
  intro a b byte less query calls
  let uf : UFManager := ⟨[⟨0, a, 0, [less]⟩, ⟨0, b, 0, []⟩]⟩
  let uf' : UFManager := ⟨[⟨0, a, 0, []⟩, ⟨1, b, 0, []⟩]⟩
  have hless : Satisfies (fun x _ => if x = b then 1#8 else 0#8) [less] := by decide
  refine ⟨⟨[a, b], ⟨[less], [], uf, uf'⟩⟩, rfl, ?_, ⟨_, hless⟩, by simp, ?_, ?_, ?_,
    ?_⟩
  · decide
  · exact ⟨b, by decide, .query (by decide)⟩
  · decide
  · have hreq : uf.required query = [] := rfl
    have hyes : Holds (fun _ _ => 0#8) query := rfl
    have hno : ¬ Holds (fun _ _ => 1#8) query := by decide
    simp only [IndependentSolver.computeValidity, hreq]
    exact congrArg some (validity_eq_unknown (satisfies_nil _) hyes (satisfies_nil _) hno)
  · refine validity_eq_false ⟨_, hless⟩ fun σ hσ hq => ?_
    have hq' : Expr.eval σ (.alloc 0 8) = (byte b).eval σ := holds_eq rfl |>.mp hq
    have hl : Holds σ less := hσ less (by simp)
    have hbyte : (byte b).eval σ = ⟨8, 0#8⟩ := hq'.symm
    obtain ⟨x, hx⟩ := APInt.ofWidth (w := 8) _ ((byte a).width_eval σ rfl)
    rw [Holds, Expr.eval_binary, hbyte, hx] at hl
    simp [BinaryKind.apply, BitVec.ult] at hl

end PathState

end TaseVerifier
