import Mathlib.Data.List.Nodup
import TaseVerifier.Expr.Eval

/-! The solver below the executor, as an interface and as an ideal: an ideal solver
answers every query about satisfiable constraints, and answers it correctly. -/

namespace TaseVerifier

/-- `klee::Solver::Validity`. -/
inductive Validity where
  | True | False | Unknown
  deriving DecidableEq

/-- The queries used here; `none` is a query that failed. -/
structure Solver where
  computeValidity : List Expr → Expr → Option Validity
  mustBeTrue : List Expr → Expr → Option Bool
  getValue : List Expr → Expr → Option APInt
  getInitialValues : List Expr → List KleeArray → Option (List (List (BitVec 8)))

def Satisfiable (cs : List Expr) : Prop := ∃ σ, Satisfies σ cs

/-- `e` can have the value `v` under the constraints. -/
def CanBe (cs : List Expr) (e : Expr) (v : APInt) : Prop := ∃ σ, Satisfies σ cs ∧ e.eval σ = v

open Classical in
/-- The validity of a boolean expression under the constraints. -/
noncomputable def validity (cs : List Expr) (e : Expr) : Validity :=
  if ∀ σ, Satisfies σ cs → Holds σ e then .True
  else if ∀ σ, Satisfies σ cs → ¬ Holds σ e then .False
  else .Unknown

/-- Correct answers to all queries about constraints that can be met. Initial values
are found for every such query and for no other. -/
structure Solver.Ideal (s : Solver) : Prop where
  computeValidity : ∀ cs e, Satisfiable cs → s.computeValidity cs e = some (validity cs e)
  mustBeTrue : ∀ cs e, Satisfiable cs →
    ∃ b, s.mustBeTrue cs e = some b ∧ (b = true ↔ ∀ σ, Satisfies σ cs → Holds σ e)
  getValue : ∀ cs e, Satisfiable cs → ∃ v, s.getValue cs e = some v ∧ CanBe cs e v
  getInitialValues : ∀ cs objects, (s.getInitialValues cs objects).isSome = true ↔ Satisfiable cs

/-- An exact `getNPossibleValues`: it returns values the expression can have, each once, and
all of them unless it stopped at the limit. -/
structure ExactValues (values : List Expr → Expr → ℕ → List APInt) : Prop where
  width : ∀ cs e n, ∀ v ∈ values cs e n, v.width = e.getWidth
  nodup : ∀ cs e n, (values cs e n).Nodup
  possible : ∀ cs e n, Satisfiable cs → ∀ v ∈ values cs e n, CanBe cs e v
  all : ∀ cs e n, Satisfiable cs → e.wellTyped = true → (values cs e n).length < n →
    ∀ v, CanBe cs e v → v ∈ values cs e n

open Classical in
/-- The solver that decides each query by its meaning. -/
noncomputable def idealSolver : Solver where
  computeValidity cs e := some (validity cs e)
  mustBeTrue cs e := some (decide (∀ σ, Satisfies σ cs → Holds σ e))
  getValue cs e := if h : Satisfiable cs then some (e.eval h.choose) else none
  getInitialValues cs objects :=
    if h : Satisfiable cs then
      some (objects.map fun a => (List.range a.size).map (h.choose a))
    else none

theorem idealSolver_ideal : idealSolver.Ideal where
  computeValidity _ _ _ := rfl
  mustBeTrue cs e _ := ⟨_, rfl, by simp⟩
  getValue cs e h := ⟨e.eval h.choose, by simp [idealSolver, h], h.choose, h.choose_spec, rfl⟩
  getInitialValues cs objects := by
    by_cases h : Satisfiable cs <;> simp [idealSolver, h]

open Classical in
/-- The possible values among all values of the width. -/
noncomputable def idealValues (cs : List Expr) (e : Expr) (n : ℕ) : List APInt :=
  (((List.range (2 ^ e.getWidth)).map (APInt.ofNat e.getWidth)).filter (CanBe cs e ·)).take n

theorem idealValues_exact : ExactValues idealValues where
  width cs e n v hv := by
    obtain ⟨hv, -⟩ := List.mem_filter.mp (List.mem_of_mem_take hv)
    obtain ⟨i, -, rfl⟩ := List.mem_map.mp hv
    rfl
  nodup cs e n := by
    have hinj : ∀ i ∈ List.range (2 ^ e.getWidth), ∀ j ∈ List.range (2 ^ e.getWidth),
        APInt.ofNat e.getWidth i = APInt.ofNat e.getWidth j → i = j := by
      intro i hi j hj hij
      have hnat := congrArg APInt.toNat hij
      rwa [APInt.toNat_ofNat, APInt.toNat_ofNat, Nat.mod_eq_of_lt (List.mem_range.mp hi),
        Nat.mod_eq_of_lt (List.mem_range.mp hj)] at hnat
    exact ((List.Nodup.map_on hinj List.nodup_range).filter _).sublist (List.take_sublist _ _)
  possible cs e n _ v hv := by
    simpa using (List.mem_filter.mp (List.mem_of_mem_take hv)).2
  all cs e n _ he hn v hv := by
    obtain ⟨σ, hσ, hσv⟩ := hv
    have hw : v.width = e.getWidth := hσv ▸ e.width_eval σ he
    have hlt : v.toNat < 2 ^ e.getWidth := hw ▸ v.toNat_lt
    unfold idealValues at hn ⊢
    rw [List.length_take] at hn
    rw [List.take_of_length_le (by omega)]
    refine List.mem_filter.mpr ⟨List.mem_map.mpr ⟨v.toNat, List.mem_range.mpr hlt, ?_⟩,
      by simpa using ⟨σ, hσ, hσv⟩⟩
    exact APInt.ext_toNat hw.symm (by rw [APInt.toNat_ofNat, Nat.mod_eq_of_lt hlt])

theorem CanBe.mono {cs ds : List Expr} (h : ∀ σ, Satisfies σ cs → Satisfies σ ds) {e : Expr}
    {v : APInt} : CanBe cs e v → CanBe ds e v
  | ⟨σ, hσ, hv⟩ => ⟨σ, h σ hσ, hv⟩

/-- A fact about the value of `e` is decided by the values `e` can have. -/
theorem forall_of_canBe_iff {cs ds : List Expr} {e : Expr}
    (h : ∀ v, CanBe cs e v ↔ CanBe ds e v) (P : APInt → Prop) :
    (∀ σ, Satisfies σ cs → P (e.eval σ)) ↔ ∀ σ, Satisfies σ ds → P (e.eval σ) := by
  constructor
  · intro hcs σ hσ
    obtain ⟨τ, hτ, hv⟩ := (h (e.eval σ)).mpr ⟨σ, hσ, rfl⟩
    exact hv ▸ hcs τ hτ
  · intro hds σ hσ
    obtain ⟨τ, hτ, hv⟩ := (h (e.eval σ)).mp ⟨σ, hσ, rfl⟩
    exact hv ▸ hds τ hτ

/-- What each validity says. -/
theorem validity_spec (cs : List Expr) (e : Expr) :
    match validity cs e with
    | .True => ∀ σ, Satisfies σ cs → Holds σ e
    | .False => ∀ σ, Satisfies σ cs → ¬ Holds σ e
    | .Unknown => (∃ σ, Satisfies σ cs ∧ Holds σ e) ∧ ∃ σ, Satisfies σ cs ∧ ¬ Holds σ e := by
  unfold validity
  split_ifs with hT hF
  · exact hT
  · exact hF
  · push Not at hT hF
    exact ⟨hF, hT⟩

theorem validity_eq_unknown {cs : List Expr} {e : Expr} {σ τ : Assignment} (hσ : Satisfies σ cs)
    (hσe : Holds σ e) (hτ : Satisfies τ cs) (hτe : ¬ Holds τ e) : validity cs e = .Unknown := by
  rw [validity, if_neg fun h => hτe (h τ hτ), if_neg fun h => h σ hσ hσe]

theorem validity_eq_false {cs : List Expr} {e : Expr} (hsat : Satisfiable cs)
    (h : ∀ σ, Satisfies σ cs → ¬ Holds σ e) : validity cs e = .False := by
  obtain ⟨σ, hσ⟩ := hsat
  rw [validity, if_neg fun h' => h σ hσ (h' σ hσ), if_pos h]

/-- Constraints that give `e` the same values give it the same validity. -/
theorem validity_congr {cs ds : List Expr} {e : Expr} (h : ∀ v, CanBe cs e v ↔ CanBe ds e v) :
    validity cs e = validity ds e := by
  have hT := forall_of_canBe_iff h fun v => v.isTrue = true
  have hF := forall_of_canBe_iff h fun v => ¬ v.isTrue = true
  classical
  exact if_congr hT rfl (if_congr hF rfl rfl)

end TaseVerifier
