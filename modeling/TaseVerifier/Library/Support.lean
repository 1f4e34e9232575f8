import Mathlib.Data.Set.BooleanAlgebra
import Mathlib.Data.Set.Piecewise
import Mathlib.Logic.Function.DependsOn
import Mathlib.Order.CompletePartialOrder
import Mathlib.Order.Disjoint

/-! Properties of assignments and the variables they read. Properties that read
disjoint sets of variables can be met together as soon as each can be met alone:
the two assignments are glued along the sets. -/

namespace TaseVerifier.Library

variable {ι β : Type*} {P Q : (ι → β) → Prop} {S T : Set ι}

open Classical in
theorem exists_and_of_disjoint (hP : DependsOn P S) (hQ : DependsOn Q T) (hd : Disjoint S T)
    {σ τ : ι → β} (hσ : P σ) (hτ : Q τ) : ∃ ρ, P ρ ∧ Q ρ := by
  refine ⟨S.piecewise σ τ, ?_, ?_⟩
  · rw [hP (y := σ) fun i hi => Set.piecewise_eq_of_mem _ _ _ hi]
    exact hσ
  · rw [hQ (y := τ) fun i hi => Set.piecewise_eq_of_notMem _ _ _ (Set.disjoint_right.mp hd hi)]
    exact hτ

end TaseVerifier.Library
