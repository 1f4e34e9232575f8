import TaseVerifier.EditDistance.FullUKK
import TaseVerifier.EditDistance.StaticUKK
import TaseVerifier.EditDistance.DynamicUKK

/-! The three implementations over diagonals against the one over rows. -/

namespace TaseVerifier

open Library

namespace EditDistance

variable {α : Type} [DecidableEq α]

/-- Each run ends without a fault and with the value that `EditDistanceRow` returns. -/
structure Agree (fuel : ℕ) (s t : List α) (v : ℤ) : Prop where
  row : row s t = some v
  full : fullUKK fuel s t = some v
  static : staticUKK fuel s t = some v
  dynamic : dynamicUKK fuel s t = some v

/-- They agree exactly when the size `m_*4` that `EditDistanceFullUKK` computes fits `int`;
no search takes more rounds than the distance and one more. -/
theorem agree_iff {s t : List α} {fuel : ℕ} (hfuel : levenshtein s t < fuel) :
    (∃ v, Agree fuel s t v) ↔ (max s.length t.length + 1) * 4 ≤ 2147483647 := by
  constructor
  · rintro ⟨v, h⟩
    have hfull := h.full
    rw [fullUKK_eq hfuel] at hfull
    split_ifs at hfull with hm
    exact hm
  · intro hm
    refine ⟨levenshtein s t, ?_, ?_, ?_, ?_⟩
    · rw [row_eq, if_pos (by omega)]
    · rw [fullUKK_eq hfuel, if_pos hm]
    · exact staticUKK_eq (by omega) hfuel
    · exact dynamicUKK_eq (by omega) hfuel

theorem agree_iff_three :
    (∃ v, Agree 3 [1, 2, 3] [2, 3, 4] v) ↔
      (max [1, 2, 3].length [2, 3, 4].length + 1) * 4 ≤ 2147483647 :=
  agree_iff (by decide)

/-- For two equal sequences of `2^29 - 1` elements `EditDistanceRow` returns 0, but `m_*4`
overflows. -/
theorem not_agree :
    row (List.replicate 536870911 'a') (List.replicate 536870911 'a') = some 0 ∧
      ¬ ∃ v, Agree 1 (List.replicate 536870911 'a') (List.replicate 536870911 'a') v := by
  have hlev := levenshtein_self (List.replicate 536870911 'a')
  constructor
  · rw [row_eq, List.length_replicate, if_pos (by decide), hlev]
    rfl
  · rintro ⟨v, h⟩
    have hfull := h.full
    rw [fullUKK_eq (by omega), List.length_replicate, if_neg (by decide)] at hfull
    exact absurd hfull.symm (Option.some_ne_none v)

end EditDistance

end TaseVerifier
