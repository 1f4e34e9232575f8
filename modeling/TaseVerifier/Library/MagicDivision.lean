import Mathlib.Data.Int.DivMod
import Mathlib.Tactic.Linarith
import Mathlib.Tactic.Ring

/-! Quotients by a fixed divisor `d` as a multiplication and a shift. The multiplier is
`p / d + 1` for a power `p` large enough for the numerators. -/

namespace TaseVerifier.Library

variable {d p m e n : ℕ}

/-- The multiplier exceeds `p / d` by a positive part of at most one. -/
theorem exists_excess (hd : 0 < d) (p : ℕ) : ∃ e, (p / d + 1) * d = p + e ∧ 0 < e ∧ e ≤ d := by
  have hdiv := Nat.div_add_mod p d
  have hmod := Nat.mod_lt p hd
  refine ⟨d - p % d, ?_, by omega, by omega⟩
  rw [Nat.add_mul, Nat.mul_comm (p / d) d]
  omega

theorem quotient_mul_le (hm : m * d = p + e) (n : ℕ) : n / d * p * d + e * n ≤ n * m * d := by
  have hn : n / d * d ≤ n := Nat.div_mul_le_self n d
  calc n / d * p * d + e * n = p * (n / d * d) + e * n := by ring
    _ ≤ p * n + e * n := Nat.add_le_add_right (Nat.mul_le_mul_left _ hn) _
    _ = n * m * d := by rw [Nat.mul_assoc, hm]; ring

theorem le_quotient_mul (hm : m * d = p + e) (hd : 0 < d) (n : ℕ) :
    n * m * d + p ≤ (n / d + 1) * p * d + e * n := by
  have hn : n < (n / d + 1) * d := (Nat.div_lt_iff_lt_mul hd).mp (Nat.lt_succ_self _)
  calc n * m * d + p = p * (n + 1) + e * n := by rw [Nat.mul_assoc, hm]; ring
    _ ≤ p * ((n / d + 1) * d) + e * n := Nat.add_le_add_right (Nat.mul_le_mul_left _ hn) _
    _ = (n / d + 1) * p * d + e * n := by ring

theorem mul_div_eq_div (hm : m * d = p + e) (hd : 0 < d) (hn : e * n < p) :
    n * m / p = n / d := by
  have hlow := quotient_mul_le hm n
  have hhigh := le_quotient_mul hm hd n
  refine Nat.div_eq_of_lt_le ?_ ?_
  · exact Nat.le_of_mul_le_mul_right (by omega : n / d * p * d ≤ n * m * d) hd
  · exact Nat.lt_of_mul_lt_mul_right (by omega : n * m * d < (n / d + 1) * p * d)

/-- A negative numerator is rounded down, one below the quotient. -/
theorem neg_mul_ediv (hm : m * d = p + e) (hd : 0 < d) (hpos : 0 < e * n) (hn : e * n ≤ p) :
    (-(n * m : ℕ) : ℤ) / p = -(n / d : ℕ) - 1 := by
  have hlow := quotient_mul_le hm n
  have hhigh := le_quotient_mul hm hd n
  have hlt : n / d * p < n * m :=
    Nat.lt_of_mul_lt_mul_right (by omega : n / d * p * d < n * m * d)
  have hle : n * m ≤ (n / d + 1) * p :=
    Nat.le_of_mul_le_mul_right (by omega : n * m * d ≤ (n / d + 1) * p * d) hd
  have hp : (0 : ℤ) < p := by omega
  rw [Int.ediv_eq_iff_of_pos hp]
  push_cast
  zify at hlt hle
  constructor <;> linarith

/-- The quotient truncated towards zero of a numerator of either sign. -/
theorem mul_ediv_eq_tdiv (hm : m * d = p + e) (hd : 0 < d) (he : 0 < e) {n : ℤ}
    (hneg : e * n.natAbs ≤ p) (hnonneg : 0 ≤ n → e * n.natAbs < p) :
    n * m / p - (if n < 0 then -1 else 0) = n.tdiv d := by
  split_ifs with hn
  · have habs : n = -(n.natAbs : ℤ) := by omega
    have hpos : 0 < e * n.natAbs := Nat.mul_pos he (by omega)
    have hq := neg_mul_ediv hm hd hpos hneg
    generalize n.natAbs = k at habs hq
    subst habs
    rw [Nat.cast_mul] at hq
    rw [Int.neg_mul, hq, Int.neg_tdiv, Int.ofNat_tdiv]
    ring
  · have habs : n = (n.natAbs : ℤ) := by omega
    have hq := mul_div_eq_div hm hd (hnonneg (not_lt.mp hn))
    generalize n.natAbs = k at habs hq
    subst habs
    rw [sub_zero, ← Nat.cast_mul, ← Int.natCast_ediv, hq]
    rfl

/-- The sum before the last shift of a quotient, by halves that do not overflow. -/
theorem half_sub_add {n t : ℕ} (h : t ≤ n) : (n - t) / 2 + t = (n + t) / 2 := by
  omega

end TaseVerifier.Library
