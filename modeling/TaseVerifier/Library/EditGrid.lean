import TaseVerifier.Library.Levenshtein
import Mathlib.Tactic.SplitIfs

/-! The grid of edit costs. `M i j` says that element `i` of one sequence is element `j`
of the other; a cell's cost is that of turning the first `i` elements into the first `j`.
A diagonal is the cells with one difference `i - j = k`. Costs never fall along it, so
the cells of cost at most `d` end at one row, the frontier, and the frontiers for `d + 1`
follow from those for `d`. -/

namespace TaseVerifier.Library

variable (M : ℕ → ℕ → Bool)

def gridCost : ℕ → ℕ → ℕ
  | 0, j => j
  | i + 1, 0 => i + 1
  | i + 1, j + 1 => min (gridCost i j + if M i j then 0 else 1)
      (min (gridCost (i + 1) j + 1) (gridCost i (j + 1) + 1))

@[simp] theorem gridCost_zero_left (j : ℕ) : gridCost M 0 j = j := by rw [gridCost]

@[simp] theorem gridCost_zero_right (i : ℕ) : gridCost M i 0 = i := by
  cases i <;> rw [gridCost]

theorem gridCost_succ_succ (i j : ℕ) :
    gridCost M (i + 1) (j + 1) = min (gridCost M i j + if M i j then 0 else 1)
      (min (gridCost M (i + 1) j + 1) (gridCost M i (j + 1) + 1)) := by rw [gridCost]

theorem gridCost_succ_left_le (i j : ℕ) : gridCost M (i + 1) j ≤ gridCost M i j + 1 := by
  cases j with
  | zero => simp
  | succ j =>
    rw [gridCost_succ_succ]
    omega

theorem gridCost_succ_right_le (i j : ℕ) : gridCost M i (j + 1) ≤ gridCost M i j + 1 := by
  cases i with
  | zero => simp
  | succ i =>
    rw [gridCost_succ_succ]
    omega

theorem gridCost_le_succ_left (i j : ℕ) : gridCost M i j ≤ gridCost M (i + 1) j + 1 := by
  induction j with
  | zero => simp only [gridCost_zero_right]; omega
  | succ j ih =>
    have h := gridCost_succ_right_le M i j
    rw [gridCost_succ_succ]
    omega

theorem gridCost_le_succ_right (i j : ℕ) : gridCost M i j ≤ gridCost M i (j + 1) + 1 := by
  induction i with
  | zero => simp only [gridCost_zero_left]; omega
  | succ i ih =>
    have h := gridCost_succ_left_le M i j
    rw [gridCost_succ_succ]
    omega

theorem gridCost_le_succ_succ (i j : ℕ) : gridCost M i j ≤ gridCost M (i + 1) (j + 1) := by
  have h₁ := gridCost_le_succ_left M i j
  have h₂ := gridCost_le_succ_right M i j
  rw [gridCost_succ_succ]
  omega

theorem gridCost_diagonal_mono (i j n : ℕ) : gridCost M i j ≤ gridCost M (i + n) (j + n) := by
  induction n with
  | zero => exact le_rfl
  | succ n ih => exact ih.trans (gridCost_le_succ_succ M (i + n) (j + n))

variable {M}

theorem gridCost_match {i j : ℕ} (h : M i j = true) :
    gridCost M (i + 1) (j + 1) = gridCost M i j := by
  have hd := gridCost_le_succ_succ M i j
  rw [gridCost_succ_succ, if_pos h] at *
  omega

variable (M)

theorem le_add_gridCost_left (i j : ℕ) : i ≤ j + gridCost M i j := by
  induction j with
  | zero => simp
  | succ j ih =>
    have h := gridCost_le_succ_right M i j
    omega

theorem le_add_gridCost_right (i j : ℕ) : j ≤ i + gridCost M i j := by
  induction i with
  | zero => simp
  | succ i ih =>
    have h := gridCost_le_succ_left M i j
    omega

theorem gridCost_le_max (i j : ℕ) : gridCost M i j ≤ max i j := by
  induction i generalizing j with
  | zero => simp
  | succ i ih =>
    cases j with
    | zero => simp
    | succ j =>
      have h := ih j
      have hs : (if M i j then 0 else 1) ≤ 1 := by split_ifs <;> omega
      rw [gridCost_succ_succ]
      omega

/-! ### The grid of two lists -/

section Lists
variable {α : Type*} [DecidableEq α]

/-- Both elements are there and equal. -/
def meets (xs ys : List α) (i j : ℕ) : Bool :=
  match xs[i]?, ys[j]? with
  | some x, some y => x = y
  | _, _ => false

theorem meets_get {xs ys : List α} {i j : ℕ} (hi : i < xs.length) (hj : j < ys.length) :
    meets xs ys i j = decide (xs[i] = ys[j]) := by
  rw [meets, List.getElem?_eq_getElem hi, List.getElem?_eq_getElem hj]

theorem meets_swap (xs ys : List α) (i j : ℕ) : meets ys xs j i = meets xs ys i j := by
  unfold meets
  cases xs[i]? <;> cases ys[j]? <;> simp [eq_comm]

theorem gridCost_take {xs ys : List α} {i j : ℕ} (hi : i ≤ xs.length) (hj : j ≤ ys.length) :
    gridCost (meets xs ys) i j = levenshtein (xs.take i) (ys.take j) := by
  induction i generalizing j with
  | zero => simp [hj]
  | succ i ihi =>
    induction j with
    | zero => simp [Nat.min_eq_left hi]
    | succ j ihj =>
      rw [gridCost_succ_succ, ihi (by omega) (by omega), ihi (by omega) hj, ihj (by omega),
        meets_get hi hj, List.take_add_one (i := i), List.take_add_one (i := j),
        List.getElem?_eq_getElem hi, List.getElem?_eq_getElem hj, Option.toList_some,
        Option.toList_some, levenshtein_concat_concat]
      simp only [decide_eq_true_eq]
      omega

theorem gridCost_length (xs ys : List α) :
    gridCost (meets xs ys) xs.length ys.length = levenshtein xs ys := by
  rw [gridCost_take le_rfl le_rfl, List.take_length, List.take_length]

end Lists

/-! ### Frontiers -/

/-- On diagonal `k` the cells of cost at most `d` are those up to row `u`. Where the
diagonal has no such cell, `u` lies before its first row. -/
def Frontier (k : ℤ) (d : ℕ) (u : ℤ) : Prop :=
  ∀ i j : ℕ, (i : ℤ) - j = k → ((i : ℤ) ≤ u ↔ gridCost M i j ≤ d)

/-- Row `u` of diagonal `k` has cost at most `d`, and where elements stop matching from
there on, the next cell costs more. -/
structure Launch (k : ℤ) (d : ℕ) (u : ℤ) : Prop where
  row : 0 ≤ u
  column : k ≤ u
  reached : ∀ i j : ℕ, (i : ℤ) = u → (i : ℤ) - j = k → gridCost M i j ≤ d
  blocked : ∀ i j : ℕ, u ≤ i → (i : ℤ) - j = k → M i j = false → d < gridCost M (i + 1) (j + 1)

variable {M} {k u u₀ u₁ u₂ : ℤ} {d : ℕ}

theorem frontier_of_lt (h : d < k.natAbs) (hu : u < 0) : Frontier M k d u := by
  intro i j hk
  have h₁ := le_add_gridCost_left M i j
  have h₂ := le_add_gridCost_right M i j
  constructor <;> omega

namespace Frontier

/-- The first cell of the diagonal. -/
theorem first_le (h : Frontier M k d u) (hk : k.natAbs ≤ d) : 0 ≤ u ∧ k ≤ u := by
  rcases Int.le_total 0 k with h0 | h0
  · have hc := (h k.toNat 0 (by omega)).2 (by simp only [gridCost_zero_right]; omega)
    omega
  · have hc := (h 0 (-k).toNat (by omega)).2 (by simp only [gridCost_zero_left]; omega)
    omega

theorem launch (h : Frontier M k d u) (hk : k.natAbs ≤ d) : Launch M k d u where
  row := (h.first_le hk).1
  column := (h.first_le hk).2
  reached i j hi hj := (h i j hj).1 hi.le
  blocked i j hi hj _ := by
    have hn := (h (i + 1) (j + 1) (by push_cast; omega)).not
    push_cast at hn
    omega

end Frontier

namespace Launch

theorem zero : Launch M 0 0 0 where
  row := le_rfl
  column := le_rfl
  reached i j hi hj := by
    obtain rfl : i = 0 := by omega
    obtain rfl : j = 0 := by omega
    rw [gridCost_zero_left]
  blocked i j _ _ hm := by
    rw [gridCost_succ_succ, hm]
    simp

theorem next (h : Launch M k d u) {i j : ℕ} (hi : (i : ℤ) = u) (hj : (i : ℤ) - j = k)
    (hm : M i j = true) : Launch M k d (u + 1) where
  row := by have := h.row; omega
  column := by have := h.column; omega
  reached i' j' hi' hj' := by
    obtain rfl : i' = i + 1 := by omega
    obtain rfl : j' = j + 1 := by omega
    rw [gridCost_match hm]
    exact h.reached i j hi hj
  blocked i' j' hi' := h.blocked i' j' (by omega)

theorem frontier (h : Launch M k d u) {i j : ℕ} (hi : (i : ℤ) = u) (hj : (i : ℤ) - j = k)
    (hm : M i j = false) : Frontier M k d u := by
  intro i' j' hk
  have hr := h.reached i j hi hj
  have hb := h.blocked i j hi.ge hj hm
  constructor
  · intro hle
    have hd := gridCost_diagonal_mono M i' j' (i - i')
    rw [show i' + (i - i') = i by omega, show j' + (i - i') = j by omega] at hd
    exact hd.trans hr
  · intro hle
    by_contra hlt
    have hd := gridCost_diagonal_mono M (i + 1) (j + 1) (i' - (i + 1))
    rw [show i + 1 + (i' - (i + 1)) = i' by omega, show j + 1 + (i' - (i + 1)) = j' by omega] at hd
    omega

/-- From the frontiers of the three diagonals around it, where the next one starts. -/
theorem start (h₁ : Frontier M (k + 1) d u₁) (h₀ : Frontier M k d u₀)
    (h₂ : Frontier M (k - 1) d u₂) (hk : k.natAbs ≤ d + 1) (hu : u = max u₁ (max (u₀ + 1) (u₂ + 1))) :
    Launch M k (d + 1) u := by
  have hfirst : 0 ≤ u ∧ k ≤ u := by
    by_cases hkd : k.natAbs ≤ d
    · have := h₀.first_le hkd
      omega
    · rcases Int.le_total 0 k with h0 | h0
      · have := h₂.first_le (by omega)
        omega
      · have := h₁.first_le (by omega)
        omega
  refine ⟨hfirst.1, hfirst.2, fun i j hi hj => ?_, fun i j hi hj hm => ?_⟩
  · rcases Nat.eq_zero_or_pos i with rfl | hi0
    · rw [gridCost_zero_left]
      omega
    rcases Nat.eq_zero_or_pos j with rfl | hj0
    · rw [gridCost_zero_right]
      omega
    obtain ⟨i, rfl⟩ := Nat.exists_eq_add_of_le' hi0
    obtain ⟨j, rfl⟩ := Nat.exists_eq_add_of_le' hj0
    push_cast at hi hj
    -- the row is that of one of the three neighbours, one step on
    have hthree : u = u₁ ∨ u = u₀ + 1 ∨ u = u₂ + 1 := by omega
    rcases hthree with h | h | h
    · have hc := (h₁ (i + 1) j (by push_cast; omega)).1 (by push_cast; omega)
      exact (gridCost_succ_right_le M (i + 1) j).trans (by omega)
    · have hc := (h₀ i j (by omega)).1 (by omega)
      rw [gridCost_succ_succ]
      split_ifs <;> omega
    · have hc := (h₂ i (j + 1) (by push_cast; omega)).1 (by omega)
      exact (gridCost_succ_left_le M i (j + 1)).trans (by omega)
  · have hc₁ := (h₁ (i + 1) j (by push_cast; omega)).not
    have hc₀ := (h₀ i j (by omega)).not
    have hc₂ := (h₂ i (j + 1) (by push_cast; omega)).not
    push_cast at hc₁
    rw [gridCost_succ_succ, hm]
    simp only [Bool.false_eq_true, if_false]
    omega

end Launch

end TaseVerifier.Library
