import TaseVerifier.EditDistance.CellTables

/-! What the implementations over diagonals share. For diagonal `ab` and edit cost `d`
they compute the last row reached; `dist` runs along the diagonal while elements match, and
the edit cost grows until the last cell is reached. -/

namespace TaseVerifier

open Library

namespace EditDistance

/-- No row of the diagonal is reached. -/
def INT_MIN : ℤ := -2147483648

/-- The row of a diagonal in the tables without an offset: `0, -1, 1, -2, 2` in turn. -/
def get_row (i : ℤ) : ℕ := (if i < 0 then i * -2 - 1 else i * 2).toNat

theorem get_row_le {k : ℤ} {d : ℕ} (h : k.natAbs ≤ d) : get_row k ≤ 2 * d := by
  unfold get_row
  split_ifs <;> omega

theorem get_row_inj {k k' : ℤ} (h : get_row k = get_row k') : k = k' := by
  unfold get_row at h
  split_ifs at h <;> omega

variable {α : Type} [DecidableEq α]

/-- `while (i < (int)t_.size()+1 && match(s_, t_, i-1, i-1) == 0) ++i;` -/
def firstMismatch (s t : List α) (i : ℤ) : Option ℤ :=
  if i < t.length + 1 then do
    let c ← Score.match s t (i - 1) (i - 1)
    if c = 0 then firstMismatch s t (i + 1) else some i
  else some i
termination_by (t.length + 1 - i).toNat

/-- `while (dist < (int)s_.size() && (dist-ab) < (int)t_.size() &&
match(s_, t_, dist, dist-ab) == 0) dist++;` -/
def extend (s t : List α) (ab dist : ℤ) : Option ℤ :=
  if dist < s.length ∧ dist - ab < t.length then do
    let c ← Score.match s t dist (dist - ab)
    if c = 0 then extend s t ab (dist + 1) else some dist
  else some dist
termination_by (s.length - dist).toNat

/-- The same loop without the casts: against `size_t` a negative `int` is too large. -/
def extendUnsigned (s t : List α) (ab dist : ℤ) : Option ℤ :=
  if 0 ≤ dist ∧ 0 ≤ dist - ab then extend s t ab dist else some dist

/-- `while (UKK(s_.size()-t_.size(), edit_cost) < s_size) edit_cost++;`, for as many
rounds as `fuel` admits. -/
def searchCost {σ : Type} (UKK : ℤ → σ → Option (ℤ × σ)) (s_size : ℤ) : ℕ → ℤ → σ → Option ℤ
  | 0, _, _ => none
  | fuel + 1, edit_cost, u => do
    let (dist, u) ← UKK edit_cost u
    if dist < s_size then searchCost UKK s_size fuel (edit_cost + 1) u else some edit_cost

/-- Each round gives the frontier of the last cell's diagonal, so the search ends with the
cost of that cell. -/
theorem searchCost_eq {σ : Type} {UKK : ℤ → σ → Option (ℤ × σ)} {s_size : ℤ} {Inv : ℕ → σ → Prop}
    {L : ℕ} (hstep : ∀ d u, d ≤ L → Inv d u → ∃ dist u', UKK d u = some (dist, u') ∧
      (s_size ≤ dist ↔ L ≤ d) ∧ Inv (d + 1) u') {d fuel : ℕ} {u : σ} (hd : d ≤ L)
    (hfuel : L < d + fuel) (h : Inv d u) : searchCost UKK s_size fuel d u = some (L : ℤ) := by
  induction fuel generalizing d u with
  | zero => omega
  | succ fuel ih =>
    obtain ⟨dist, u', hu, hiff, h'⟩ := hstep d u hd h
    rw [searchCost, hu, Option.bind_eq_bind, Option.bind_some]
    dsimp only
    by_cases hL : L ≤ d
    · rw [if_neg (not_lt.2 (hiff.2 hL)), show d = L by omega]
    · rw [if_pos (not_le.1 fun hle => hL (hiff.1 hle))]
      exact ih (d := d + 1) (by omega) (by omega) h'

/-- A search that returns ends in a round that reaches the last row. -/
theorem exists_of_searchCost {σ : Type} {UKK : ℤ → σ → Option (ℤ × σ)} {s_size : ℤ}
    (Inv : ℕ → σ → Prop)
    (hstep : ∀ (d : ℕ) u dist u', Inv d u → UKK d u = some (dist, u') → Inv (d + 1) u') {d fuel : ℕ}
    {u : σ} {r : ℤ} (hr : searchCost UKK s_size fuel d u = some r) (h : Inv d u) :
    ∃ (e : ℕ) (u₁ : σ) (dist : ℤ) (u₂ : σ), r = e ∧ Inv e u₁ ∧ UKK e u₁ = some (dist, u₂) ∧
      s_size ≤ dist := by
  induction fuel generalizing d u with
  | zero => exact absurd hr (Option.some_ne_none r).symm
  | succ fuel ih =>
    rw [searchCost, Option.bind_eq_bind, Option.bind_eq_some_iff] at hr
    obtain ⟨⟨dist, u'⟩, hu, hr⟩ := hr
    dsimp only at hr
    split_ifs at hr with hlt
    · exact ih (d := d + 1) hr (hstep d u dist u' h hu)
    · exact ⟨d, u, dist, u', (Option.some.inj hr).symm, h, hu, not_lt.1 hlt⟩

theorem extend_launch {s t : List α} {k u : ℤ} {d : ℕ} (h : Launch (meets s t) k d u) :
    ∃ u', extend s t k u = some u' ∧ Frontier (meets s t) k d u' := by
  obtain ⟨i, hi⟩ := Int.eq_ofNat_of_zero_le h.row
  obtain ⟨j, hj⟩ := Int.eq_ofNat_of_zero_le (show 0 ≤ u - k by have := h.column; omega)
  generalize hn : s.length - i = n
  induction n generalizing u i j with
  | zero =>
    have hm : meets s t i j = false := by
      rw [meets, List.getElem?_eq_none (by omega)]
    rw [extend, if_neg (by omega)]
    exact ⟨u, rfl, h.frontier hi.symm (by omega) hm⟩
  | succ n ih =>
    rw [extend]
    by_cases hin : u < s.length ∧ u - k < t.length
    · rw [if_pos hin, hj, hi, Score.match_eq (by omega) (by omega), Option.bind_eq_bind,
        Option.bind_some]
      by_cases hm : meets s t i j
      · have hnext := h.next hi.symm (by omega) hm
        rw [if_pos hm, if_pos rfl]
        subst hi
        exact ih hnext (i + 1) (by push_cast; rfl) (j + 1) (by push_cast; omega) (by omega)
      · rw [if_neg hm, if_neg Int.one_ne_zero, ← hi]
        exact ⟨u, rfl, h.frontier (j := j) hi.symm (by omega) (by simpa using hm)⟩
    · have hm : meets s t i j = false := by
        have hout : s.length ≤ i ∨ t.length ≤ j := by omega
        rcases hout with hout | hout
        · rw [meets, List.getElem?_eq_none hout]
        · rw [meets_swap, meets, List.getElem?_eq_none hout]
      rw [if_neg hin]
      exact ⟨u, rfl, h.frontier hi.symm (by omega) hm⟩

theorem extendUnsigned_launch {s t : List α} {k u : ℤ} {d : ℕ} (h : Launch (meets s t) k d u) :
    ∃ u', extendUnsigned s t k u = some u' ∧ Frontier (meets s t) k d u' := by
  rw [extendUnsigned, if_pos ⟨h.row, by have := h.column; omega⟩]
  exact extend_launch h

theorem firstMismatch_frontier {s t : List α} (hst : t.length ≤ s.length) {i : ℕ}
    (h : Launch (meets s t) 0 0 i) :
    ∃ i', firstMismatch s t (i + 1) = some i' ∧ Frontier (meets s t) 0 0 (i' - 1) := by
  generalize hn : t.length - i = n
  induction n generalizing i with
  | zero =>
    have hm : meets s t i i = false := by
      rw [meets_swap, meets, List.getElem?_eq_none (by omega)]
    rw [firstMismatch, if_neg (by omega)]
    exact ⟨_, rfl, by simpa using h.frontier rfl (by omega) hm⟩
  | succ n ih =>
    rw [firstMismatch, if_pos (by omega), Int.add_sub_cancel,
      Score.match_eq (i := i) (j := i) (by omega) (by omega), Option.bind_eq_bind, Option.bind_some]
    by_cases hm : meets s t i i
    · rw [if_pos hm, if_pos rfl]
      exact ih (i := i + 1) (by exact_mod_cast h.next rfl (by omega) hm) (by omega)
    · rw [if_neg hm, if_neg Int.one_ne_zero]
      exact ⟨_, rfl, by simpa using h.frontier (j := i) rfl (by omega) (by simpa using hm)⟩

theorem firstMismatch_one {s t : List α} (hst : t.length ≤ s.length) :
    ∃ i, firstMismatch s t 1 = some i ∧ Frontier (meets s t) 0 0 (i - 1) :=
  firstMismatch_frontier (i := 0) hst Launch.zero

/-- The frontier of the last cell's diagonal tells whether the cell is reached. -/
theorem le_frontier_iff {s t : List α} {d : ℕ} {u : ℤ}
    (h : Frontier (meets s t) ((s.length : ℤ) - t.length) d u) :
    (s.length : ℤ) ≤ u ↔ levenshtein s t ≤ d := by
  rw [h s.length t.length rfl, gridCost_length]

/-- Rounds that find the frontier of the last cell's diagonal make a search for the distance. -/
theorem searchCost_levenshtein {σ : Type} {UKK : ℤ → σ → Option (ℤ × σ)} (Inv : ℕ → σ → Prop)
    {s t : List α} {fuel : ℕ} (hfuel : levenshtein s t < fuel)
    (hstep : ∀ (d : ℕ) u, d ≤ levenshtein s t → Inv d u → ∃ dist u', UKK d u = some (dist, u') ∧
      Frontier (meets s t) ((s.length : ℤ) - t.length) d dist ∧ Inv (d + 1) u')
    {u : σ} (h : Inv 0 u) : searchCost UKK s.length fuel 0 u = some (levenshtein s t : ℤ) :=
  searchCost_eq (d := 0) (fun d u hd h => by
    obtain ⟨dist, u', hu, hf, h'⟩ := hstep d u hd h
    exact ⟨dist, u', hu, le_frontier_iff hf, h'⟩) (Nat.zero_le _) (by omega) h

end EditDistance

end TaseVerifier
