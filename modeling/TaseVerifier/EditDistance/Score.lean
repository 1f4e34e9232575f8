import TaseVerifier.Library.Buffer
import TaseVerifier.Library.EditGrid

/-! Costs of single edits and the update of one cell of a cost table, which the
implementations over cells share. Values are of type `int`; where a result does not fit
the type the run has no defined value. -/

namespace TaseVerifier

open Library

namespace EditDistance

/-- A signed result must fit `int`. -/
def int (x : ℤ) : Option ℤ := if -2147483648 ≤ x ∧ x ≤ 2147483647 then some x else none

/-- Unsigned arithmetic wraps. -/
def unsigned (x : ℕ) : ℕ := x % 4294967296

theorem int_eq {x : ℤ} (h₁ : -2147483648 ≤ x) (h₂ : x ≤ 2147483647) : int x = some x := if_pos ⟨h₁, h₂⟩

theorem int_eq_none {x : ℤ} (h : 2147483647 < x) : int x = none := if_neg fun hx => by omega

theorem unsigned_eq {x : ℕ} (h : x < 4294967296) : unsigned x = x := Nat.mod_eq_of_lt h

/-- `operator[]` of a sequence. -/
def element {α : Type} (s : List α) (pos : ℤ) : Option α :=
  if 0 ≤ pos then s[pos.toNat]? else none

namespace Score

def MatchCost : ℤ := 1
def DeleteCost : ℤ := 1
def InsertCost : ℤ := 1

variable {α : Type} [DecidableEq α]

def «match» (s1 s2 : List α) (pos1 pos2 : ℤ) : Option ℤ := do
  let e1 ← element s1 pos1
  let e2 ← element s2 pos2
  some (if e1 = e2 then 0 else MatchCost)

theorem match_eq {s t : List α} {i j : ℕ} (hi : i < s.length) (hj : j < t.length) :
    Score.match s t i j = some (if meets s t i j then 0 else 1) := by
  simp [Score.match, element, hi, hj, meets_get hi hj, MatchCost]

end Score

variable {α : Type} [DecidableEq α]

/-- The loop over `MATCH`, `INSERT` and `DELETE` that keeps the least. -/
def keepLeast (x : ℕ) (opt : List ℤ) (costs : Buffer ℤ) : Option (Buffer ℤ) :=
  opt.foldlM (fun costs c => do
    if c < (← costs.read x) then costs.write x c else some costs) costs

/-- The body of `update_row`; `index` says where the table has cell `(i, j)`. -/
def update_cell (index : ℕ → ℕ → ℕ) (s t : List α) (j : ℕ) (costs : Buffer ℤ) (i : ℕ) :
    Option (Buffer ℤ) := do
  let MATCH ← int ((← costs.read (index (i - 1) (j - 1))) + (← Score.match s t (i - 1 : ℕ) (j - 1 : ℕ)))
  let INSERT ← int ((← costs.read (index i (j - 1))) + Score.InsertCost)
  let DELETE ← int ((← costs.read (index (i - 1) j)) + Score.DeleteCost)
  let costs ← costs.write (index i j) MATCH
  keepLeast (index i j) [MATCH, INSERT, DELETE] costs

variable {costs : Buffer ℤ} {x : ℕ} {v : ℤ}

theorem keepLeast_cons (hx : x < costs.size) (hv : costs.read x = some v) (c : ℤ) (opt : List ℤ) :
    ∃ costs', keepLeast x (c :: opt) costs = keepLeast x opt costs' ∧
      Buffer.Stores costs costs' x (min c v) := by
  by_cases h : c < v
  · obtain ⟨costs', hw, hs⟩ := Buffer.write_stores hx c
    refine ⟨costs', ?_, by rwa [min_eq_left h.le]⟩
    simp [keepLeast, List.foldlM_cons, hv, h, hw]
  · refine ⟨costs, ?_, rfl, by rw [hv, min_eq_right (not_lt.1 h)], fun _ _ => rfl⟩
    simp [keepLeast, List.foldlM_cons, hv, h]

theorem keepLeast_stores (opt : List ℤ) (hx : x < costs.size) (hv : costs.read x = some v) :
    ∃ costs', keepLeast x opt costs = some costs' ∧
      Buffer.Stores costs costs' x (opt.foldl (fun v c => min c v) v) := by
  induction opt generalizing costs v with
  | nil => exact ⟨costs, rfl, rfl, hv, fun _ _ => rfl⟩
  | cons c opt ih =>
    obtain ⟨costs₁, h₁, hs₁⟩ := keepLeast_cons hx hv c opt
    obtain ⟨costs', h', hs'⟩ := ih (hs₁.size ▸ hx) hs₁.stored
    exact ⟨costs', h₁.trans h', hs₁.trans hs'⟩

/-- A cell whose three neighbours hold their costs gets its own. -/
theorem update_cell_stores (index : ℕ → ℕ → ℕ) {s t : List α} {i j : ℕ}
    (hi : i < s.length) (hj : j < t.length) (hs : s.length < 2147483647) (ht : t.length < 2147483647)
    (hx : index (i + 1) (j + 1) < costs.size)
    (hmatch : costs.read (index i j) = some (gridCost (meets s t) i j : ℤ))
    (hinsert : costs.read (index (i + 1) j) = some (gridCost (meets s t) (i + 1) j : ℤ))
    (hdelete : costs.read (index i (j + 1)) = some (gridCost (meets s t) i (j + 1) : ℤ)) :
    ∃ costs', update_cell index s t (j + 1) costs (i + 1) = some costs' ∧
      Buffer.Stores costs costs' (index (i + 1) (j + 1)) (gridCost (meets s t) (i + 1) (j + 1)) := by
  have h₁ := gridCost_le_max (meets s t) i j
  have h₂ := gridCost_le_max (meets s t) (i + 1) j
  have h₃ := gridCost_le_max (meets s t) i (j + 1)
  have hstep := gridCost_succ_succ (meets s t) i j
  generalize hδ : (if meets s t i j then 0 else 1) = δ at hstep
  have hδ1 : δ ≤ 1 := by rw [← hδ]; split_ifs <;> omega
  have hm : Score.match s t i j = some (δ : ℤ) := by
    rw [Score.match_eq hi hj, ← hδ]
    split_ifs <;> rfl
  obtain ⟨costs₁, hw, hs₁⟩ := Buffer.write_stores hx (gridCost (meets s t) i j + δ : ℤ)
  obtain ⟨costs', hk, hs'⟩ := keepLeast_stores [(gridCost (meets s t) i j + δ : ℤ),
    gridCost (meets s t) (i + 1) j + 1, gridCost (meets s t) i (j + 1) + 1]
    (hs₁.size ▸ hx) hs₁.stored
  refine ⟨costs', ?_, ?_⟩
  · have hi₁ : int (gridCost (meets s t) i j + δ) = some _ := int_eq (by omega) (by omega)
    have hi₂ : int (gridCost (meets s t) (i + 1) j + 1) = some _ := int_eq (by omega) (by omega)
    have hi₃ : int (gridCost (meets s t) i (j + 1) + 1) = some _ := int_eq (by omega) (by omega)
    simp -implicitDefEqProofs only [update_cell, Nat.add_sub_cancel, hmatch, hinsert, hdelete, hm, Score.InsertCost,
      Score.DeleteCost, Option.bind_eq_bind, Option.bind_some, hi₁, hi₂, hi₃, hw, hk]
  · have h := hs₁.trans hs'
    simp only [List.foldl_cons, List.foldl_nil] at h
    have hcost : (gridCost (meets s t) (i + 1) (j + 1) : ℤ) =
        min (gridCost (meets s t) i (j + 1) + 1 : ℤ) (min (gridCost (meets s t) (i + 1) j + 1 : ℤ)
          (min (gridCost (meets s t) i j + δ : ℤ) (gridCost (meets s t) i j + δ : ℤ))) := by
      omega
    rwa [hcost]

end EditDistance

end TaseVerifier
