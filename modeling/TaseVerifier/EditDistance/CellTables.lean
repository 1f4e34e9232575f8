import TaseVerifier.EditDistance.Score

/-! The two implementations that fill a table of cells: `EditDistanceTable` keeps every
row, `EditDistanceRow` only two and takes the longer sequence along them. -/

namespace TaseVerifier

open Library

namespace EditDistance

variable {α : Type}

/-- Two sequences whose lengths plus one, `m_` and `n_`, fit `int`. -/
structure Sequences (α : Type) where
  s_ : List α
  t_ : List α
  s_fits : s_.length + 1 ≤ 2147483647
  t_fits : t_.length + 1 ≤ 2147483647

def Sequences.m_ (q : Sequences α) : ℕ := q.s_.length + 1

def Sequences.n_ (q : Sequences α) : ℕ := q.t_.length + 1

/-- The constructor; for a longer sequence the language fixes no value of `m_` or `n_`. -/
def Sequences.new (s t : List α) : Option (Sequences α) :=
  if h : s.length + 1 ≤ 2147483647 ∧ t.length + 1 ≤ 2147483647 then some ⟨s, t, h.1, h.2⟩ else none

/-- The constructors that take the longer sequence as `s_`. -/
def Sequences.newLonger (s t : List α) : Option (Sequences α) :=
  if s.length > t.length then Sequences.new s t else Sequences.new t s

theorem Sequences.new_eq {s t : List α} {q : Sequences α} (h : Sequences.new s t = some q) :
    q.s_ = s ∧ q.t_ = t := by
  unfold Sequences.new at h
  split_ifs at h
  obtain rfl := Option.some.inj h
  exact ⟨rfl, rfl⟩

variable [DecidableEq α]

/-- The loop over the cells of row `j`. -/
def update_cells (index : ℕ → ℕ → ℕ) (q : Sequences α) (costs : Buffer ℤ) (j : ℕ) :
    Option (Buffer ℤ) :=
  (List.range' 1 (q.m_ - 1)).foldlM (update_cell index q.s_ q.t_ j) costs

/-! ### Two rows -/

namespace EditDistanceRow

def index (m_ i j : ℕ) : ℕ := unsigned (i + (j % 2) * m_)

def update_row (q : Sequences α) (costs : Buffer ℤ) (j : ℕ) : Option (Buffer ℤ) := do
  let costs ← costs.write (index q.m_ 0 j) (j : ℤ)
  update_cells (index q.m_) q costs j

def compute_editdistance (q : Sequences α) : Option ℤ := do
  let size ← int (q.m_ * 2)
  let costs : Buffer ℤ := Buffer.uninit size.toNat
  let costs ← (List.range' 0 q.m_).foldlM (fun costs i => costs.write (index q.m_ i 0) (i : ℤ)) costs
  let costs ← (List.range' 1 (q.n_ - 1)).foldlM (update_row q) costs
  costs.read (index q.m_ (q.m_ - 1) (q.n_ - 1))

end EditDistanceRow

/-- Construction and `compute_editdistance` of `EditDistanceRow`. -/
def row (s t : List α) : Option ℤ := do
  EditDistanceRow.compute_editdistance (← Sequences.newLonger s t)

namespace EditDistanceRow

variable {m_ i j i' j' : ℕ}

theorem index_eq (hi : i < m_) (hm : m_ * 2 ≤ 2147483647) :
    index m_ i j = i + (j % 2) * m_ := by
  unfold index
  rcases Nat.mod_two_eq_zero_or_one j with h | h <;> rw [h, unsigned_eq (by omega)]

theorem index_lt (hi : i < m_) (hm : m_ * 2 ≤ 2147483647) : index m_ i j < m_ * 2 := by
  rw [index_eq hi hm]
  rcases Nat.mod_two_eq_zero_or_one j with h | h <;> rw [h] <;> omega

theorem index_ne (hi : i < m_) (hi' : i' < m_) (hm : m_ * 2 ≤ 2147483647)
    (h : i ≠ i' ∨ j % 2 ≠ j' % 2) : index m_ i j ≠ index m_ i' j' := by
  rw [index_eq hi hm, index_eq hi' hm]
  rcases Nat.mod_two_eq_zero_or_one j with hj | hj <;>
    rcases Nat.mod_two_eq_zero_or_one j' with hj' | hj' <;> rw [hj, hj'] <;> omega

/-- Row `j` is filled and row `j + 1` up to cell `i`. -/
structure Filled (q : Sequences α) (j i : ℕ) (costs : Buffer ℤ) : Prop where
  size : costs.size = q.m_ * 2
  last : ∀ x < q.m_, costs.read (index q.m_ x j) = some (gridCost (meets q.s_ q.t_) x j : ℤ)
  current : ∀ x < i, costs.read (index q.m_ x (j + 1)) = some (gridCost (meets q.s_ q.t_) x (j + 1) : ℤ)

variable {q : Sequences α} {costs costs' : Buffer ℤ}

theorem Filled.store (h : Filled q j i costs) (hi : i < q.m_) (hm : q.m_ * 2 ≤ 2147483647)
    (hs : Buffer.Stores costs costs' (index q.m_ i (j + 1)) (gridCost (meets q.s_ q.t_) i (j + 1))) :
    Filled q j (i + 1) costs' where
  size := hs.size.trans h.size
  last x hx := by
    rw [hs.kept _ (index_ne hx hi hm (by omega))]
    exact h.last x hx
  current x hx := by
    by_cases hxi : x = i
    · rw [hxi]
      exact hs.stored
    · rw [hs.kept _ (index_ne (by omega) hi hm (Or.inl hxi))]
      exact h.current x (by omega)

theorem Filled.step (h : Filled q j i costs) (hi : 1 ≤ i) (him : i < q.m_) (hj : j + 1 < q.n_)
    (hm : q.m_ * 2 ≤ 2147483647) :
    ∃ costs', update_cell (index q.m_) q.s_ q.t_ (j + 1) costs i = some costs' ∧
      Filled q j (i + 1) costs' := by
  obtain ⟨i, rfl⟩ := Nat.exists_eq_add_of_le' hi
  have hs := q.s_fits
  have ht := q.t_fits
  unfold Sequences.m_ at him
  unfold Sequences.n_ at hj
  obtain ⟨costs', hu, hst⟩ := update_cell_stores (index q.m_) (s := q.s_) (t := q.t_)
    (i := i) (j := j) (by omega) (by omega) (by omega) (by omega)
    (h.size.symm ▸ index_lt him hm) (h.last i (by unfold Sequences.m_; omega))
    (h.last (i + 1) him) (h.current i (by omega))
  exact ⟨costs', hu, h.store him hm hst⟩

/-- A filled row is the last one for the next. -/
theorem Filled.row (h : Filled q j q.m_ costs) : Filled q (j + 1) 0 costs where
  size := h.size
  last := h.current
  current x hx := absurd hx (Nat.not_lt_zero x)

theorem Filled.next (h : Filled q j 0 costs) (hj : j + 1 < q.n_) (hm : q.m_ * 2 ≤ 2147483647) :
    ∃ costs', update_row q costs (j + 1) = some costs' ∧ Filled q (j + 1) 0 costs' := by
  have h0 : 0 < q.m_ := Nat.succ_pos _
  obtain ⟨costs₁, hw, hs⟩ := Buffer.write_stores (b := costs) (h.size.symm ▸ index_lt h0 hm)
    ((j + 1 : ℕ) : ℤ)
  have h₁ : Filled q j 1 costs₁ := h.store h0 hm (by rwa [gridCost_zero_left])
  obtain ⟨costs', hr, h'⟩ := exists_foldlM_range' (P := Filled q j) (a := 1) (n := q.m_ - 1)
    (fun i c hi hn hc => hc.step hi (by omega) hj hm) h₁
  rw [show 1 + (q.m_ - 1) = q.m_ by omega] at h'
  exact ⟨costs', by rw [update_row, hw]; exact hr, h'.row⟩

theorem filled_zero (hm : q.m_ * 2 ≤ 2147483647) :
    ∃ costs, (List.range' 0 q.m_).foldlM (fun costs i => costs.write (index q.m_ i 0) (i : ℤ))
      (Buffer.uninit (q.m_ * 2)) = some costs ∧ Filled q 0 0 costs := by
  obtain ⟨costs, hr, hsize, hread⟩ := exists_foldlM_range' (a := 0) (n := q.m_)
    (f := fun costs i => costs.write (index q.m_ i 0) (i : ℤ)) (s := Buffer.uninit (q.m_ * 2))
    (P := fun i (costs : Buffer ℤ) => costs.size = q.m_ * 2 ∧
      ∀ x < i, costs.read (index q.m_ x 0) = some (x : ℤ))
    (fun i c _ hi hc => by
      obtain ⟨c', hw, hs⟩ := Buffer.write_stores (b := c) (i := index q.m_ i 0)
        (by rw [hc.1]; exact index_lt (by omega) hm) (i : ℤ)
      refine ⟨c', hw, hs.size.trans hc.1, fun x hx => ?_⟩
      by_cases hxi : x = i
      · rw [hxi]
        exact hs.stored
      · rw [hs.kept _ (index_ne (by omega) (by omega) hm (Or.inl hxi))]
        exact hc.2 x (by omega))
    ⟨Buffer.size_uninit _, fun x hx => absurd hx (Nat.not_lt_zero x)⟩
  refine ⟨costs, hr, hsize, fun x hx => ?_, fun x hx => absurd hx (Nat.not_lt_zero x)⟩
  rw [gridCost_zero_right]
  exact hread x (by omega)

theorem compute_editdistance_eq (hm : q.m_ * 2 ≤ 2147483647) :
    compute_editdistance q = some (levenshtein q.s_ q.t_ : ℤ) := by
  obtain ⟨costs₀, hr₀, h₀⟩ := filled_zero hm
  obtain ⟨costs, hr, h⟩ := exists_foldlM_range' (a := 1) (n := q.n_ - 1)
    (f := update_row q) (P := fun j => Filled q (j - 1) 0)
    (fun j c hj hn hc => by
      obtain ⟨j, rfl⟩ := Nat.exists_eq_add_of_le' hj
      exact hc.next (by omega) hm) h₀
  have hlast := h.last q.s_.length (Nat.lt_succ_self _)
  rw [show 1 + (q.n_ - 1) - 1 = q.t_.length by unfold Sequences.n_; omega, gridCost_length] at hlast
  have hi : int ((q.m_ : ℤ) * 2) = some ((q.m_ * 2 : ℕ) : ℤ) := by
    rw [int_eq (by omega) (by omega)]
    push_cast
    rfl
  simp -implicitDefEqProofs only [compute_editdistance, hi, Int.toNat_natCast, hr₀, hr,
    Option.bind_eq_bind, Option.bind_some]
  exact hlast

theorem compute_editdistance_eq_none (hm : ¬ q.m_ * 2 ≤ 2147483647) :
    compute_editdistance q = none := by
  unfold compute_editdistance
  rw [int_eq_none (by omega)]
  rfl

end EditDistanceRow

theorem Sequences.newLonger_eq {s t : List α} {q : Sequences α}
    (h : Sequences.newLonger s t = some q) :
    q.s_.length = max s.length t.length ∧ q.t_.length = min s.length t.length ∧
      levenshtein q.s_ q.t_ = levenshtein s t := by
  unfold Sequences.newLonger at h
  by_cases hst : s.length > t.length
  · rw [if_pos hst] at h
    obtain ⟨rfl, rfl⟩ := Sequences.new_eq h
    exact ⟨by omega, by omega, rfl⟩
  · rw [if_neg hst] at h
    obtain ⟨rfl, rfl⟩ := Sequences.new_eq h
    exact ⟨by omega, by omega, levenshtein_comm _ _⟩

omit [DecidableEq α] in
theorem Sequences.newLonger_isSome (s t : List α) :
    (∃ q, Sequences.newLonger s t = some q) ↔ max s.length t.length + 1 ≤ 2147483647 := by
  unfold Sequences.newLonger Sequences.new
  by_cases hst : s.length > t.length
  · rw [if_pos hst]
    split_ifs with h <;> simp <;> omega
  · rw [if_neg hst]
    split_ifs with h <;> simp <;> omega

/-- The rows have the length of the longer sequence, and twice that must fit `int`. -/
theorem row_eq (s t : List α) :
    row s t = if (max s.length t.length + 1) * 2 ≤ 2147483647 then some (levenshtein s t : ℤ)
      else none := by
  unfold row
  cases hq : Sequences.newLonger s t with
  | none =>
    have h := (Sequences.newLonger_isSome s t).not.1 (by simp [hq])
    rw [if_neg (by omega)]
    rfl
  | some q =>
    obtain ⟨hs, -, hlev⟩ := Sequences.newLonger_eq hq
    rw [Option.bind_eq_bind, Option.bind_some, ← hs, ← hlev]
    split_ifs with hm
    · exact EditDistanceRow.compute_editdistance_eq (by unfold Sequences.m_; exact hm)
    · exact EditDistanceRow.compute_editdistance_eq_none (by unfold Sequences.m_; exact hm)

/-! ### The whole table -/

namespace EditDistanceTable

def index (m_ i j : ℕ) : ℕ := unsigned (i + j * m_)

def update_row (q : Sequences α) (costs : Buffer ℤ) (j : ℕ) : Option (Buffer ℤ) :=
  update_cells (index q.m_) q costs j

def compute_editdistance (q : Sequences α) : Option ℤ := do
  let size ← int (q.m_ * q.n_)
  let costs : Buffer ℤ := Buffer.filled size.toNat 0
  let costs ← (List.range' 0 q.m_).foldlM (fun costs i => costs.write (index q.m_ i 0) (i : ℤ)) costs
  let costs ← (List.range' 0 q.n_).foldlM (fun costs j => costs.write (index q.m_ 0 j) (j : ℤ)) costs
  let costs ← (List.range' 1 (q.n_ - 1)).foldlM (update_row q) costs
  costs.read (index q.m_ (q.m_ - 1) (q.n_ - 1))

end EditDistanceTable

/-- Construction and `compute_editdistance` of `EditDistanceTable`. -/
def table (s t : List α) : Option ℤ := do
  EditDistanceTable.compute_editdistance (← Sequences.new s t)

namespace EditDistanceTable

variable {m_ n_ i j i' j' : ℕ}

theorem cell_lt (hi : i < m_) (hj : j < n_) : i + j * m_ < m_ * n_ := by
  have h : (j + 1) * m_ ≤ n_ * m_ := Nat.mul_le_mul_right m_ hj
  rw [Nat.succ_mul] at h
  rw [Nat.mul_comm m_ n_]
  omega

theorem index_lt (hi : i < m_) (hj : j < n_) (hm : m_ * n_ ≤ 2147483647) :
    index m_ i j < m_ * n_ := by
  have h := cell_lt hi hj
  unfold index
  rwa [unsigned_eq (by omega)]

theorem index_ne (hi : i < m_) (hj : j < n_) (hi' : i' < m_) (hj' : j' < n_)
    (hm : m_ * n_ ≤ 2147483647) (h : i ≠ i' ∨ j ≠ j') : index m_ i j ≠ index m_ i' j' := by
  have hc := cell_lt hi hj
  have hc' := cell_lt hi' hj'
  unfold index
  rw [unsigned_eq (by omega), unsigned_eq (by omega)]
  intro he
  -- row and place are quotient and remainder by the row length
  have hdiv := congrArg (· / m_) he
  have hmod := congrArg (· % m_) he
  simp only [Nat.add_mul_div_right _ _ (show 0 < m_ by omega), Nat.add_mul_mod_self_right,
    Nat.div_eq_of_lt hi, Nat.div_eq_of_lt hi', Nat.mod_eq_of_lt hi, Nat.mod_eq_of_lt hi'] at hdiv hmod
  omega

/-- The cells in `known` hold their costs. -/
structure Filled (q : Sequences α) (known : ℕ → ℕ → Prop) (costs : Buffer ℤ) : Prop where
  size : costs.size = q.m_ * q.n_
  cells : ∀ x y, x < q.m_ → y < q.n_ → known x y →
    costs.read (index q.m_ x y) = some (gridCost (meets q.s_ q.t_) x y : ℤ)

variable {q : Sequences α} {costs costs' : Buffer ℤ} {known known' : ℕ → ℕ → Prop}

theorem Filled.store (h : Filled q known costs) (hi : i < q.m_) (hj : j < q.n_)
    (hm : q.m_ * q.n_ ≤ 2147483647)
    (hs : Buffer.Stores costs costs' (index q.m_ i j) (gridCost (meets q.s_ q.t_) i j))
    (hknown : ∀ x y, known' x y → known x y ∨ (x = i ∧ y = j)) : Filled q known' costs' where
  size := hs.size.trans h.size
  cells x y hx hy hxy := by
    by_cases he : x = i ∧ y = j
    · rw [he.1, he.2]
      exact hs.stored
    · rw [hs.kept _ (index_ne hx hy hi hj hm (by omega))]
      exact h.cells x y hx hy ((hknown x y hxy).resolve_right he)

theorem Filled.write (h : Filled q known costs) (hi : i < q.m_) (hj : j < q.n_)
    (hm : q.m_ * q.n_ ≤ 2147483647)
    (hknown : ∀ x y, known' x y → known x y ∨ (x = i ∧ y = j)) {v : ℤ}
    (hv : v = gridCost (meets q.s_ q.t_) i j) :
    ∃ costs', costs.write (index q.m_ i j) v = some costs' ∧ Filled q known' costs' := by
  obtain ⟨costs', hw, hs⟩ := Buffer.write_stores (b := costs) (h.size.symm ▸ index_lt hi hj hm) v
  subst hv
  exact ⟨costs', hw, h.store hi hj hm hs hknown⟩

/-- Row `0`, column `0`, the rows before `j` and row `j` up to cell `i`. -/
def Known (j i x y : ℕ) : Prop := x = 0 ∨ y < j ∨ (y = j ∧ x < i)

theorem Filled.step (h : Filled q (Known j i) costs) (hi : 1 ≤ i) (him : i < q.m_) (hj : 1 ≤ j)
    (hjn : j < q.n_) (hm : q.m_ * q.n_ ≤ 2147483647) :
    ∃ costs', update_cell (index q.m_) q.s_ q.t_ j costs i = some costs' ∧
      Filled q (Known j (i + 1)) costs' := by
  obtain ⟨i, rfl⟩ := Nat.exists_eq_add_of_le' hi
  obtain ⟨j, rfl⟩ := Nat.exists_eq_add_of_le' hj
  have hs := q.s_fits
  have ht := q.t_fits
  have hs' : i < q.s_.length := by unfold Sequences.m_ at him; omega
  have ht' : j < q.t_.length := by unfold Sequences.n_ at hjn; omega
  obtain ⟨costs', hu, hst⟩ := update_cell_stores (index q.m_) hs' ht'
    (by omega) (by omega) (h.size.symm ▸ index_lt him hjn hm)
    (h.cells i j (by omega) (by omega) (Or.inr (Or.inl (by omega))))
    (h.cells (i + 1) j him (by omega) (Or.inr (Or.inl (by omega))))
    (h.cells i (j + 1) (by omega) hjn (Or.inr (Or.inr ⟨rfl, by omega⟩)))
  refine ⟨costs', hu, h.store him hjn hm hst fun x y hxy => ?_⟩
  unfold Known at hxy ⊢
  omega

theorem Filled.next (h : Filled q (Known j 1) costs) (hj : 1 ≤ j) (hjn : j < q.n_)
    (hm : q.m_ * q.n_ ≤ 2147483647) :
    ∃ costs', update_row q costs j = some costs' ∧
      Filled q (Known (j + 1) 1) costs' := by
  obtain ⟨costs', hr, h'⟩ := exists_foldlM_range' (P := fun i => Filled q (Known j i)) (a := 1)
    (n := q.m_ - 1) (fun i c hi hn hc => hc.step hi (by omega) hj hjn hm) h
  refine ⟨costs', hr, h'.size, fun x y hx hy hxy => h'.cells x y hx hy ?_⟩
  unfold Known at hxy ⊢
  omega

theorem compute_editdistance_eq (hm : q.m_ * q.n_ ≤ 2147483647) :
    compute_editdistance q = some (levenshtein q.s_ q.t_ : ℤ) := by
  have hm0 : 0 < q.m_ := Nat.succ_pos _
  have hn0 : 0 < q.n_ := Nat.succ_pos _
  obtain ⟨costs₀, hr₀, h₀⟩ := exists_foldlM_range' (a := 0) (n := q.m_)
    (f := fun costs i => costs.write (index q.m_ i 0) (i : ℤ))
    (P := fun i => Filled q fun x y => y = 0 ∧ x < i)
    (fun i c _ hi hc => hc.write (by omega) hn0 hm (fun x y hxy => by omega)
      (by rw [gridCost_zero_right]))
    (s := Buffer.filled (q.m_ * q.n_) 0) ⟨Buffer.size_filled _ _, fun x y _ _ hxy => by omega⟩
  obtain ⟨costs₁, hr₁, h₁⟩ := exists_foldlM_range' (a := 0) (n := q.n_)
    (f := fun costs j => costs.write (index q.m_ 0 j) (j : ℤ))
    (P := fun j => Filled q fun x y => (y = 0 ∧ x < q.m_) ∨ (x = 0 ∧ y < j))
    (fun j c _ hj hc => hc.write hm0 (by omega) hm (fun x y hxy => by omega)
      (by rw [gridCost_zero_left]))
    (s := costs₀) ⟨h₀.size, fun x y hx hy hxy => h₀.cells x y hx hy (by omega)⟩
  have hstart : Filled q (Known 1 1) costs₁ := ⟨h₁.size, fun x y hx hy hxy =>
    h₁.cells x y hx hy (by unfold Known at hxy; omega)⟩
  obtain ⟨costs, hr, h⟩ := exists_foldlM_range' (a := 1) (n := q.n_ - 1)
    (f := update_row q) (P := fun j => Filled q (Known j 1))
    (fun j c hj hn hc => hc.next hj (by omega) hm) hstart
  have hlast := h.cells q.s_.length q.t_.length (Nat.lt_succ_self _) (Nat.lt_succ_self _)
    (Or.inr (Or.inl (by unfold Sequences.n_; omega)))
  rw [gridCost_length] at hlast
  have hi : int ((q.m_ : ℤ) * q.n_) = some ((q.m_ * q.n_ : ℕ) : ℤ) := by
    rw [← Int.natCast_mul, int_eq (by omega) (by omega)]
  simp -implicitDefEqProofs only [compute_editdistance, hi, Int.toNat_natCast, hr₀, hr₁, hr,
    Option.bind_eq_bind, Option.bind_some]
  exact hlast

theorem compute_editdistance_eq_none (hm : ¬ q.m_ * q.n_ ≤ 2147483647) :
    compute_editdistance q = none := by
  unfold compute_editdistance
  rw [← Int.natCast_mul, int_eq_none (by omega)]
  rfl

end EditDistanceTable

theorem table_eq (s t : List α) :
    table s t = if (s.length + 1) * (t.length + 1) ≤ 2147483647 then some (levenshtein s t : ℤ)
      else none := by
  unfold table
  cases hq : Sequences.new s t with
  | none =>
    unfold Sequences.new at hq
    split_ifs at hq with hfits
    have hs : s.length + 1 ≤ (s.length + 1) * (t.length + 1) := Nat.le_mul_of_pos_right _ t.length.succ_pos
    have ht : t.length + 1 ≤ (s.length + 1) * (t.length + 1) := Nat.le_mul_of_pos_left _ s.length.succ_pos
    rw [if_neg (by omega)]
    rfl
  | some q =>
    obtain ⟨rfl, rfl⟩ := Sequences.new_eq hq
    rw [Option.bind_eq_bind, Option.bind_some]
    split_ifs with hm
    · exact EditDistanceTable.compute_editdistance_eq hm
    · exact EditDistanceTable.compute_editdistance_eq_none hm

/-- Both implementations return the distance, in either order of the sequences. -/
structure Measured (s t : List α) : Prop where
  row : row s t = some (levenshtein s t : ℤ)
  table : table s t = some (levenshtein s t : ℤ)
  row_symm : EditDistance.row t s = EditDistance.row s t
  table_symm : EditDistance.table t s = EditDistance.table s t

/-- The sizes of both tables, computed in `int`, must fit it. -/
theorem measured_iff (s t : List α) :
    Measured s t ↔ (max s.length t.length + 1) * 2 ≤ 2147483647 ∧
      (s.length + 1) * (t.length + 1) ≤ 2147483647 := by
  constructor
  · intro h
    have hr := h.row
    have ht := h.table
    rw [row_eq] at hr
    rw [table_eq] at ht
    split_ifs at hr ht with hm hp
    exact ⟨hm, hp⟩
  · rintro ⟨hm, hp⟩
    refine ⟨?_, ?_, ?_, ?_⟩
    · rw [row_eq, if_pos hm]
    · rw [table_eq, if_pos hp]
    · rw [row_eq, row_eq, max_comm, levenshtein_comm]
    · rw [table_eq, table_eq, Nat.mul_comm, levenshtein_comm]

/-- Two paths of 46340 blocks: `m_*n_` overflows, while the two rows would do. -/
theorem not_measured :
    ¬ Measured (List.replicate 46340 (0 : BitVec 64)) (List.replicate 46340 (0 : BitVec 64)) := by
  rw [measured_iff, List.length_replicate]
  rintro ⟨_, h⟩
  exact absurd h (by decide)

end EditDistance

end TaseVerifier
