import TaseVerifier.EditDistance.StackUKK

/-! `EditDistanceDynamicUKK`: the entries of each edit cost are kept in a column that grows
when a diagonal further out is written; `-1` marks an entry not computed. -/

namespace TaseVerifier

open Library

namespace EditDistance

variable {α : Type} [DecidableEq α]

namespace EditDistanceDynamicUKK

/-- The columns with their sizes, and how many there are. -/
structure Columns where
  U_ : Buffer (Buffer ℤ)
  U_col_ : Buffer ℕ
  max_edit_distance_ : ℕ

/-- `malloc` of both arrays, for one column more than the longer sequence has elements. -/
def Columns.empty (s_size : ℕ) : Columns := ⟨Buffer.uninit (s_size + 1), Buffer.uninit (s_size + 1), 0⟩

/-- `U_[j][get_row(i)]` behind the assertion. -/
def U (u : Columns) (i j : ℤ) : Option (ℤ × Columns) :=
  if i.natAbs > j then some (INT_MIN, u)
  else if j ≥ u.max_edit_distance_ then none
  else do
    if get_row i < (← u.U_col_.read j.toNat) then
      let col ← u.U_.read j.toNat
      let v ← col.read (get_row i)
      some (v, u)
    else none

def computed_U (u : Columns) (i j : ℤ) : Option Bool :=
  if i.natAbs > j then some true
  else if j ≥ u.max_edit_distance_ then some false
  else do
    if get_row i ≥ (← u.U_col_.read j.toNat) then some false
    else
      let col ← u.U_.read j.toNat
      let v ← col.read (get_row i)
      some (v != -1)

/-- `col_size` in `alloc_column`, with its assertion. -/
def columnSize (u : Columns) (i : ℤ) (j : ℕ) : Option ℕ :=
  if j = 0 then some 1
  else do
    let last ← u.U_col_.read (j - 1)
    if last > 0 then some (max last (get_row i) + 1) else none

/-- A column is allocated after the last or enlarged. -/
def newColumn (u : Columns) (j col_size : ℕ) : Option Columns :=
  if j ≥ u.max_edit_distance_ then do
    let U_col_ ← u.U_col_.write j 0
    let U_ ← u.U_.write j (Buffer.uninit col_size)
    some ⟨U_, U_col_, u.max_edit_distance_ + 1⟩
  else do
    let U_ ← u.U_.write j ((← u.U_.read j).resize col_size)
    some { u with U_ := U_ }

/-- `for (ValueType k=U_col_[j]; k<col_size; ++k) U_[j][k] = -1;` and the new size. -/
def markColumn (u : Columns) (j col_size : ℕ) : Option Columns := do
  let first ← u.U_col_.read j
  let col ← (List.range' first (col_size - first)).foldlM (fun col k => col.write k (-1 : ℤ))
    (← u.U_.read j)
  let U_ ← u.U_.write j col
  let U_col_ ← u.U_col_.write j col_size
  some ⟨U_, U_col_, u.max_edit_distance_⟩

def alloc_column (u : Columns) (i : ℤ) (j : ℕ) : Option Columns := do
  let col_size ← columnSize u i j
  markColumn (← newColumn u j col_size) j col_size

/-- The column is long enough, or `alloc_column` makes it so. -/
def ensureRow (u : Columns) (i j : ℤ) : Option Columns :=
  if j ≥ u.max_edit_distance_ then alloc_column u i j.toNat
  else do
    if get_row i ≥ (← u.U_col_.read j.toNat) then alloc_column u i j.toNat else some u

/-- Outside the triangle only the assertion is made, and it assigns. -/
def set_U (u : Columns) (i j v : ℤ) : Option Columns :=
  if i.natAbs > j then some u
  else do
    let u ← ensureRow u i j
    let col ← (← u.U_.read j.toNat).write (get_row i) v
    let U_ ← u.U_.write j.toNat col
    some { u with U_ := U_ }

def ops : TableOps Columns := ⟨computed_U, U, set_U⟩

/-- The entry the search starts with is extended once more. -/
def compute_U (s t : List α) (ab d : ℤ) (u : Columns) : Option (ℤ × Columns) := do
  if (← computed_U u ab d) then
    let (dist, u) ← U u ab d
    if ab = 0 ∧ d = 0 then do some (← extend s t ab dist, u) else some (dist, u)
  else StackUKK.fromPredecessors ops (extend s t) ab d u

def UKK (s t : List α) (ab d : ℤ) (u : Columns) : Option (ℤ × Columns) :=
  StackUKK.UKK ops (compute_U s t) ab d u

def compute_editdistance (fuel : ℕ) (q : Sequences α) : Option ℤ := do
  let u ← alloc_column (Columns.empty q.s_.length) 0 0
  let i ← firstMismatch q.s_ q.t_ 1
  let u ← set_U u 0 0 (i - 1)
  searchCost (UKK q.s_ q.t_ (q.s_.length - q.t_.length)) q.s_.length fuel 0 u

end EditDistanceDynamicUKK

/-- Construction and `compute_editdistance` of `EditDistanceDynamicUKK`. -/
def dynamicUKK (fuel : ℕ) (s t : List α) : Option ℤ := do
  EditDistanceDynamicUKK.compute_editdistance fuel (← Sequences.newLonger s t)

namespace EditDistanceDynamicUKK

open StackUKK

/-- Column `j` has `c` rows, all written. -/
structure Column (u : Columns) (j c : ℕ) (col : Buffer ℤ) : Prop where
  rows : u.U_col_.read j = some c
  column : u.U_.read j = some col
  size : col.size = c
  written : ∀ r < c, ∃ v, col.read r = some v

/-- The arrays have room for cost `cap`, and the columns there are have all rows written. -/
structure Inv (cap : ℕ) (u : Columns) : Prop where
  sizeU : u.U_.size = cap + 1
  sizeCol : u.U_col_.size = cap + 1
  columns : ∀ j < u.max_edit_distance_, ∃ c col, 0 < c ∧ Column u j c col

def cellEntry (c : ℕ) (col : Buffer ℤ) (k : ℤ) : Option ℤ :=
  if get_row k < c then (col.read (get_row k)).filter (· != -1) else none

def entry (u : Columns) (k : ℤ) (d : ℕ) : Option ℤ :=
  if k.natAbs ≤ d ∧ d < u.max_edit_distance_ then do
    cellEntry (← u.U_col_.read d) (← u.U_.read d) k
  else none

variable {cap : ℕ} {u u' : Columns} {k : ℤ} {d c : ℕ} {col : Buffer ℤ}

theorem entry_eq (hk : k.natAbs ≤ d) (hd : d < u.max_edit_distance_) (h : Column u d c col) :
    entry u k d = cellEntry c col k := by
  rw [entry, if_pos ⟨hk, hd⟩, h.rows, h.column]
  rfl

theorem entry_eq_none (h : ¬ (k.natAbs ≤ d ∧ d < u.max_edit_distance_)) : entry u k d = none :=
  if_neg h

theorem Inv.computed_U (h : Inv cap u) (k : ℤ) (d : ℕ) :
    computed_U u k d = some (decide (d < k.natAbs) || (entry u k d).isSome) := by
  unfold EditDistanceDynamicUKK.computed_U
  by_cases hk : k.natAbs ≤ d
  · rw [if_neg (by omega), decide_eq_false (not_lt.2 hk), Bool.false_or]
    by_cases hd : d < u.max_edit_distance_
    · obtain ⟨c, col, -, hc⟩ := h.columns d hd
      rw [if_neg (by omega), Int.toNat_natCast, hc.rows, entry_eq hk hd hc, Option.bind_eq_bind,
        Option.bind_some, hc.column, Option.bind_eq_bind, Option.bind_some, cellEntry]
      by_cases hr : get_row k < c
      · obtain ⟨v, hv⟩ := hc.written _ hr
        rw [if_neg (not_le.2 hr), if_pos hr, hv]
        by_cases hv1 : v = -1 <;> simp [hv1]
      · rw [if_pos (not_lt.1 hr), if_neg hr]
        rfl
    · rw [if_pos (by omega), entry_eq_none fun h => hd h.2]
      rfl
  · rw [if_pos (by omega), decide_eq_true (not_le.1 hk), Bool.true_or]

theorem Inv.U (h : Inv cap u) {v : ℤ} (hv : entry u k d = some v) : U u k d = some (v, u) := by
  have hkd : k.natAbs ≤ d ∧ d < u.max_edit_distance_ := by
    by_contra hn
    rw [entry_eq_none hn] at hv
    exact absurd hv.symm (Option.some_ne_none v)
  obtain ⟨c, col, -, hc⟩ := h.columns d hkd.2
  rw [entry_eq hkd.1 hkd.2 hc, cellEntry] at hv
  split_ifs at hv with hr
  have hread := (Option.filter_eq_some_iff.1 hv).1
  unfold EditDistanceDynamicUKK.U
  rw [if_neg (by omega), if_neg (by omega), Int.toNat_natCast, hc.rows, Option.bind_eq_bind,
    Option.bind_some, if_pos hr, hc.column, Option.bind_eq_bind, Option.bind_some, hread]
  rfl

/-- The loop that marks new rows. -/
theorem exists_foldlM_mark {first n : ℕ} (hsize : col.size = n) (hle : first ≤ n) :
    ∃ col', (List.range' first (n - first)).foldlM (fun col k => col.write k (-1 : ℤ)) col =
        some col' ∧ col'.size = n ∧ (∀ r < first, col'.read r = col.read r) ∧
      ∀ r, first ≤ r → r < n → col'.read r = some (-1) := by
  obtain ⟨col', hr, hs, hold, hnew⟩ := exists_foldlM_range' (a := first) (n := n - first)
    (f := fun (col : Buffer ℤ) k => col.write k (-1 : ℤ)) (s := col)
    (P := fun k (col' : Buffer ℤ) => col'.size = n ∧ (∀ r < first, col'.read r = col.read r) ∧
      ∀ r, first ≤ r → r < k → col'.read r = some (-1))
    (fun k c hk hn ⟨hc, hold, hnew⟩ => by
      obtain ⟨c', hw, hst⟩ := Buffer.write_stores (b := c) (i := k) (by omega) (-1)
      refine ⟨c', hw, hst.size.trans hc, fun r hr => ?_, fun r hr hrk => ?_⟩
      · rw [hst.kept r (by omega)]
        exact hold r hr
      · by_cases hrk' : r = k
        · rw [hrk']
          exact hst.stored
        · rw [hst.kept r hrk']
          exact hnew r hr (by omega))
    ⟨hsize, fun _ _ => rfl, fun r hr hr' => absurd hr (not_le.2 hr')⟩
  exact ⟨col', hr, hs, hold, fun r hr hrn => hnew r hr (by omega)⟩

/-- After the allocation and before the marking: column `d` has `n` rows, of which the
first `first` are those of the old column. -/
structure Allocated (u u' : Columns) (d n first : ℕ) (col : Buffer ℤ) : Prop where
  sizeU : u'.U_.size = u.U_.size
  sizeCol : u'.U_col_.size = u.U_col_.size
  has : ∀ j, j < u'.max_edit_distance_ ↔ j < u.max_edit_distance_ ∨ j = d
  others : ∀ j, j ≠ d → u'.U_.read j = u.U_.read j ∧ u'.U_col_.read j = u.U_col_.read j
  rows : u'.U_col_.read d = some first
  column : u'.U_.read d = some col
  size : col.size = n
  first_le : first ≤ n
  old : (u.max_edit_distance_ = d ∧ first = 0) ∨ ∃ col₀, d < u.max_edit_distance_ ∧
    Column u d first col₀ ∧ ∀ r < first, col.read r = col₀.read r

variable {u₁ : Columns} {n first : ℕ}

theorem Inv.newColumn (h : Inv cap u) (hd : d ≤ cap) (hmax : d ≤ u.max_edit_distance_)
    (hn : d < u.max_edit_distance_ → ∀ c, u.U_col_.read d = some c → c ≤ n) :
    ∃ u₁ first col, newColumn u d n = some u₁ ∧ Allocated u u₁ d n first col := by
  unfold EditDistanceDynamicUKK.newColumn
  by_cases hnew : d ≥ u.max_edit_distance_
  · obtain rfl : d = u.max_edit_distance_ := by omega
    obtain ⟨U_col_, hw, hs⟩ := Buffer.write_stores (b := u.U_col_) (i := u.max_edit_distance_)
      (by rw [h.sizeCol]; omega) 0
    obtain ⟨U_, hw', hs'⟩ := Buffer.write_stores (b := u.U_) (i := u.max_edit_distance_)
      (by rw [h.sizeU]; omega) (Buffer.uninit n)
    refine ⟨⟨U_, U_col_, u.max_edit_distance_ + 1⟩, 0, Buffer.uninit n, by
        rw [if_pos hnew, hw, Option.bind_eq_bind, Option.bind_some, hw']; rfl,
      hs'.size, hs.size, fun j => ?_, fun j hj => ⟨hs'.kept j hj, hs.kept j hj⟩, hs.stored, hs'.stored,
      Buffer.size_uninit n, Nat.zero_le n, Or.inl ⟨rfl, rfl⟩⟩
    dsimp only
    omega
  · obtain ⟨c, col₀, -, hc⟩ := h.columns d (not_le.1 hnew)
    have hcn := hn (not_le.1 hnew) c hc.rows
    obtain ⟨U_, hw, hs⟩ := Buffer.write_stores (b := u.U_) (i := d) (by rw [h.sizeU]; omega)
      (col₀.resize n)
    refine ⟨{ u with U_ := U_ }, c, col₀.resize n, by
        rw [if_neg hnew, hc.column, Option.bind_eq_bind, Option.bind_some, hw]; rfl,
      hs.size, rfl, fun j => ?_, fun j hj => ⟨hs.kept j hj, rfl⟩, hc.rows, hs.stored,
      Buffer.size_resize col₀ n, hcn, Or.inr ⟨col₀, not_le.1 hnew, hc, fun r hr => ?_⟩⟩
    · dsimp only
      omega
    · exact Buffer.read_resize (by rw [hc.size]; exact hr) (by omega)

/-- The marking makes the column complete and keeps the entries. -/
theorem Allocated.mark (h : Allocated u u₁ d n first col) (hinv : Inv cap u) (hd : d ≤ cap)
    (hn : 0 < n) :
    ∃ u' col', markColumn u₁ d n = some u' ∧ Inv cap u' ∧ d < u'.max_edit_distance_ ∧
      Column u' d n col' ∧ entry u' = entry u := by
  obtain ⟨col', hr, hsize, hold, hnew⟩ := exists_foldlM_mark h.size h.first_le
  obtain ⟨U_, hw, hs⟩ := Buffer.write_stores (b := u₁.U_) (i := d)
    (by rw [h.sizeU, hinv.sizeU]; omega) col'
  obtain ⟨U_col_, hw', hs'⟩ := Buffer.write_stores (b := u₁.U_col_) (i := d)
    (by rw [h.sizeCol, hinv.sizeCol]; omega) n
  have hcol : Column ⟨U_, U_col_, u₁.max_edit_distance_⟩ d n col' := by
    refine ⟨hs'.stored, hs.stored, hsize, fun r hrn => ?_⟩
    by_cases hrf : r < first
    · rcases h.old with ⟨-, h0⟩ | ⟨col₀, -, hc₀, hsame⟩
      · omega
      · obtain ⟨v, hv⟩ := hc₀.written r hrf
        exact ⟨v, (hold r hrf).trans ((hsame r hrf).trans hv)⟩
    · exact ⟨-1, hnew r (not_lt.1 hrf) hrn⟩
  refine ⟨⟨U_, U_col_, u₁.max_edit_distance_⟩, col', ?_, ⟨?_, ?_, fun j hj => ?_⟩, (h.has d).2 (Or.inr rfl), hcol, ?_⟩
  · rw [markColumn, h.rows, Option.bind_eq_bind, Option.bind_some, h.column, Option.bind_eq_bind,
      Option.bind_some, hr, Option.bind_eq_bind, Option.bind_some, hw, Option.bind_eq_bind,
      Option.bind_some, hw']
    rfl
  · exact hs.size.trans (h.sizeU.trans hinv.sizeU)
  · exact hs'.size.trans (h.sizeCol.trans hinv.sizeCol)
  · by_cases hjd : j = d
    · subst hjd
      exact ⟨n, col', hn, hcol⟩
    · obtain ⟨c, col₀, hc, hc₀⟩ := hinv.columns j (((h.has j).1 hj).resolve_right hjd)
      refine ⟨c, col₀, hc, ⟨?_, ?_, hc₀.size, hc₀.written⟩⟩
      · exact (hs'.kept j hjd).trans ((h.others j hjd).2.trans hc₀.rows)
      · exact (hs.kept j hjd).trans ((h.others j hjd).1.trans hc₀.column)
  · funext k' d'
    by_cases hd' : d' = d
    · subst hd'
      by_cases hk' : k'.natAbs ≤ d'
      · rw [entry_eq (u := ⟨U_, U_col_, u₁.max_edit_distance_⟩) hk' ((h.has d').2 (Or.inr rfl)) hcol,
          cellEntry]
        rcases h.old with ⟨hmax, h0⟩ | ⟨col₀, hlt, hc₀, hsame⟩
        · rw [entry_eq_none (by omega)]
          split_ifs with hrow
          · rw [hnew _ (by omega) hrow]
            rfl
          · rfl
        · rw [entry_eq hk' hlt hc₀, cellEntry]
          by_cases hrow : get_row k' < first
          · rw [if_pos (by have := h.first_le; omega), if_pos hrow, hold _ hrow, hsame _ hrow]
          · rw [if_neg hrow]
            split_ifs with hrow'
            · rw [hnew _ (not_lt.1 hrow) hrow']
              rfl
            · rfl
      · rw [entry_eq_none fun h => hk' h.1, entry_eq_none fun h => hk' h.1]
    · unfold entry
      dsimp only
      rw [hs.kept d' hd', hs'.kept d' hd', (h.others d' hd').1, (h.others d' hd').2]
      have hiff : d' < u₁.max_edit_distance_ ↔ d' < u.max_edit_distance_ :=
        (h.has d').trans ⟨fun h => h.resolve_right hd', Or.inl⟩
      simp only [hiff]

/-- The state in which row `k` of column `d` can be written. -/
structure Ready (cap : ℕ) (u u' : Columns) (k : ℤ) (d : ℕ) : Prop where
  inv : Inv cap u'
  has : d < u'.max_edit_distance_
  room : ∃ c col, Column u' d c col ∧ get_row k < c
  entries : entry u' = entry u

theorem Inv.alloc_column (h : Inv cap u) (hk : k.natAbs ≤ d) (hd : d ≤ cap)
    (hmax : d ≤ u.max_edit_distance_)
    (hshort : d < u.max_edit_distance_ → ∀ c, u.U_col_.read d = some c → c ≤ get_row k) :
    ∃ u', alloc_column u k d = some u' ∧ Ready cap u u' k d := by
  obtain ⟨n, hn, hrow⟩ : ∃ n, columnSize u k d = some n ∧ get_row k < n := by
    unfold columnSize
    by_cases h0 : d = 0
    · subst h0
      obtain rfl : k = 0 := by omega
      exact ⟨1, rfl, by decide⟩
    · obtain ⟨c, col, hc, hcol⟩ := h.columns (d - 1) (by omega)
      refine ⟨max c (get_row k) + 1, ?_, by omega⟩
      rw [if_neg h0, hcol.rows, Option.bind_eq_bind, Option.bind_some, if_pos hc]
  obtain ⟨u₁, first, col, hu₁, ha⟩ := h.newColumn hd hmax (n := n) fun hlt c hc => by
    have := hshort hlt c hc
    omega
  obtain ⟨u', col', hu', hinv, hhas, hcol', hentry⟩ := ha.mark h hd (by omega)
  refine ⟨u', ?_, hinv, hhas, ⟨n, col', hcol', hrow⟩, hentry⟩
  rw [EditDistanceDynamicUKK.alloc_column, hn, Option.bind_eq_bind, Option.bind_some, hu₁]
  exact hu'

theorem Inv.ensureRow (h : Inv cap u) (hk : k.natAbs ≤ d) (hd : d ≤ cap)
    (hmax : d ≤ u.max_edit_distance_) : ∃ u', ensureRow u k d = some u' ∧ Ready cap u u' k d := by
  unfold EditDistanceDynamicUKK.ensureRow
  rw [Int.toNat_natCast]
  by_cases hlt : d < u.max_edit_distance_
  · obtain ⟨c, col, -, hc⟩ := h.columns d hlt
    rw [if_neg (by omega), hc.rows, Option.bind_eq_bind, Option.bind_some]
    by_cases hrow : get_row k < c
    · exact ⟨u, if_neg (not_le.2 hrow), h, hlt, ⟨c, col, hc, hrow⟩, rfl⟩
    · rw [if_pos (not_lt.1 hrow)]
      refine h.alloc_column hk hd hmax fun _ c' hc' => ?_
      obtain rfl := Option.some.inj (hc.rows.symm.trans hc')
      exact not_lt.1 hrow
  · rw [if_pos (by omega)]
    exact h.alloc_column hk hd hmax fun h' => absurd h' hlt

theorem Ready.store {v : ℤ} (h : Ready cap u u₁ k d) (hk : k.natAbs ≤ d) (hd : d ≤ cap) (hv : 0 ≤ v) :
    ∃ u', (do
      let col ← (← u₁.U_.read d).write (get_row k) v
      let U_ ← u₁.U_.write d col
      some { u₁ with U_ := U_ }) = some u' ∧ Inv cap u' ∧
      ∀ k' d', entry u' k' d' = if k' = k ∧ d' = d then some v else entry u k' d' := by
  obtain ⟨c, col, hcol, hrow⟩ := h.room
  obtain ⟨col', hw, hs⟩ := Buffer.write_stores (b := col) (hcol.size.symm ▸ hrow) v
  obtain ⟨U_, hw', hs'⟩ := Buffer.write_stores (b := u₁.U_) (i := d) (by rw [h.inv.sizeU]; omega) col'
  have hcol' : Column { u₁ with U_ := U_ } d c col' := by
    refine ⟨hcol.rows, hs'.stored, hs.size.trans hcol.size, fun r hr => ?_⟩
    by_cases hrk : r = get_row k
    · exact ⟨v, hrk ▸ hs.stored⟩
    · rw [hs.kept r hrk]
      exact hcol.written r hr
  refine ⟨{ u₁ with U_ := U_ }, ?_, ⟨hs'.size.trans h.inv.sizeU, h.inv.sizeCol, fun j hj => ?_⟩,
    fun k' d' => ?_⟩
  · rw [hcol.column, Option.bind_eq_bind, Option.bind_some, hw, Option.bind_eq_bind,
      Option.bind_some, hw']
    rfl
  · by_cases hjd : j = d
    · subst hjd
      exact ⟨c, col', by omega, hcol'⟩
    · obtain ⟨c₀, col₀, hc, hc₀⟩ := h.inv.columns j hj
      exact ⟨c₀, col₀, hc, hc₀.rows, (hs'.kept j hjd).trans hc₀.column, hc₀.size, hc₀.written⟩
  · rw [← h.entries]
    by_cases hd' : d' = d
    · subst hd'
      by_cases hk' : k'.natAbs ≤ d'
      · rw [entry_eq (u := { u₁ with U_ := U_ }) hk' h.has hcol', entry_eq hk' h.has hcol, cellEntry,
          cellEntry]
        by_cases hkk : k' = k
        · have hv1 : (v != -1) = true := bne_iff_ne.2 (by omega)
          rw [hkk, if_pos hrow, hs.stored, if_pos ⟨rfl, rfl⟩]
          exact if_pos hv1
        · rw [hs.kept _ fun he => hkk (get_row_inj he),
            if_neg (show ¬ (k' = k ∧ d' = d') from fun he => hkk he.1)]
      · rw [entry_eq_none fun h => hk' h.1, entry_eq_none fun h => hk' h.1, if_neg]
        rintro ⟨rfl, -⟩
        exact hk' hk
    · rw [if_neg fun he => hd' he.2]
      unfold entry
      dsimp only
      rw [hs'.kept d' hd']

theorem lawful (cap : ℕ) : Lawful ops cap (Inv cap) entry where
  computed {u k d} h := h.computed_U k d
  read h hv := h.U hv
  outside hk := if_pos (by omega)
  write {u k d v} h hk hd hv hlast := by
    have hmax : d ≤ u.max_edit_distance_ := by
      cases d with
      | zero => exact Nat.zero_le _
      | succ e =>
        obtain ⟨k', hk'⟩ := hlast e rfl
        by_contra hlt
        rw [entry_eq_none (by omega)] at hk'
        exact Bool.false_ne_true hk'
    obtain ⟨u₁, hu₁, hready⟩ := h.ensureRow hk hd hmax
    obtain ⟨u', hu', hinv, hentry⟩ := hready.store hk hd hv
    refine ⟨u', ?_, hinv, hentry⟩
    change set_U u k d v = some u'
    rw [set_U, if_neg (by omega), hu₁, Int.toNat_natCast]
    exact hu'
  writeOutside {u k d} h hk := ⟨u, if_pos (by omega), h, rfl⟩

theorem computes (s t : List α) (cap : ℕ) :
    Computes (meets s t) (Inv cap) entry (compute_U s t) := by
  intro u k d h hpar
  obtain ⟨hk, hc, hU⟩ | ⟨v, hk, hc, hU, hf⟩ | ⟨e, rfl, hk, hc⟩ := h.cases (lawful cap) k d
  · refine ⟨INT_MIN, ?_, frontier_of_lt hk (by decide), fun _ => rfl⟩
    rw [compute_U, show computed_U u k d = _ from hc, Option.bind_eq_bind, Option.bind_some, if_pos rfl,
      show U u k d = _ from hU, Option.bind_eq_bind, Option.bind_some]
    exact if_neg (by omega)
  · rw [compute_U, show computed_U u k d = _ from hc, Option.bind_eq_bind, Option.bind_some, if_pos rfl,
      show U u k d = _ from hU, Option.bind_eq_bind, Option.bind_some]
    dsimp only
    by_cases h0 : k = 0 ∧ (d : ℤ) = 0
    · obtain ⟨w, hw, hf'⟩ := extend_launch (hf.launch hk)
      exact ⟨w, by rw [if_pos h0, hw]; rfl, hf', fun hlt => absurd hk (not_le.2 hlt)⟩
    · exact ⟨v, if_neg h0, hf, fun hlt => absurd hk (not_le.2 hlt)⟩
  · obtain ⟨v, hv, hf⟩ := h.fromPredecessors (lawful cap) extend_launch hk hpar
    refine ⟨v, ?_, hf, fun hlt => absurd hk (not_le.2 hlt)⟩
    rw [compute_U, show computed_U u k (e + 1 : ℕ) = _ from hc]
    exact hv

theorem empty_inv (cap : ℕ) : Inv cap (Columns.empty cap) :=
  ⟨Buffer.size_uninit _, Buffer.size_uninit _, fun j hj => absurd hj (Nat.not_lt_zero j)⟩

theorem compute_editdistance_eq {q : Sequences α} {fuel : ℕ} (hst : q.t_.length ≤ q.s_.length)
    (hfuel : levenshtein q.s_ q.t_ < fuel) :
    compute_editdistance fuel q = some (levenshtein q.s_ q.t_ : ℤ) := by
  have hL := levenshtein_le_max q.s_ q.t_
  have hl := lawful q.s_.length
  obtain ⟨i, hi, hf⟩ := firstMismatch_one hst
  obtain ⟨u₀, hu₀, h₀⟩ := (empty_inv q.s_.length).alloc_column (k := 0) (d := 0) le_rfl (Nat.zero_le _)
    (Nat.zero_le _) fun hlt => absurd hlt (Nat.not_lt_zero 0)
  obtain ⟨u, hu, hinv, hentry⟩ := hl.write (v := i - 1) h₀.inv (k := 0) (d := 0) le_rfl (Nat.zero_le _)
    (hf.first_le le_rfl).1 fun e he => absurd he (by omega)
  have hgood : Good (meets q.s_ q.t_) (Inv q.s_.length) entry u := by
    refine ⟨hinv, by rw [hentry]; rfl, fun {k d v} h => ?_⟩
    rw [hentry] at h
    split_ifs at h with he
    · obtain ⟨rfl, rfl⟩ := he
      obtain rfl := Option.some.inj h
      exact ⟨le_rfl, hf⟩
    · rw [h₀.entries, entry_eq_none fun hlt => absurd hlt.2 (Nat.not_lt_zero d)] at h
      exact absurd h.symm (Option.some_ne_none v)
  have hsearch : searchCost (UKK q.s_ q.t_ (q.s_.length - q.t_.length)) q.s_.length fuel 0 u = _ :=
    searchCost_levenshtein (fun _ => Good (meets q.s_ q.t_) (Inv q.s_.length) entry) hfuel
      (fun d u hd h => h.UKK (d := d) hl (computes q.s_ q.t_ q.s_.length) (by omega) _) hgood
  simp only [compute_editdistance, hu₀, hi, show set_U u₀ 0 0 (i - 1) = some u from hu,
    Option.bind_eq_bind, Option.bind_some]
  exact hsearch

end EditDistanceDynamicUKK

theorem dynamicUKK_eq {s t : List α} {fuel : ℕ} (hm : max s.length t.length + 1 ≤ 2147483647)
    (hfuel : levenshtein s t < fuel) : dynamicUKK fuel s t = some (levenshtein s t : ℤ) := by
  obtain ⟨q, hq⟩ := (Sequences.newLonger_isSome s t).2 hm
  obtain ⟨hs, ht, hlev⟩ := Sequences.newLonger_eq hq
  rw [dynamicUKK, hq, Option.bind_eq_bind, Option.bind_some, ← hlev]
  exact EditDistanceDynamicUKK.compute_editdistance_eq (by omega) (by omega)

end EditDistance

end TaseVerifier
