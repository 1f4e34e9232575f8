import TaseVerifier.EditDistance.Diagonals

/-! `EditDistanceFullUKK`: the frontiers of all diagonals for one edit cost after the
other, in two rows used in turn. -/

namespace TaseVerifier

open Library

namespace EditDistance

variable {α : Type} [DecidableEq α]

namespace EditDistanceFullUKK

def NEG_INF : ℤ := INT_MIN

/-- The macro computes what `get_row` does. -/
def ROW_INDEX (x : ℤ) : ℕ := get_row x

/-- `ROW_INDEX(i) + ((j % 2)*(m_*2))` -/
def cell (m_ : ℕ) (i j : ℤ) : ℕ := ROW_INDEX i + (j % 2).toNat * (m_ * 2)

def U (q : Sequences α) (U_ : Buffer ℤ) (i j : ℤ) : Option ℤ :=
  if i.natAbs > j then some NEG_INF else U_.read (cell q.m_ i j)

def set_U (q : Sequences α) (U_ : Buffer ℤ) (i j v : ℤ) : Option (Buffer ℤ) :=
  U_.write (cell q.m_ i j) v

def compute_U (q : Sequences α) (U_ : Buffer ℤ) (ab d : ℤ) : Option ℤ :=
  if ab.natAbs > d then some NEG_INF
  else if ab = 0 ∧ d = 0 then do extend q.s_ q.t_ ab (← U q U_ ab d)
  else do
    let d1 ← U q U_ (ab + 1) (d - 1)
    let d2 ← U q U_ ab (d - 1)
    let d3 ← U q U_ (ab - 1) (d - 1)
    extend q.s_ q.t_ ab (max d1 (max (d2 + 1) (d3 + 1)))

/-- `dist = compute_U(i, d); set_U(i, d, dist);` -/
def update (q : Sequences α) (d i : ℤ) (U_ : Buffer ℤ) : Option (Buffer ℤ) := do
  let dist ← compute_U q U_ i d
  set_U q U_ i d dist

/-- The two loops take `i` from `0` down to `-d` and from `1` up to `d`. -/
def UKK (q : Sequences α) (ab d : ℤ) (U_ : Buffer ℤ) : Option (ℤ × Buffer ℤ) := do
  let U_ ← (List.range' 0 (d + 1).toNat).foldlM (fun U_ (i : ℕ) => update q d (-i) U_) U_
  let U_ ← (List.range' 1 d.toNat).foldlM (fun U_ (i : ℕ) => update q d i U_) U_
  if ab.natAbs > d then some (NEG_INF, U_) else do some (← U q U_ ab d, U_)

def compute_editdistance (fuel : ℕ) (q : Sequences α) : Option ℤ := do
  let size ← int (q.m_ * 4)
  let U_ : Buffer ℤ := Buffer.uninit size.toNat
  let i ← firstMismatch q.s_ q.t_ 1
  let U_ ← set_U q U_ 0 0 (i - 1)
  searchCost (UKK q (q.s_.length - q.t_.length)) q.s_.length fuel 0 U_

end EditDistanceFullUKK

/-- Construction and `compute_editdistance` of `EditDistanceFullUKK`. -/
def fullUKK (fuel : ℕ) (s t : List α) : Option ℤ := do
  EditDistanceFullUKK.compute_editdistance fuel (← Sequences.newLonger s t)

namespace EditDistanceFullUKK

theorem cell_eq (m_ : ℕ) (k : ℤ) (d : ℕ) : cell m_ k d = get_row k + d % 2 * (m_ * 2) := by
  unfold cell ROW_INDEX
  rw [show ((d : ℤ) % 2).toNat = d % 2 by omega]

theorem cell_lt {m_ : ℕ} {k : ℤ} {d : ℕ} (h : k.natAbs ≤ d) (hd : d < m_) : cell m_ k d < m_ * 4 := by
  have hr := get_row_le h
  rw [cell_eq]
  rcases Nat.mod_two_eq_zero_or_one d with he | he <;> rw [he] <;> omega

theorem cell_ne {m_ : ℕ} {k k' : ℤ} {d d' : ℕ} (h : k.natAbs ≤ d) (hd : d < m_)
    (h' : k'.natAbs ≤ d') (hd' : d' < m_) (hne : k ≠ k' ∨ d % 2 ≠ d' % 2) :
    cell m_ k d ≠ cell m_ k' d' := by
  have hr := get_row_le h
  have hr' := get_row_le h'
  have hinj : get_row k = get_row k' → k = k' := get_row_inj
  rw [cell_eq, cell_eq]
  rcases Nat.mod_two_eq_zero_or_one d with he | he <;>
    rcases Nat.mod_two_eq_zero_or_one d' with he' | he' <;> rw [he, he'] <;> omega

/-- The entry of diagonal `k` for cost `d` is its frontier. -/
def Entry (q : Sequences α) (U_ : Buffer ℤ) (k : ℤ) (d : ℕ) : Prop :=
  ∃ v, U_.read (cell q.m_ k d) = some v ∧ Frontier (meets q.s_ q.t_) k d v

/-- In round `d` the row before is full, and of its own row the diagonals in `done`. In
round 0 the only entry is there from the start. -/
structure Round (q : Sequences α) (d : ℕ) (done : ℤ → Prop) (U_ : Buffer ℤ) : Prop where
  size : U_.size = q.m_ * 4
  before : ∀ k : ℤ, k.natAbs ≤ d - 1 → Entry q U_ k (d - 1)
  current : ∀ k : ℤ, k.natAbs ≤ d → done k → Entry q U_ k d

variable {q : Sequences α} {U_ U' : Buffer ℤ} {k v : ℤ} {d : ℕ} {done done' : ℤ → Prop}

theorem Round.mono (h : Round q d done U_) (hdone : ∀ k : ℤ, k.natAbs ≤ d → done' k → done k) :
    Round q d done' U_ :=
  ⟨h.size, h.before, fun k hk hd => h.current k hk (hdone k hk hd)⟩

theorem Round.store (h : Round q d done U_) (hk : k.natAbs ≤ d) (hd : d < q.m_)
    (hs : Buffer.Stores U_ U' (cell q.m_ k d) v) (hv : Frontier (meets q.s_ q.t_) k d v) :
    Round q d (fun k' => done k' ∨ k' = k) U' where
  size := hs.size.trans h.size
  before k' hk' := by
    by_cases he : k' = k ∧ d = 0
    · obtain ⟨rfl, rfl⟩ := he
      exact ⟨v, hs.stored, hv⟩
    · obtain ⟨w, hw, hf⟩ := h.before k' hk'
      exact ⟨w, by rw [hs.kept _ (cell_ne hk' (by omega) hk hd (by omega)), hw], hf⟩
  current k' hk' hor := by
    by_cases he : k' = k
    · subst he
      exact ⟨v, hs.stored, hv⟩
    · obtain ⟨w, hw, hf⟩ := h.current k' hk' (hor.resolve_right he)
      exact ⟨w, by rw [hs.kept _ (cell_ne hk' hd hk hd (Or.inl he)), hw], hf⟩

theorem Round.U (h : Round q (d + 1) done U_) (k : ℤ) :
    ∃ v, EditDistanceFullUKK.U q U_ k ((d + 1 : ℕ) - 1 : ℤ) = some v ∧
      Frontier (meets q.s_ q.t_) k d v := by
  unfold EditDistanceFullUKK.U
  rw [show ((d + 1 : ℕ) - 1 : ℤ) = d by omega]
  split_ifs with hk
  · exact ⟨NEG_INF, rfl, frontier_of_lt (by omega) (by decide)⟩
  · exact h.before k (by omega)

theorem Round.compute_U (h : Round q d done U_) (hk : k.natAbs ≤ d) :
    ∃ v, compute_U q U_ k d = some v ∧ Frontier (meets q.s_ q.t_) k d v := by
  unfold EditDistanceFullUKK.compute_U
  rw [if_neg (by omega)]
  cases d with
  | zero =>
    obtain rfl : k = 0 := by omega
    obtain ⟨v, hv, hf⟩ := h.before 0 le_rfl
    obtain ⟨w, hw, hf'⟩ := extend_launch (hf.launch le_rfl)
    refine ⟨w, ?_, hf'⟩
    rw [if_pos (by decide), EditDistanceFullUKK.U, if_neg (by decide)]
    rw [Option.bind_eq_bind, Option.bind_eq_some_iff]
    exact ⟨v, hv, hw⟩
  | succ d =>
    obtain ⟨d1, h1, hf1⟩ := h.U (k + 1)
    obtain ⟨d2, h2, hf2⟩ := h.U k
    obtain ⟨d3, h3, hf3⟩ := h.U (k - 1)
    obtain ⟨w, hw, hf⟩ := extend_launch (Launch.start hf1 hf2 hf3 hk rfl)
    refine ⟨w, ?_, hf⟩
    rw [if_neg (by omega), h1, h2, h3]
    exact hw

theorem Round.update (h : Round q d done U_) (hk : k.natAbs ≤ d) (hd : d < q.m_) :
    ∃ U', update q d k U_ = some U' ∧ Round q d (fun k' => done k' ∨ k' = k) U' := by
  obtain ⟨v, hv, hf⟩ := h.compute_U hk
  obtain ⟨U', hw, hs⟩ := Buffer.write_stores (b := U_) (h.size.symm ▸ cell_lt hk hd) v
  refine ⟨U', ?_, h.store hk hd hs hf⟩
  unfold EditDistanceFullUKK.update
  rw [hv]
  exact hw

/-- A round fills its row and is the round before the next. -/
theorem Round.UKK (h : Round q d (fun _ => False) U_) (hd : d < q.m_) (ab : ℤ) :
    ∃ v U', UKK q ab d U_ = some (v, U') ∧ Frontier (meets q.s_ q.t_) ab d v ∧
      Round q (d + 1) (fun _ => False) U' := by
  obtain ⟨U₁, hU₁, h₁⟩ := exists_foldlM_range' (a := 0) (n := d + 1)
    (f := fun U_ i => EditDistanceFullUKK.update q d (-(i : ℤ)) U_)
    (P := fun i => Round q d fun k => k ≤ 0 ∧ k.natAbs < i)
    (fun i U_ _ hi hc => by
      obtain ⟨U', hu, hc'⟩ := hc.update (k := -i) (by omega) hd
      exact ⟨U', hu, hc'.mono fun k _ hk => by omega⟩)
    (h.mono fun k _ hk => by omega)
  obtain ⟨U₂, hU₂, h₂⟩ := exists_foldlM_range' (a := 1) (n := d)
    (f := fun U_ i => EditDistanceFullUKK.update q d i U_)
    (P := fun i => Round q d fun k => k ≤ 0 ∨ k.natAbs < i)
    (fun i U_ _ hi hc => by
      obtain ⟨U', hu, hc'⟩ := hc.update (k := i) (by omega) hd
      exact ⟨U', hu, hc'.mono fun k _ hk => by omega⟩)
    (h₁.mono fun k hk _ => by omega)
  have hnext : Round q (d + 1) (fun _ => False) U₂ :=
    ⟨h₂.size, fun k hk => h₂.current k hk (by omega), fun _ _ hk => hk.elim⟩
  unfold EditDistanceFullUKK.UKK
  rw [show ((d : ℤ) + 1).toNat = d + 1 by omega, show (d : ℤ).toNat = d from Int.toNat_natCast d,
    hU₁, Option.bind_eq_bind, Option.bind_some, hU₂]
  by_cases hab : (ab.natAbs : ℤ) > d
  · exact ⟨NEG_INF, U₂, if_pos hab, frontier_of_lt (by omega) (by decide), hnext⟩
  · obtain ⟨v, hv, hf⟩ := h₂.current ab (by omega) (by omega)
    refine ⟨v, U₂, ?_, hf, hnext⟩
    rw [Option.bind_eq_bind, Option.bind_some, if_neg hab, EditDistanceFullUKK.U, if_neg hab, hv]
    rfl

theorem compute_editdistance_eq {fuel : ℕ} (hst : q.t_.length ≤ q.s_.length)
    (hm : q.m_ * 4 ≤ 2147483647) (hfuel : levenshtein q.s_ q.t_ < fuel) :
    compute_editdistance fuel q = some (levenshtein q.s_ q.t_ : ℤ) := by
  have hL := levenshtein_le_max q.s_ q.t_
  have hq : q.s_.length < q.m_ := Nat.lt_succ_self _
  obtain ⟨i, hi, hf⟩ := firstMismatch_one hst
  obtain ⟨U_, hU, hs⟩ := Buffer.write_stores (b := Buffer.uninit (q.m_ * 4)) (i := cell q.m_ 0 0)
    (by rw [Buffer.size_uninit]; exact cell_lt (d := 0) le_rfl (by omega)) (i - 1)
  have h : Round q 0 (fun _ => False) U_ := by
    refine ⟨hs.size.trans (Buffer.size_uninit _), fun k hk => ?_, fun _ _ hk => hk.elim⟩
    obtain rfl : k = 0 := by omega
    exact ⟨i - 1, hs.stored, hf⟩
  have hsize : int ((q.m_ : ℤ) * 4) = some ((q.m_ * 4 : ℕ) : ℤ) := by
    rw [int_eq (by omega) (by omega)]
    push_cast
    rfl
  have hset : set_U q (Buffer.uninit (q.m_ * 4)) 0 0 (i - 1) = some U_ := hU
  have hsearch : searchCost (UKK q (q.s_.length - q.t_.length)) q.s_.length fuel 0 U_ = _ :=
    searchCost_levenshtein (fun d => Round q d fun _ => False) hfuel
      (fun d u hd h => h.UKK (by omega) _) h
  simp -implicitDefEqProofs only [compute_editdistance, hsize, Int.toNat_natCast, hi, hset,
    Option.bind_eq_bind, Option.bind_some]
  exact hsearch

theorem compute_editdistance_eq_none (fuel : ℕ) (hm : ¬ q.m_ * 4 ≤ 2147483647) :
    compute_editdistance fuel q = none := by
  unfold compute_editdistance
  rw [int_eq_none (by omega)]
  rfl

end EditDistanceFullUKK

/-- The two rows have twice the length of the longer sequence, and all of it must fit `int`. -/
theorem fullUKK_eq {s t : List α} {fuel : ℕ} (hfuel : levenshtein s t < fuel) :
    fullUKK fuel s t = if (max s.length t.length + 1) * 4 ≤ 2147483647 then
      some (levenshtein s t : ℤ) else none := by
  unfold fullUKK
  cases hq : Sequences.newLonger s t with
  | none =>
    have h := (Sequences.newLonger_isSome s t).not.1 (by simp [hq])
    rw [if_neg (by omega)]
    rfl
  | some q =>
    obtain ⟨hs, ht, hlev⟩ := Sequences.newLonger_eq hq
    rw [Option.bind_eq_bind, Option.bind_some, ← hs, ← hlev]
    split_ifs with hm
    · exact EditDistanceFullUKK.compute_editdistance_eq (by omega) hm (by omega)
    · exact EditDistanceFullUKK.compute_editdistance_eq_none fuel hm

end EditDistance

end TaseVerifier
