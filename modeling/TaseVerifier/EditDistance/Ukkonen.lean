import TaseVerifier.EditDistance.Diagonals

/-! `EditDistanceUkkonen`: a recursion over diagonals and edit costs with results kept in
arrays of fixed size, indexed by the diagonal plus an offset. -/

namespace TaseVerifier

open Library

namespace EditDistance

namespace EditDistanceUkkonen

def UDIM : ℤ := 100

/-- The arrays `U_c` and `U_v`: an entry not computed has no value. -/
abbrev Table := ℤ → ℤ → Option ℤ

/-- `U_v[i+(UDIM/2)][j]` lies in the array. -/
def InArray (i j : ℤ) : Prop := 0 ≤ i + UDIM / 2 ∧ i + UDIM / 2 < UDIM ∧ 0 ≤ j ∧ j < UDIM

instance (i j : ℤ) : Decidable (InArray i j) := inferInstanceAs (Decidable (_ ∧ _))

def U (u : Table) (i j : ℤ) : Option ℤ := if InArray i j then u i j else none

def computed_U (u : Table) (i j : ℤ) : Option Bool :=
  if InArray i j then some (u i j).isSome else none

def Table.set (u : Table) (i j v : ℤ) : Table := fun i' j' => if i' = i ∧ j' = j then some v else u i' j'

def set_U (u : Table) (i j v : ℤ) : Option Table := if InArray i j then some (u.set i j v) else none

variable {α : Type} [DecidableEq α]

def Ukkonen (s t : List α) (ab d : ℤ) (u : Table) : Option (ℤ × Table) :=
  if ab.natAbs > d then some (INT_MIN, u)
  else do
    if (← computed_U u ab d) then
      let ret ← U u ab d
      some (ret, u)
    else
      let (u₁, u) ← Ukkonen s t (ab + 1) (d - 1) u
      let (u₀, u) ← Ukkonen s t ab (d - 1) u
      let (u₂, u) ← Ukkonen s t (ab - 1) (d - 1) u
      let dist ← extend s t ab (max (max u₁ (u₀ + 1)) (u₂ + 1))
      let u ← set_U u ab d dist
      some (dist, u)
termination_by (d + 1).toNat

/-- The constructor with its assertion. -/
def new (s t : List α) : Option (Sequences α) := do
  let q ← Sequences.newLonger s t
  if q.m_ < UDIM then some q else none

def compute_editdistance (fuel : ℕ) (q : Sequences α) : Option ℤ := do
  let i ← firstMismatch q.s_ q.t_ 1
  let u ← set_U (fun _ _ => none) 0 0 (i - 1)
  searchCost (Ukkonen q.s_ q.t_ (q.s_.length - q.t_.length)) q.s_.length fuel 0 u

end EditDistanceUkkonen

variable {α : Type} [DecidableEq α]

/-- Construction and `compute_editdistance` of `EditDistanceUkkonen`. -/
def ukkonen (fuel : ℕ) (s t : List α) : Option ℤ := do
  EditDistanceUkkonen.compute_editdistance fuel (← EditDistanceUkkonen.new s t)

namespace EditDistanceUkkonen

/-- Entries are frontiers in the array, and an entry's predecessors are entries. -/
structure Good (s t : List α) (u : Table) : Prop where
  zero : u 0 0 ≠ none
  frontier : ∀ k (d : ℕ) v, u k d = some v → k.natAbs ≤ d ∧ Frontier (meets s t) k d v
  parents : ∀ k (d : ℕ), u k (d + 1 : ℕ) ≠ none → ∀ k', (k - k').natAbs ≤ 1 → k'.natAbs ≤ d →
    u k' d ≠ none
  inArray : ∀ k (d : ℕ), u k d ≠ none → InArray k d

/-- Entries stay. -/
def Keeps (u u' : Table) : Prop := ∀ k e, u k e ≠ none → u' k e ≠ none

variable {s t : List α} {u u' : Table} {k v : ℤ} {d : ℕ}

theorem Good.set (h : Good s t u) (hk : k.natAbs ≤ d) (hv : Frontier (meets s t) k d v)
    (hin : InArray k d) (hpar : ∀ e, d = e + 1 → ∀ k', (k - k').natAbs ≤ 1 → k'.natAbs ≤ e → u k' e ≠ none) :
    Good s t (u.set k d v) where
  zero := by
    unfold Table.set
    split_ifs
    · exact Option.some_ne_none v
    · exact h.zero
  frontier k' d' v' h' := by
    unfold Table.set at h'
    split_ifs at h' with he
    · obtain ⟨rfl, he⟩ := he
      obtain rfl := Int.ofNat.inj he
      obtain rfl := Option.some.inj h'
      exact ⟨hk, hv⟩
    · exact h.frontier k' d' v' h'
  parents k₁ d₁ h' k' hkk hk' := by
    have hu : u k' d₁ ≠ none := by
      unfold Table.set at h'
      split_ifs at h' with he
      · obtain ⟨rfl, he⟩ := he
        exact hpar d₁ (Int.ofNat.inj he).symm k' hkk hk'
      · exact h.parents k₁ d₁ h' k' hkk hk'
    unfold Table.set
    split_ifs
    · exact Option.some_ne_none v
    · exact hu
  inArray k' d' h' := by
    unfold Table.set at h'
    split_ifs at h' with he
    · rw [he.1, he.2]
      exact hin
    · exact h.inArray k' d' h'

theorem keeps_set (u : Table) (k e v : ℤ) : Keeps u (u.set k e v) := by
  intro k' e' h
  unfold Table.set
  split_ifs
  · exact Option.some_ne_none v
  · exact h

/-- What a call that returns has done. -/
structure Returns (s t : List α) (k : ℤ) (d : ℕ) (u : Table) (v : ℤ) (u' : Table) : Prop where
  good : Good s t u'
  keeps : Keeps u u'
  frontier : Frontier (meets s t) k d v
  stored : k.natAbs ≤ d → u' k d ≠ none

/-- The three calls a new entry rests on, and what is written. -/
structure Recurses (s t : List α) (k d : ℤ) (u : Table) (v : ℤ) (u' : Table)
    (u₁ u₀ u₂ : ℤ) (v₁ v₀ v₂ : Table) : Prop where
  up : Ukkonen s t (k + 1) (d - 1) u = some (u₁, v₁)
  same : Ukkonen s t k (d - 1) v₁ = some (u₀, v₀)
  down : Ukkonen s t (k - 1) (d - 1) v₀ = some (u₂, v₂)
  dist : extend s t k (max (max u₁ (u₀ + 1)) (u₂ + 1)) = some v
  inArray : InArray k d
  table : u' = v₂.set k d v

theorem ukkonen_cases {d : ℤ} (h : Ukkonen s t k d u = some (v, u')) :
    (d < k.natAbs ∧ v = INT_MIN ∧ u' = u) ∨
    (k.natAbs ≤ d ∧ u k d = some v ∧ InArray k d ∧ u' = u) ∨
    (k.natAbs ≤ d ∧ u k d = none ∧ ∃ u₁ u₀ u₂ v₁ v₀ v₂, Recurses s t k d u v u' u₁ u₀ u₂ v₁ v₀ v₂) := by
  rw [Ukkonen] at h
  split_ifs at h with hk
  · simp only [Option.some.injEq, Prod.mk.injEq] at h
    exact Or.inl ⟨hk, h.1.symm, h.2.symm⟩
  · refine Or.inr ?_
    unfold computed_U at h
    split_ifs at h with hin
    · simp only [Option.bind_eq_bind, Option.bind_some] at h
      cases hu : u k d with
      | some w =>
        simp only [hu, Option.isSome_some, if_true, U, if_pos hin, Option.bind_some,
          Option.some.injEq, Prod.mk.injEq] at h
        exact Or.inl ⟨not_lt.1 hk, by rw [h.1], hin, h.2.symm⟩
      | none =>
        simp only [hu, Option.isSome_none, Bool.false_eq_true, if_false, Option.bind_eq_some_iff,
          Prod.exists, set_U, if_pos hin, Option.some.injEq, Prod.mk.injEq] at h
        obtain ⟨u₁, v₁, h₁, u₀, v₀, h₀, u₂, v₂, h₂, dist, hd, w, rfl, rfl, rfl⟩ := h
        exact Or.inr ⟨not_lt.1 hk, rfl, u₁, u₀, u₂, v₁, v₀, v₂, h₁, h₀, h₂, hd, hin, rfl⟩
    · simp at h

theorem returns_of_some (h : Good s t u) (hr : Ukkonen s t k d u = some (v, u')) :
    Returns s t k d u v u' := by
  induction d generalizing k u v u' with
  | zero =>
    obtain ⟨hk, rfl, rfl⟩ | ⟨hk, hu, _, rfl⟩ | ⟨hk, hu, _⟩ := ukkonen_cases hr
    · exact ⟨h, fun _ _ h => h, frontier_of_lt (by omega) (by decide), fun hk' => by omega⟩
    · exact ⟨h, fun _ _ h => h, (h.frontier k 0 v hu).2, fun _ => by
        rw [hu]
        exact Option.some_ne_none v⟩
    · obtain rfl : k = 0 := by omega
      exact absurd hu h.zero
  | succ d ih =>
    obtain ⟨hk, rfl, rfl⟩ | ⟨hk, hu, _, rfl⟩ | ⟨hk, hu, u₁, u₀, u₂, v₁, v₀, v₂, hrec⟩ := ukkonen_cases hr
    · exact ⟨h, fun _ _ h => h, frontier_of_lt (by omega) (by decide), fun hk' => by omega⟩
    · exact ⟨h, fun _ _ h => h, (h.frontier k (d + 1) v hu).2, fun _ => by
        rw [hu]
        exact Option.some_ne_none v⟩
    · have hd : ((d + 1 : ℕ) : ℤ) - 1 = d := by omega
      have h₁ := ih h (hd ▸ hrec.up)
      have h₀ := ih h₁.good (hd ▸ hrec.same)
      have h₂ := ih h₀.good (hd ▸ hrec.down)
      have hkd : k.natAbs ≤ d + 1 := by omega
      obtain ⟨w, hw, hf⟩ := extend_launch (Launch.start h₁.frontier h₀.frontier h₂.frontier hkd
        (max_assoc u₁ (u₀ + 1) (u₂ + 1)))
      obtain rfl : v = w := Option.some.inj (hrec.dist.symm.trans hw)
      obtain rfl := hrec.table
      refine ⟨h₂.good.set hkd hf hrec.inArray fun e he k' hkk hk' => ?_, fun k' e' hu' => ?_, hf,
        fun _ => ?_⟩
      · obtain rfl : d = e := by omega
        have hthree : k' = k + 1 ∨ k' = k ∨ k' = k - 1 := by omega
        rcases hthree with rfl | rfl | rfl
        · exact h₂.keeps _ _ (h₀.keeps _ _ (h₁.stored hk'))
        · exact h₂.keeps _ _ (h₀.stored hk')
        · exact h₂.stored hk'
      · exact keeps_set v₂ k _ v k' e' (h₂.keeps _ _ (h₀.keeps _ _ (h₁.keeps _ _ hu')))
      · simp [Table.set]

/-- The calls stay in the array when the sum of diagonal and cost does. -/
theorem exists_returns (h : Good s t u) (hup : k + d ≤ 99) (hdown : d - k ≤ 100) (hd : d < 100) :
    ∃ v u', Ukkonen s t k d u = some (v, u') := by
  induction d generalizing k u with
  | zero =>
    rw [Ukkonen]
    split_ifs with hk
    · exact ⟨_, _, rfl⟩
    · obtain rfl : k = 0 := by omega
      obtain ⟨v, hv⟩ := Option.ne_none_iff_exists'.1 h.zero
      have hin : InArray 0 0 := by decide
      exact ⟨v, u, by simp [computed_U, U, hin, hv]⟩
  | succ d ih =>
    rw [Ukkonen]
    split_ifs with hk
    · exact ⟨_, _, rfl⟩
    · have hin : InArray k (d + 1 : ℕ) := by
        unfold InArray UDIM
        omega
      have hpred : ((d + 1 : ℕ) : ℤ) - 1 = d := by omega
      cases hu : u k (d + 1 : ℕ) with
      | some v => exact ⟨v, u, by simp only [computed_U, U, if_pos hin, hu]; rfl⟩
      | none =>
        obtain ⟨u₁, v₁, h₁⟩ := ih (k := k + 1) h (by omega) (by omega) (by omega)
        have hr₁ := returns_of_some h h₁
        obtain ⟨u₀, v₀, h₀⟩ := ih (k := k) hr₁.good (by omega) (by omega) (by omega)
        have hr₀ := returns_of_some hr₁.good h₀
        obtain ⟨u₂, v₂, h₂⟩ := ih (k := k - 1) hr₀.good (by omega) (by omega) (by omega)
        have hr₂ := returns_of_some hr₀.good h₂
        obtain ⟨w, hw, -⟩ := extend_launch (Launch.start hr₁.frontier hr₀.frontier hr₂.frontier
          (by omega) (max_assoc u₁ (u₀ + 1) (u₂ + 1)))
        refine ⟨w, v₂.set k (d + 1 : ℕ) w, ?_⟩
        simp only [computed_U, if_pos hin, hu, hpred, h₁, h₀, h₂, hw, set_U, Option.bind_eq_bind,
          Option.bind_some, Option.isSome_none, Bool.false_eq_true, if_false]

/-- Predecessors towards higher diagonals are entries too. -/
theorem Good.climb (h : Good s t u) (n : ℕ) (hn : n ≤ d) (hk : (k + n).natAbs ≤ d - n)
    (hu : u k d ≠ none) : u (k + n) (d - n : ℕ) ≠ none := by
  induction n with
  | zero => simpa using hu
  | succ n ih =>
    have hstep := h.parents (k + n) (d - (n + 1)) (by
      rw [show d - (n + 1) + 1 = d - n by omega]
      exact ih (by omega) (by omega))
    exact hstep _ (by push_cast; omega) hk

/-- The table with which the search starts. -/
theorem exists_start (hst : t.length ≤ s.length) :
    ∃ i u, firstMismatch s t 1 = some i ∧ set_U (fun _ _ => none) 0 0 (i - 1) = some u ∧ Good s t u := by
  obtain ⟨i, hi, hf⟩ := firstMismatch_one hst
  have hin : InArray 0 0 := by decide
  refine ⟨i, _, hi, if_pos hin, ⟨by simp [Table.set], fun k d v h => ?_, fun k d h => ?_, fun k d h => ?_⟩⟩
  · simp only [Table.set] at h
    split_ifs at h with he
    obtain ⟨rfl, he⟩ := he
    obtain rfl : d = 0 := by omega
    obtain rfl := Option.some.inj h
    exact ⟨le_rfl, hf⟩
  · simp only [Table.set] at h
    split_ifs at h with he
    · omega
    · exact absurd rfl h
  · simp only [Table.set] at h
    split_ifs at h with he
    · rw [he.1, he.2]
      exact hin
    · exact absurd rfl h

/-- With `D` the difference of the lengths and `L` the distance, the search reaches
diagonal `(L + D) / 2`, and `49` is the last one the arrays have. -/
theorem compute_editdistance_iff {q : Sequences α} {fuel : ℕ} (hst : q.t_.length ≤ q.s_.length)
    (hm : q.m_ < UDIM) (hfuel : levenshtein q.s_ q.t_ < fuel) :
    compute_editdistance fuel q = some (levenshtein q.s_ q.t_ : ℤ) ↔
      levenshtein q.s_ q.t_ + (q.s_.length - q.t_.length) < 100 := by
  obtain ⟨i, u, hi, hu, hgood⟩ := exists_start hst
  unfold Sequences.m_ UDIM at hm
  have hL := levenshtein_le_max q.s_ q.t_
  have hdiff := length_le_add_levenshtein q.s_ q.t_
  simp only [compute_editdistance, hi, hu, Option.bind_eq_bind, Option.bind_some]
  constructor
  · intro h
    obtain ⟨e, u₁, dist, u₂, he, h₁, h₂, -⟩ := exists_of_searchCost (fun _ => Good q.s_ q.t_)
      (fun d u dist u' h hr => (returns_of_some h hr).good) (d := 0) h hgood
    obtain rfl := Int.ofNat.inj he
    have hret := returns_of_some h₁ h₂
    have hclimb := hret.good.climb ((levenshtein q.s_ q.t_ - (q.s_.length - q.t_.length)) / 2)
      (by omega) (by omega) (hret.stored (by omega))
    have hin := hret.good.inArray _ _ hclimb
    unfold InArray UDIM at hin
    omega
  · intro hlt
    refine searchCost_levenshtein (fun _ => Good q.s_ q.t_) hfuel (fun d u hd h => ?_) hgood
    obtain ⟨v, u', hv⟩ := exists_returns (k := (q.s_.length : ℤ) - q.t_.length) h
      (by omega) (by omega) (d := d) (by omega)
    have hret := returns_of_some h hv
    exact ⟨v, u', hv, hret.frontier, hret.good⟩

end EditDistanceUkkonen

open EditDistanceUkkonen in
theorem ukkonen_eq_row {s t : List α} {fuel : ℕ} (hm : max s.length t.length + 1 < 100)
    (hfuel : levenshtein s t < fuel) :
    ukkonen fuel s t = row s t ↔
      levenshtein s t + (max s.length t.length - min s.length t.length) < 100 := by
  obtain ⟨q, hq⟩ := (Sequences.newLonger_isSome s t).2 (by omega)
  obtain ⟨hs, ht, hlev⟩ := Sequences.newLonger_eq hq
  have hqm : (q.m_ : ℤ) < UDIM := by
    unfold Sequences.m_ UDIM
    omega
  have hiff := compute_editdistance_iff (by omega) hqm (hlev.symm ▸ hfuel)
  rw [hlev, hs, ht] at hiff
  rw [row_eq, if_pos (by omega)]
  simp only [ukkonen, EditDistanceUkkonen.new, hq, Option.bind_eq_bind, Option.bind_some, if_pos hqm]
  exact hiff

/-- Where the length assertion holds, the run stays in the arrays and returns what
`EditDistanceRow` does exactly when few enough edits lead from one sequence to the other:
fewer than 100, the difference of the lengths counted in. -/
theorem ukkonen_iff {s t : List α} {fuel : ℕ} (hm : max s.length t.length + 1 < 100)
    (hfuel : levenshtein s t < fuel) :
    ukkonen fuel s t = row s t ↔
      ∃ n, Edits n s t ∧ n + (max s.length t.length - min s.length t.length) < 100 := by
  rw [ukkonen_eq_row hm hfuel]
  constructor
  · intro h
    exact ⟨_, edits_levenshtein s t, h⟩
  · rintro ⟨n, he, hn⟩
    have := he.levenshtein_le
    omega

theorem ukkonen_iff_three :
    ukkonen 3 [1, 2, 3] [2, 3] = row [1, 2, 3] [2, 3] ↔
      ∃ n, Edits n [1, 2, 3] [2, 3] ∧ n + (max 3 2 - min 3 2) < 100 :=
  ukkonen_iff (by decide) (by decide)

/-- Against the empty path the diagonal of 50 blocks is the first beyond the arrays. -/
theorem ukkonen_ne_row :
    max (List.replicate 50 (0 : BitVec 64)).length ([] : List (BitVec 64)).length + 1 < 100 ∧
      ukkonen 51 (List.replicate 50 (0 : BitVec 64)) [] ≠ row (List.replicate 50 (0 : BitVec 64)) [] := by
  have hlev : levenshtein (List.replicate 50 (0 : BitVec 64)) [] = 50 := by
    rw [levenshtein_nil_right, List.length_replicate]
  refine ⟨by decide, fun h => ?_⟩
  rw [ukkonen_eq_row (by decide) (by omega), hlev, List.length_replicate] at h
  exact absurd h (by decide)

end EditDistance

end TaseVerifier
