import TaseVerifier.EditDistance.StackUKK

/-! `EditDistanceStaticUKK`: the entries are kept in a map from pairs of diagonal and edit
cost. -/

namespace TaseVerifier

open Library

namespace EditDistance

variable {α : Type} [DecidableEq α]

namespace EditDistanceStaticUKK

/-- `std::map<std::pair<int,int>, ValueType>` -/
abbrev Map := ℤ × ℤ → Option ℤ

/-- `operator[]` puts a zero for a key the map has not. -/
def U (u : Map) (i j : ℤ) : Option (ℤ × Map) :=
  if i.natAbs > j then some (INT_MIN, u)
  else match u (i, j) with
    | some v => some (v, u)
    | none => some (0, Function.update u (i, j) (some 0))

def computed_U (u : Map) (i j : ℤ) : Option Bool :=
  if i.natAbs > j then some true else some (u (i, j)).isSome

def set_U (u : Map) (i j v : ℤ) : Option Map := some (Function.update u (i, j) (some v))

def ops : TableOps Map := ⟨computed_U, U, set_U⟩

def compute_U (s t : List α) (ab d : ℤ) (u : Map) : Option (ℤ × Map) := do
  if (← computed_U u ab d) then U u ab d
  else StackUKK.fromPredecessors ops (extendUnsigned s t) ab d u

def UKK (s t : List α) (ab d : ℤ) (u : Map) : Option (ℤ × Map) :=
  StackUKK.UKK ops (compute_U s t) ab d u

def compute_editdistance (fuel : ℕ) (q : Sequences α) : Option ℤ := do
  let i ← firstMismatch q.s_ q.t_ 1
  let u ← set_U (fun _ => none) 0 0 (i - 1)
  searchCost (UKK q.s_ q.t_ (q.s_.length - q.t_.length)) q.s_.length fuel 0 u

end EditDistanceStaticUKK

/-- Construction and `compute_editdistance` of `EditDistanceStaticUKK`. -/
def staticUKK (fuel : ℕ) (s t : List α) : Option ℤ := do
  EditDistanceStaticUKK.compute_editdistance fuel (← Sequences.newLonger s t)

namespace EditDistanceStaticUKK

open StackUKK

def entry (u : Map) (k : ℤ) (d : ℕ) : Option ℤ := if k.natAbs ≤ d then u (k, d) else none

theorem lawful (cap : ℕ) : Lawful ops cap (fun _ => True) entry where
  computed {u k d} _ := by
    change computed_U u k d = _
    by_cases hk : k.natAbs ≤ d
    · rw [computed_U, if_neg (by omega), entry, if_pos hk, decide_eq_false (not_lt.2 hk),
        Bool.false_or]
    · rw [computed_U, if_pos (by omega), decide_eq_true (not_le.1 hk), Bool.true_or]
  read {u k d v} _ h := by
    unfold entry at h
    split_ifs at h with hk
    simp only [ops, U, if_neg (show ¬ (k.natAbs : ℤ) > d by omega), h]
  outside {u k d} hk := if_pos (by omega)
  write {u k d v} _ hk _ _ _ := by
    refine ⟨_, rfl, trivial, fun k' d' => ?_⟩
    unfold entry
    by_cases he : k' = k ∧ d' = d
    · obtain ⟨rfl, rfl⟩ := he
      rw [if_pos hk, if_pos ⟨rfl, rfl⟩, Function.update_self]
    · rw [if_neg he, Function.update_of_ne fun h => he (by
        simp only [Prod.mk.injEq] at h
        exact ⟨h.1, by omega⟩)]
  writeOutside {u k d} _ hk := by
    refine ⟨_, rfl, trivial, funext fun k' => funext fun d' => ?_⟩
    unfold entry
    split_ifs with hk'
    · rw [Function.update_of_ne]
      intro he
      simp only [Prod.mk.injEq] at he
      omega
    · rfl

theorem computes (s t : List α) : Computes (meets s t) (fun _ => True) entry (compute_U s t) := by
  intro u k d h hpar
  obtain ⟨hk, hc, hU⟩ | ⟨v, hk, hc, hU, hf⟩ | ⟨e, rfl, hk, hc⟩ := h.cases (lawful d) k d
  · refine ⟨INT_MIN, ?_, frontier_of_lt hk (by decide), fun _ => rfl⟩
    rw [compute_U, show computed_U u k d = _ from hc]
    exact hU
  · refine ⟨v, ?_, hf, fun hlt => absurd hk (not_le.2 hlt)⟩
    rw [compute_U, show computed_U u k d = _ from hc]
    exact hU
  · obtain ⟨v, hv, hf⟩ := h.fromPredecessors (lawful e) extendUnsigned_launch hk hpar
    refine ⟨v, ?_, hf, fun hlt => absurd hk (not_le.2 hlt)⟩
    rw [compute_U, show computed_U u k (e + 1 : ℕ) = _ from hc]
    exact hv

theorem compute_editdistance_eq {q : Sequences α} {fuel : ℕ} (hst : q.t_.length ≤ q.s_.length)
    (hfuel : levenshtein q.s_ q.t_ < fuel) :
    compute_editdistance fuel q = some (levenshtein q.s_ q.t_ : ℤ) := by
  have hL := levenshtein_le_max q.s_ q.t_
  have hl := lawful (levenshtein q.s_ q.t_)
  obtain ⟨i, hi, hf⟩ := firstMismatch_one hst
  have hgood : Good (meets q.s_ q.t_) (fun _ => True) entry
      (Function.update (fun _ => none) (0, 0) (some (i - 1))) := by
    refine ⟨trivial, rfl, fun {k d v} h => ?_⟩
    unfold entry at h
    split_ifs at h with hk
    by_cases he : (k, (d : ℤ)) = (0, 0)
    · rw [he, Function.update_self] at h
      simp only [Prod.mk.injEq] at he
      obtain rfl := Option.some.inj h
      obtain ⟨rfl, hd⟩ := he
      obtain rfl : d = 0 := by omega
      exact ⟨hk, hf⟩
    · rw [Function.update_of_ne he] at h
      exact absurd h.symm (Option.some_ne_none v)
  have hsearch : searchCost (UKK q.s_ q.t_ (q.s_.length - q.t_.length)) q.s_.length fuel 0 _ = _ :=
    searchCost_levenshtein (fun _ => Good (meets q.s_ q.t_) (fun _ => True) entry) hfuel
      (fun d u hd h => h.UKK hl (computes q.s_ q.t_) hd _) hgood
  simp only [compute_editdistance, hi, set_U, Option.bind_eq_bind, Option.bind_some]
  exact hsearch

end EditDistanceStaticUKK

theorem staticUKK_eq {s t : List α} {fuel : ℕ} (hm : max s.length t.length + 1 ≤ 2147483647)
    (hfuel : levenshtein s t < fuel) : staticUKK fuel s t = some (levenshtein s t : ℤ) := by
  obtain ⟨q, hq⟩ := (Sequences.newLonger_isSome s t).2 hm
  obtain ⟨hs, ht, hlev⟩ := Sequences.newLonger_eq hq
  rw [staticUKK, hq, Option.bind_eq_bind, Option.bind_some, ← hlev]
  exact EditDistanceStaticUKK.compute_editdistance_eq (by omega) (by omega)

end EditDistance

end TaseVerifier
