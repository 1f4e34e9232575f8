import Mathlib.Data.Finset.Card
import TaseVerifier.Library.Nearest

/-! What the two clusterers share: the data set and its distance, the medoids chosen so far,
and the search for the medoid nearest to a datum. An assertion that fails, an access outside
a vector and a conversion out of range are `none`. -/

namespace TaseVerifier.Cluster

open Library

/-- Data are named by their index, which `medoids_` keeps as an `int`. -/
structure DataSet where
  size : ℕ
  size_le : size ≤ 2 ^ 31
  distance : ℕ → ℕ → ℕ

/-- An entry of `medoids_` is given as the `unsigned` number it is compared as. -/
structure Clusterer where
  count : ℕ
  clusters : List ℕ
  medoids : List ℕ
  medoid_set : Finset ℕ
  cost : ℕ
  deriving DecidableEq

/-- `INT_MAX` -/
def intMax : ℕ := 2 ^ 31 - 1

/-- The conversion of a non-negative `double` to `int`. -/
def toInt (v : ℕ) : Option ℕ := if v ≤ intMax then some v else none

/-- `metric_->distance(data_[index], data_[m])` -/
def DataSet.measure (D : DataSet) (index m : ℕ) : Option ℕ :=
  if m < D.size then some (D.distance index m) else none

namespace Clusterer

variable (D : DataSet) (s : Clusterer)

def is_medoid (index : ℕ) : Bool := index ∈ s.medoid_set

/-- The loop of `find_closest_cluster` over the medoids from `id` on. -/
def closestLoop (index : ℕ) : List ℕ → (id min_dist min_id : ℕ) → Option (ℕ × ℕ)
  | [], _, min_dist, min_id => do
    let min_dist ← toInt min_dist
    return (min_dist, min_id)
  | m :: rest, id, min_dist, min_id => do
    let dist ← D.measure index m
    if dist < min_dist then closestLoop index rest (id + 1) dist id
      else closestLoop index rest (id + 1) min_dist min_id

/-- The position of a medoid; it is an assertion that there is one. -/
def medoidId (index : ℕ) : Option ℕ := s.medoids.findIdx? (· == index)

def find_closest_cluster (index : ℕ) : Option (ℕ × ℕ) :=
  if s.is_medoid index then do
    let id ← s.medoidId index
    return (0, id)
  else match s.medoids with
    | [] => none
    | m :: rest => do
      let min_dist ← D.measure index m
      closestLoop D index rest 1 min_dist 0

def assign_to_cluster (index : ℕ) : Option Clusterer := do
  let (_, closest) ← s.find_closest_cluster D index
  return { s with clusters := s.clusters.set index closest }

def assign_all : Option Clusterer :=
  (List.range D.size).foldlM (fun s i => s.assign_to_cluster D i) s

/-! ### The invariant of the chosen medoids -/

/-- The medoids are distinct data and the set holds just them. -/
structure Chosen : Prop where
  nodup : s.medoids.Nodup
  lt : ∀ m ∈ s.medoids, m < D.size
  mem_set : ∀ m, m ∈ s.medoid_set ↔ m ∈ s.medoids

variable {D s}

theorem Chosen.is_medoid (h : s.Chosen D) {index : ℕ} :
    s.is_medoid index = true ↔ index ∈ s.medoids := by
  rw [Clusterer.is_medoid, decide_eq_true_eq, h.mem_set]

theorem Chosen.length_le (h : s.Chosen D) : s.medoids.length ≤ D.size := by
  rw [← List.toFinset_card_of_nodup h.nodup, ← Finset.card_range D.size]
  exact Finset.card_le_card fun m hm =>
    Finset.mem_range.mpr (h.lt m (List.mem_toFinset.mp hm))

/-- Fewer medoids than data leave a datum that is none. -/
theorem exists_not_mem (chosen : List ℕ) (h : chosen.length < D.size) :
    ∃ r < D.size, r ∉ chosen := by
  by_contra hall
  push Not at hall
  have hsub : Finset.range D.size ⊆ chosen.toFinset := fun r hr =>
    List.mem_toFinset.mpr (hall r (Finset.mem_range.mp hr))
  have := (Finset.card_le_card hsub).trans (List.toFinset_card_le chosen)
  rw [Finset.card_range] at this
  omega

theorem medoidId_eq {index : ℕ} (h : index ∈ s.medoids) :
    ∃ id, s.medoidId index = some id ∧ s.medoids[id]? = some index := by
  have hsome : (s.medoidId index).isSome := by
    rw [medoidId, List.findIdx?_isSome, List.any_eq_true]
    exact ⟨index, h, beq_self_eq_true index⟩
  obtain ⟨id, hid⟩ := Option.isSome_iff_exists.mp hsome
  obtain ⟨hlt, hp, -⟩ := List.findIdx?_eq_some_iff_getElem.mp hid
  refine ⟨id, hid, ?_⟩
  rw [List.getElem?_eq_getElem hlt, eq_of_beq hp]

/-! ### The nearest medoid -/

/-- The loop keeps the nearest of the medoids `done` it has passed. -/
theorem closestLoop_spec {index : ℕ} {rest : List ℕ} (done : List ℕ)
    {min_dist min_id c : ℕ} (hlt : ∀ m ∈ rest, m < D.size) (hne : done ≠ [])
    (hd : min_dist = nearest D.distance done index) (hc : done[min_id]? = some c)
    (hdc : D.distance index c = min_dist) :
    closestLoop D index rest done.length min_dist min_id =
        none ∧ intMax < nearest D.distance (done ++ rest) index ∨
      ∃ id c, closestLoop D index rest done.length min_dist min_id =
          some (nearest D.distance (done ++ rest) index, id) ∧
        (done ++ rest)[id]? = some c ∧
        D.distance index c = nearest D.distance (done ++ rest) index ∧
        nearest D.distance (done ++ rest) index ≤ intMax := by
  induction rest generalizing done min_dist min_id c with
  | nil =>
    rw [List.append_nil, closestLoop, toInt, ← hd]
    split_ifs with h
    · exact .inr ⟨min_id, c, rfl, hc, hdc, h⟩
    · exact .inl ⟨rfl, by omega⟩
  | cons m rest ih =>
    obtain ⟨hm, hrest⟩ := List.forall_mem_cons.mp hlt
    have hlen : (done ++ [m]).length = done.length + 1 := by simp
    rw [closestLoop, DataSet.measure, if_pos hm, List.append_cons]
    simp only [Option.bind_eq_bind, Option.bind_some]
    have hnear := nearest_append (d := D.distance) (x := index) (m := m) hne
    split_ifs with h
    · have hget : (done ++ [m])[done.length]? = some m := by simp
      have := ih (done ++ [m]) hrest (by simp) (by rw [hnear, ← hd, min_eq_right h.le]) hget rfl
      rwa [hlen] at this
    · have hget : (done ++ [m])[min_id]? = some c := by
        rw [List.getElem?_append_left (List.getElem?_eq_some_iff.mp hc).1, hc]
      have := ih (done ++ [m]) hrest (by simp)
        (by rw [hnear, ← hd, min_eq_left (not_lt.mp h)]) hget hdc
      rwa [hlen] at this

/-- A search that succeeds finds the distance to the nearest medoid and the position of one
at that distance; it fails when the distance does not fit an `int`. -/
theorem find_closest_cluster_spec (h : s.Chosen D) (hne : s.medoids ≠ []) {index : ℕ}
    (h0 : D.distance index index = 0) :
    s.find_closest_cluster D index = none ∧ intMax < nearest D.distance s.medoids index ∨
      ∃ id c, s.find_closest_cluster D index =
          some (nearest D.distance s.medoids index, id) ∧
        s.medoids[id]? = some c ∧
        D.distance index c = nearest D.distance s.medoids index ∧
        nearest D.distance s.medoids index ≤ intMax := by
  by_cases hi : index ∈ s.medoids
  · obtain ⟨id, hid, hget⟩ := medoidId_eq hi
    have hz : nearest D.distance s.medoids index = 0 := nearest_eq_zero hi h0
    refine .inr ⟨id, index, ?_, hget, by rw [hz, h0], by rw [hz]; exact Nat.zero_le _⟩
    rw [find_closest_cluster, if_pos (h.is_medoid.mpr hi), hid, hz]
    rfl
  · obtain ⟨m, rest, hm⟩ := List.exists_cons_of_ne_nil hne
    have hlt := h.lt
    rw [hm] at hlt
    obtain ⟨hm₀, hrest⟩ := List.forall_mem_cons.mp hlt
    have hget : [m][0]? = some m := rfl
    have := closestLoop_spec [m] hrest (by simp) rfl hget
      (nearest_singleton (d := D.distance) (x := index)).symm
    rw [find_closest_cluster, if_neg (by rw [h.is_medoid]; exact hi), hm]
    simpa only [DataSet.measure, if_pos hm₀, Option.bind_eq_bind, Option.bind_some,
      List.length_singleton, List.singleton_append, nearest_singleton] using this

/-! ### The assignment -/

/-- Each datum below `n` is assigned to a medoid of least distance. -/
def AssignedBelow (D : DataSet) (s : Clusterer) (n : ℕ) : Prop :=
  ∀ i < n, ∃ id c, s.clusters[i]? = some id ∧ s.medoids[id]? = some c ∧
    ∀ m ∈ s.medoids, D.distance i c ≤ D.distance i m

def Assigned (D : DataSet) (s : Clusterer) : Prop := s.AssignedBelow D D.size

theorem assign_to_cluster_spec (h : s.Chosen D) (hne : s.medoids ≠ []) {index : ℕ}
    (h0 : D.distance index index = 0) (hlen : index < s.clusters.length)
    (ha : s.AssignedBelow D index) :
    s.assign_to_cluster D index = none ∧ intMax < nearest D.distance s.medoids index ∨
      ∃ clusters, s.assign_to_cluster D index = some { s with clusters } ∧
        clusters.length = s.clusters.length ∧
        AssignedBelow D { s with clusters } (index + 1) ∧
        nearest D.distance s.medoids index ≤ intMax := by
  obtain ⟨hn, hbig⟩ | ⟨id, c, hf, hget, hc, hfit⟩ := find_closest_cluster_spec h hne h0
  · exact .inl ⟨by rw [assign_to_cluster, hn]; rfl, hbig⟩
  · refine .inr ⟨s.clusters.set index id, by rw [assign_to_cluster, hf]; rfl, by simp, ?_, hfit⟩
    intro i hi
    rcases Nat.lt_succ_iff_lt_or_eq.mp hi with hlt | rfl
    · obtain ⟨id', c', hs, hm, hmin⟩ := ha i hlt
      exact ⟨id', c', by rw [← hs]; exact List.getElem?_set_ne (Nat.ne_of_gt hlt), hm, hmin⟩
    · exact ⟨id, c, List.getElem?_set_self hlen, hget, fun m hm => hc ▸ nearest_le hm⟩

/-- The assignment succeeds when each distance to the nearest medoid fits an `int`, and
only then. -/
theorem assign_all_spec (h : s.Chosen D) (hne : s.medoids ≠ [])
    (h0 : ∀ i < D.size, D.distance i i = 0) (hlen : s.clusters.length = D.size) :
    s.assign_all D = none ∧ (∃ i < D.size, intMax < nearest D.distance s.medoids i) ∨
      ∃ clusters, s.assign_all D = some { s with clusters } ∧
        Assigned D { s with clusters } ∧
        ∀ i < D.size, nearest D.distance s.medoids i ≤ intMax := by
  suffices ∀ n ≤ D.size,
      (List.range n).foldlM (fun s i => s.assign_to_cluster D i) s = none ∧
        (∃ i < n, intMax < nearest D.distance s.medoids i) ∨
      ∃ clusters, (List.range n).foldlM (fun s i => s.assign_to_cluster D i) s =
          some { s with clusters } ∧ clusters.length = s.clusters.length ∧
        AssignedBelow D { s with clusters } n ∧
        ∀ i < n, nearest D.distance s.medoids i ≤ intMax by
    obtain hnone | ⟨clusters, he, -, ha, hfit⟩ := this D.size le_rfl
    · exact .inl hnone
    · exact .inr ⟨clusters, he, ha, hfit⟩
  intro n hn
  induction n with
  | zero => exact .inr ⟨s.clusters, rfl, rfl, by simp [AssignedBelow], by simp⟩
  | succ n ih =>
    rw [List.range_succ, List.foldlM_append]
    obtain ⟨hnone, i, hi, hbig⟩ | ⟨clusters, he, hcl, ha, hfit⟩ := ih (by omega)
    · exact .inl ⟨by rw [hnone]; rfl, i, by omega, hbig⟩
    · have hs : Chosen D { s with clusters } := ⟨h.nodup, h.lt, h.mem_set⟩
      obtain ⟨hnone, hbig⟩ | ⟨clusters', he', hcl', ha', hfit'⟩ :=
        assign_to_cluster_spec hs hne (h0 n (by omega)) (by rw [hcl, hlen]; omega) ha
      · exact .inl ⟨by rw [he]; simp [hnone], n, by omega, hbig⟩
      · refine .inr ⟨clusters', by rw [he]; simp [he'], hcl'.trans hcl, ha', ?_⟩
        intro i hi
        rcases Nat.lt_succ_iff_lt_or_eq.mp hi with hlt | rfl
        · exact hfit i hlt
        · exact hfit'

end Clusterer

end TaseVerifier.Cluster
