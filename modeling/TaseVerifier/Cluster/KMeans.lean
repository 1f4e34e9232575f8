import Mathlib.Data.List.GetD
import Mathlib.Data.Finset.Card
import Mathlib.Data.Finset.Max
import TaseVerifier.Cluster.Clusterer

/-! `KMeansClusterer`: the first hub is drawn, and each later medoid is to be a datum farthest
from those before it. While they are chosen `clusters_` serves as a shortcut: the slot of a
datum is read as the index of a datum, but the positions of medoids are written to it. -/

namespace TaseVerifier.Cluster

open Library Clusterer

namespace KMeans

/-- A new clusterer after `add_data`. -/
def new : Clusterer where
  count := 0
  clusters := []
  medoids := []
  medoid_set := ∅
  cost := intMax

variable (D : DataSet)

/-- A position after the end of the vector is written to only at its very end. -/
def set_medoid (s : Clusterer) (id index : ℕ) : Option Clusterer :=
  if index ∈ s.medoid_set ∨ index ∈ s.medoids ∨ ¬s.medoids.length ≤ id then none
  else if s.medoids.length = id then some { s with
    medoids := s.medoids ++ [index]
    medoid_set := insert index s.medoid_set }
  else none

/-- The loop over the medoids from `id` on; it stops below `max`. -/
def lessThanLoop (index slot max : ℕ) : List ℕ → (id min_dist min_id : ℕ) → Option (ℕ × ℕ)
  | [], _, min_dist, min_id => do
    let min_dist ← toInt min_dist
    return (min_dist, min_id)
  | m :: rest, id, min_dist, min_id =>
    if min_dist < max then do
      let min_dist ← toInt min_dist
      return (min_dist, min_id)
    else if m ≠ slot then do
      let dist ← D.measure index m
      if dist < min_dist then lessThanLoop index slot max rest (id + 1) dist id
        else lessThanLoop index slot max rest (id + 1) min_dist min_id
    else lessThanLoop index slot max rest (id + 1) min_dist min_id

def find_cluster_less_than (s : Clusterer) (index max : ℕ) : Option (ℕ × ℕ) :=
  if s.is_medoid index then do
    let id ← s.medoidId index
    return (0, id)
  else do
    let slot ← s.clusters[index]?
    let min_dist ← D.measure index slot
    lessThanLoop D index slot max s.medoids 0 min_dist slot

/-- One datum of the scan; `max` is the largest distance so far and whose it is. -/
def scanStep (p : Clusterer × (ℕ × ℕ)) (index : ℕ) : Option (Clusterer × (ℕ × ℕ)) := do
  let (s, max) := p
  let curr ← find_cluster_less_than D s index max.1
  let s := { s with clusters := s.clusters.set index curr.2 }
  return (s, if ¬s.is_medoid index ∧ max.1 ≤ curr.1 then (curr.1, index) else max)

/-- One turn of the loop that chooses the medoids. -/
def round (p : Clusterer × (ℕ × ℕ)) : Option (Clusterer × (ℕ × ℕ)) := do
  let (s, max) := p
  let s ← set_medoid s s.medoids.length max.2
  (List.range D.size).foldlM (scanStep D) (s, (0, 0))

/-- The turns go on until there are `count` medoids; `fuel` bounds their number. -/
def choose : (fuel : ℕ) → Clusterer × (ℕ × ℕ) → Option (Clusterer × (ℕ × ℕ))
  | 0, _ => none
  | fuel + 1, p =>
    if p.1.medoids.length < p.1.count then do
      let p ← round D p
      choose fuel p
    else some p

/-- The state before the first turn; `r` is the number drawn. -/
def start (r : Fin (2 ^ 31)) (count : ℕ) (s : Clusterer) : Clusterer × (ℕ × ℕ) :=
  ({ s with count, clusters := s.clusters.takeD D.size (r.val % D.size) }, (0, r.val % D.size))

def cluster (r : Fin (2 ^ 31)) (fuel cluster_count : ℕ) (s : Clusterer) : Option Clusterer :=
  if D.size ≤ cluster_count then do
    let s := { s with count := D.size, clusters := s.clusters.takeD D.size 0 }
    let s ← (List.range D.size).foldlM (fun s i => set_medoid s s.medoids.length i) s
    s.assign_all D
  else do
    let (s, _) ← choose D fuel (start D r cluster_count s)
    s.assign_all D

/-! ### The search with the shortcut -/

variable {D} {s : Clusterer}

/-- What the search makes of the distance of a datum: it also measures to the datum that the
slot names. -/
def estimate (D : DataSet) (slots M : List ℕ) (i : ℕ) : ℕ :=
  nearest D.distance (slots.getD i 0 :: M) i

/-- The search ends at the estimate, or below the bound and not below the estimate. The slot
it leaves is the old one or the position of a nearer medoid. -/
theorem lessThanLoop_spec {index slot max : ℕ} (hmax : max ≤ intMax) {rest : List ℕ}
    (done : List ℕ) {min_dist min_id : ℕ} (hlt : ∀ m ∈ rest, m < D.size)
    (hd : min_dist = nearest D.distance (slot :: done) index)
    (hid : min_id = slot ∨ ∃ m, done[min_id]? = some m ∧
      D.distance index m < D.distance index slot) :
    lessThanLoop D index slot max rest done.length min_dist min_id = none ∧
        intMax < nearest D.distance (slot :: (done ++ rest)) index ∨
      ∃ v id, lessThanLoop D index slot max rest done.length min_dist min_id = some (v, id) ∧
        nearest D.distance (slot :: (done ++ rest)) index ≤ intMax ∧ v ≤ intMax ∧
        (v = nearest D.distance (slot :: (done ++ rest)) index ∨
          v < max ∧ nearest D.distance (slot :: (done ++ rest)) index ≤ v) ∧
        (id = slot ∨ ∃ m, (done ++ rest)[id]? = some m ∧
          D.distance index m < D.distance index slot) := by
  induction rest generalizing done min_dist min_id with
  | nil =>
    rw [List.append_nil, lessThanLoop, toInt, ← hd]
    split_ifs with h
    · exact .inr ⟨min_dist, min_id, rfl, h, h, .inl rfl, hid⟩
    · exact .inl ⟨rfl, by omega⟩
  | cons m rest ih =>
    obtain ⟨hm, hrest⟩ := List.forall_mem_cons.mp hlt
    have hnear : nearest D.distance (slot :: (done ++ [m])) index =
        min min_dist (D.distance index m) := by
      rw [hd, ← nearest_append (by simp), List.cons_append]
    have hle : min_dist ≤ D.distance index slot := hd ▸ nearest_le (by simp)
    have hkeep : ∀ tail, min_id = slot ∨ ∃ m', (done ++ tail)[min_id]? = some m' ∧
        D.distance index m' < D.distance index slot := by
      refine fun tail => hid.imp_right ?_
      rintro ⟨m', hget, hlow⟩
      refine ⟨m', ?_, hlow⟩
      rw [List.getElem?_append_left (List.getElem?_eq_some_iff.mp hget).1, hget]
    have hlen : (done ++ [m]).length = done.length + 1 := by simp
    rw [lessThanLoop]
    split_ifs with h hne
    · have hmin : nearest D.distance (slot :: (done ++ m :: rest)) index ≤ min_dist :=
        hd ▸ nearest_mono (by simp) (by simp)
      have hfit : min_dist ≤ intMax := h.le.trans hmax
      refine .inr ⟨min_dist, min_id, by rw [toInt, if_pos hfit]; rfl, hmin.trans hfit, hfit,
        .inr ⟨h, hmin⟩, hkeep _⟩
    · rw [DataSet.measure, if_pos hm, Option.bind_eq_bind, Option.bind_some, List.append_cons,
        ← hlen]
      split_ifs with hless
      · refine ih (done ++ [m]) hrest (by rw [hnear, min_eq_right hless.le])
          (.inr ⟨m, by simp, hless.trans_le hle⟩)
      · exact ih (done ++ [m]) hrest (by rw [hnear, min_eq_left (not_lt.mp hless)]) (hkeep _)
    · obtain rfl : m = slot := not_not.mp hne
      rw [List.append_cons, ← hlen]
      exact ih (done ++ [m]) hrest (by rw [hnear, min_eq_left hle]) (hkeep _)

/-- The slots name data, and there are as many as there are data. -/
structure Slots (D : DataSet) (s : Clusterer) : Prop where
  length : s.clusters.length = D.size
  lt : ∀ c ∈ s.clusters, c < D.size

theorem Slots.set {i c : ℕ} (h : Slots D s) (hc : c < D.size) :
    Slots D { s with clusters := s.clusters.set i c } where
  length := by rw [List.length_set, h.length]
  lt c' hc' := by
    rcases List.mem_or_eq_of_mem_set hc' with h' | rfl
    · exact h.lt c' h'
    · exact hc

theorem Slots.getElem? (h : Slots D s) {i : ℕ} (hi : i < D.size) :
    s.clusters[i]? = some (s.clusters.getD i 0) := by
  have hlen : i < s.clusters.length := h.length.symm ▸ hi
  rw [List.getD_eq_getElem _ _ hlen, List.getElem?_eq_getElem hlen]

theorem find_cluster_less_than_spec (h : s.Chosen D) (hs : Slots D s) {index max : ℕ}
    (hi : index ∉ s.medoids) (hlt : index < D.size) (hmax : max ≤ intMax) :
    find_cluster_less_than D s index max = none ∧
        intMax < estimate D s.clusters s.medoids index ∨
      ∃ v id, find_cluster_less_than D s index max = some (v, id) ∧
        estimate D s.clusters s.medoids index ≤ intMax ∧ v ≤ intMax ∧
        (v = estimate D s.clusters s.medoids index ∨
          v < max ∧ estimate D s.clusters s.medoids index ≤ v) ∧ id < D.size ∧
        (id = s.clusters.getD index 0 ∨ ∃ m ∈ s.medoids,
          D.distance index m < D.distance index (s.clusters.getD index 0)) := by
  have hget := hs.getElem? hlt
  have hslot : s.clusters.getD index 0 < D.size := hs.lt _ (List.mem_of_getElem? hget)
  have hrun : find_cluster_less_than D s index max =
      lessThanLoop D index (s.clusters.getD index 0) max s.medoids ([] : List ℕ).length
        (D.distance index (s.clusters.getD index 0)) (s.clusters.getD index 0) := by
    rw [find_cluster_less_than, if_neg (by rw [h.is_medoid]; exact hi), hget]
    simp only [Option.bind_eq_bind, Option.bind_some, DataSet.measure, if_pos hslot]
    rfl
  obtain hnone | ⟨v, id, he, hfit, hv, hval, hid⟩ := lessThanLoop_spec hmax [] h.lt
    (nearest_singleton (d := D.distance) (x := index) (m := s.clusters.getD index 0)).symm
    (.inl rfl)
  · exact .inl ⟨hrun.trans hnone.1, hnone.2⟩
  · refine .inr ⟨v, id, hrun.trans he, hfit, hv, hval, ?_⟩
    rcases hid with rfl | ⟨m, hm, hlow⟩
    · exact ⟨hslot, .inl rfl⟩
    · exact ⟨(List.getElem?_eq_some_iff.mp hm).1.trans_le h.length_le,
        .inr ⟨m, List.mem_of_getElem? hm, hlow⟩⟩

/-! ### The scan -/

/-- `i` is the last of the data below `n` that are no medoids and have the largest
estimate. -/
def Picked (D : DataSet) (slots M : List ℕ) (n i : ℕ) : Prop :=
  i < n ∧ i ∉ M ∧ ∀ j < n, j ∉ M → estimate D slots M j ≤ estimate D slots M i ∧
    (i < j → estimate D slots M j < estimate D slots M i)

/-- The scan of the data below `n` that began in `s`. -/
structure Scanned (D : DataSet) (s : Clusterer) (n : ℕ) (p : Clusterer × (ℕ × ℕ)) :
    Prop where
  state : p.1 = { s with clusters := p.1.clusters }
  slots : Slots D p.1
  later : ∀ j ≥ n, p.1.clusters[j]? = s.clusters[j]?
  kept : ∀ j, j ∉ s.medoids →
    (∀ m ∈ s.medoids, D.distance j (s.clusters.getD j 0) ≤ D.distance j m) →
    p.1.clusters[j]? = s.clusters[j]?
  max_le : p.2.1 ≤ intMax
  best : p.2.1 = 0 ∧ (∀ j < n, j ∈ s.medoids) ∨
    Picked D s.clusters s.medoids n p.2.2 ∧ p.2.1 = estimate D s.clusters s.medoids p.2.2

theorem scanned_zero (h : Slots D s) : Scanned D s 0 (s, (0, 0)) where
  state := rfl
  slots := h
  later _ _ := rfl
  kept _ _ _ := rfl
  max_le := Nat.zero_le _
  best := .inl ⟨rfl, by simp⟩

/-- A new largest estimate, or one that is below the largest so far. -/
theorem picked_step {slots M : List ℕ} {n : ℕ} {max : ℕ × ℕ} (hn : n ∉ M)
    (h : max.1 = 0 ∧ (∀ j < n, j ∈ M) ∨
      Picked D slots M n max.2 ∧ max.1 = estimate D slots M max.2) :
    (max.1 ≤ estimate D slots M n → Picked D slots M (n + 1) n) ∧
      (estimate D slots M n < max.1 →
        Picked D slots M (n + 1) max.2 ∧ max.1 = estimate D slots M max.2) := by
  constructor
  · refine fun hle => ⟨Nat.lt_succ_self n, hn, fun j hj hjM => ?_⟩
    rcases Nat.lt_succ_iff_lt_or_eq.mp hj with hlt | rfl
    · rcases h with ⟨-, hall⟩ | ⟨⟨-, -, hbest⟩, hval⟩
      · exact absurd (hall j hlt) hjM
      · exact ⟨(hbest j hlt hjM).1.trans (hval ▸ hle), fun h' => absurd h' (by omega)⟩
    · exact ⟨le_rfl, fun h' => absurd h' (lt_irrefl j)⟩
  · intro hlt
    rcases h with ⟨h0, -⟩ | ⟨⟨hi, hiM, hbest⟩, hval⟩
    · omega
    · refine ⟨⟨by omega, hiM, fun j hj hjM => ?_⟩, hval⟩
      rcases Nat.lt_succ_iff_lt_or_eq.mp hj with hlt' | rfl
      · exact hbest j hlt' hjM
      · rw [hval] at hlt
        exact ⟨hlt.le, fun _ => hlt⟩

/-- A medoid takes its position for its slot and is never the largest. -/
theorem Scanned.step_medoid (h : s.Chosen D) {n : ℕ} {p : Clusterer × (ℕ × ℕ)}
    (hp : Scanned D s n p) (hm : n ∈ s.medoids) :
    ∃ p', scanStep D p n = some p' ∧ Scanned D s (n + 1) p' := by
  obtain ⟨⟨count, clusters, medoids, medoid_set, cost⟩, max⟩ := p
  obtain ⟨hstate, hslots, hlater, hkept, hmax, hbest⟩ := hp
  obtain ⟨rfl, -, rfl, rfl, rfl⟩ := Clusterer.mk.inj hstate
  obtain ⟨id, hid, hget⟩ := medoidId_eq hm
  have hlt : id < D.size := (List.getElem?_eq_some_iff.mp hget).1.trans_le h.length_le
  have hmed : s.is_medoid n = true := h.is_medoid.mpr hm
  have hset : ∀ j, j ≠ n → (clusters.set n id)[j]? = clusters[j]? := fun j hj =>
    List.getElem?_set_ne hj.symm
  refine ⟨({ s with clusters := clusters.set n id }, max), ?_, rfl, hslots.set hlt, ?_, ?_,
    hmax, ?_⟩
  · rw [scanStep, find_cluster_less_than]
    simp only [is_medoid, medoidId] at hmed hid ⊢
    simp [hmed, hid]
  · intro j hj
    exact (hset j (by omega)).trans (hlater j (by omega))
  · intro j hj hfar
    exact (hset j fun he => hj (he ▸ hm)).trans (hkept j hj hfar)
  · obtain ⟨h0, hall⟩ | ⟨⟨hi, hiM, hb⟩, hval⟩ := hbest
    · refine .inl ⟨h0, fun j hj => ?_⟩
      rcases Nat.lt_succ_iff_lt_or_eq.mp hj with hlt' | rfl
      · exact hall j hlt'
      · exact hm
    · refine .inr ⟨⟨hi.trans (Nat.lt_succ_self n), hiM, fun j hj hjM => hb j ?_ hjM⟩, hval⟩
      exact lt_of_le_of_ne (Nat.le_of_lt_succ hj) fun he => hjM (he ▸ hm)

theorem Scanned.step_datum (h : s.Chosen D) {n : ℕ} {p : Clusterer × (ℕ × ℕ)}
    (hp : Scanned D s n p) (hn : n < D.size) (hm : n ∉ s.medoids) :
    scanStep D p n = none ∧ intMax < estimate D s.clusters s.medoids n ∨
      ∃ p', scanStep D p n = some p' ∧ Scanned D s (n + 1) p' ∧
        estimate D s.clusters s.medoids n ≤ intMax := by
  obtain ⟨⟨count, clusters, medoids, medoid_set, cost⟩, max⟩ := p
  obtain ⟨hstate, hslots, hlater, hkept, hmax, hbest⟩ := hp
  obtain ⟨rfl, -, rfl, rfl, rfl⟩ := Clusterer.mk.inj hstate
  have hmed : ({ s with clusters } : Clusterer).is_medoid n = false :=
    Bool.eq_false_iff.mpr fun h' => hm (h.is_medoid.mp h')
  have hslot : clusters.getD n 0 = s.clusters.getD n 0 := by
    rw [List.getD_eq_getElem?_getD, List.getD_eq_getElem?_getD]
    exact congrArg (Option.getD · 0) (hlater n le_rfl)
  have hest : estimate D clusters s.medoids n = estimate D s.clusters s.medoids n := by
    rw [estimate, estimate, hslot]
  have hch : Chosen D { s with clusters } := ⟨h.nodup, h.lt, h.mem_set⟩
  have hfind := find_cluster_less_than_spec hch hslots hm hn hmax
  dsimp only at hfind
  rw [hest, hslot] at hfind
  obtain ⟨hnone, hbig⟩ | ⟨v, id, hrun, hfit, hv, hval, hid_lt, hid⟩ := hfind
  · exact .inl ⟨by rw [scanStep]; simp only [hnone]; rfl, hbig⟩
  · obtain ⟨hnew, hold⟩ := picked_step hm hbest
    refine .inr ⟨({ s with clusters := clusters.set n id }, if max.1 ≤ v then (v, n) else max),
      ?_, ⟨rfl, hslots.set hid_lt, ?_, ?_, ?_, .inr ?_⟩, hfit⟩
    · rw [scanStep]
      simp only [is_medoid] at hmed
      simp [hrun, is_medoid, hmed]
    · intro j hj
      exact (List.getElem?_set_ne (by omega)).trans (hlater j (by omega))
    · intro j hj hfar
      by_cases hjn : j = n
      · subst hjn
        obtain rfl | ⟨m, hm', hlow⟩ := hid
        · rw [← hlater j le_rfl]
          exact (List.getElem?_set_self (hslots.length.symm ▸ hn)).trans
            (hslot ▸ (hslots.getElem? hn).symm)
        · exact absurd (hfar m hm') (not_le.mpr hlow)
      · exact (List.getElem?_set_ne (Ne.symm hjn)).trans (hkept j hj hfar)
    · dsimp only
      split_ifs
      · exact hv
      · exact hmax
    · dsimp only
      split_ifs with hle
      · obtain rfl | ⟨hlow, -⟩ := hval
        · exact ⟨hnew hle, rfl⟩
        · omega
      · refine hold ?_
        obtain rfl | ⟨hlow, hev⟩ := hval
        · exact not_le.mp hle
        · exact hev.trans_lt hlow

/-- The scan succeeds when each estimate fits an `int`, and only then. -/
theorem scan_spec (h : s.Chosen D) (hs : Slots D s) {n : ℕ} (hn : n ≤ D.size) :
    (List.range n).foldlM (scanStep D) (s, (0, 0)) = none ∧
        (∃ i < n, i ∉ s.medoids ∧ intMax < estimate D s.clusters s.medoids i) ∨
      ∃ p, (List.range n).foldlM (scanStep D) (s, (0, 0)) = some p ∧ Scanned D s n p ∧
        ∀ i < n, i ∉ s.medoids → estimate D s.clusters s.medoids i ≤ intMax := by
  induction n with
  | zero => exact .inr ⟨_, rfl, scanned_zero hs, by simp⟩
  | succ n ih =>
    rw [List.range_succ, List.foldlM_append]
    obtain ⟨hnone, i, hi, hbig⟩ | ⟨p, he, hp, hfit⟩ := ih (by omega)
    · exact .inl ⟨by rw [hnone]; rfl, i, by omega, hbig⟩
    · simp only [he, Option.bind_eq_bind, Option.bind_some, List.foldlM_cons, List.foldlM_nil]
      by_cases hm : n ∈ s.medoids
      · obtain ⟨p', he', hp'⟩ := hp.step_medoid h hm
        refine .inr ⟨p', by rw [he']; rfl, hp', fun i hi hiM => hfit i ?_ hiM⟩
        exact lt_of_le_of_ne (Nat.le_of_lt_succ hi) fun he => hiM (he ▸ hm)
      · obtain ⟨hnone, hbig⟩ | ⟨p', he', hp', hfit'⟩ := hp.step_datum h hn hm
        · exact .inl ⟨by rw [hnone]; rfl, n, by omega, hm, hbig⟩
        · refine .inr ⟨p', by rw [he']; rfl, hp', fun i hi hiM => ?_⟩
          rcases Nat.lt_succ_iff_lt_or_eq.mp hi with hlt | rfl
          · exact hfit i hlt hiM
          · exact hfit'

/-! ### One turn -/

/-- Before a turn: the medoids so far, and the datum to be added to them. -/
structure Before (D : DataSet) (k : ℕ) (p : Clusterer × (ℕ × ℕ)) : Prop
    extends p.1.Chosen D where
  slots : Slots D p.1
  count : p.1.count = k
  next_lt : p.2.2 < D.size
  next_not_mem : p.2.2 ∉ p.1.medoids

/-- The medoids after the turn. -/
def added (p : Clusterer × (ℕ × ℕ)) : List ℕ := p.1.medoids ++ [p.2.2]

variable {k : ℕ} {p : Clusterer × (ℕ × ℕ)}

theorem Before.set_medoid (h : Before D k p) :
    set_medoid p.1 p.1.medoids.length p.2.2 = some { p.1 with
      medoids := added p
      medoid_set := insert p.2.2 p.1.medoid_set } := by
  rw [KMeans.set_medoid, if_neg, if_pos rfl]
  · rfl
  · rw [h.mem_set]
    simp [h.next_not_mem]

theorem Before.chosen (h : Before D k p) : Chosen D { p.1 with
    medoids := added p
    medoid_set := insert p.2.2 p.1.medoid_set } where
  nodup := List.nodup_append.mpr ⟨h.nodup, List.nodup_singleton _, fun a ha b hb he =>
    h.next_not_mem (List.mem_singleton.mp hb ▸ he ▸ ha)⟩
  lt m hm := by
    rcases List.mem_append.mp hm with h' | h'
    · exact h.lt m h'
    · rw [List.mem_singleton.mp h']
      exact h.next_lt
  mem_set m := by
    rw [Finset.mem_insert, h.mem_set, added, List.mem_append, List.mem_singleton, or_comm]

/-- A turn succeeds when each estimate fits an `int`, and picks the last datum of the largest
estimate. -/
theorem round_spec (h : Before D k p) (hk : (added p).length < D.size) :
    round D p = none ∧
        (∃ i < D.size, i ∉ added p ∧ intMax < estimate D p.1.clusters (added p) i) ∨
      ∃ p', round D p = some p' ∧ Before D k p' ∧ p'.1.medoids = added p ∧
        Picked D p.1.clusters (added p) D.size p'.2.2 ∧
        (∀ i < D.size, i ∉ added p → estimate D p.1.clusters (added p) i ≤ intMax) ∧
        ∀ j, j ∉ added p →
          (∀ m ∈ added p, D.distance j (p.1.clusters.getD j 0) ≤ D.distance j m) →
          p'.1.clusters[j]? = p.1.clusters[j]? := by
  have hslots : Slots D { p.1 with
      medoids := added p
      medoid_set := insert p.2.2 p.1.medoid_set } := ⟨h.slots.length, h.slots.lt⟩
  have hround : round D p = (List.range D.size).foldlM (scanStep D) ({ p.1 with
      medoids := added p
      medoid_set := insert p.2.2 p.1.medoid_set }, (0, 0)) := by
    rw [round]
    simp only [h.set_medoid, Option.bind_eq_bind, Option.bind_some]
  obtain ⟨hnone, hbig⟩ | ⟨p', he, hp, hfit⟩ := scan_spec h.chosen hslots le_rfl
  · exact .inl ⟨hround.trans hnone, hbig⟩
  · obtain ⟨i, hi, hiM⟩ := exists_not_mem (added p) hk
    have hm : p'.1.medoids = added p := congrArg Clusterer.medoids hp.state
    obtain ⟨-, hall⟩ | ⟨hpick, -⟩ := hp.best
    · exact absurd (hall i hi) hiM
    · refine .inr ⟨p', hround.trans he, ⟨?_, hp.slots, ?_, hpick.1, hm ▸ hpick.2.1⟩, hm, hpick,
        hfit, hp.kept⟩
      · rw [hp.state]
        exact ⟨h.chosen.nodup, h.chosen.lt, h.chosen.mem_set⟩
      · rw [hp.state]
        exact h.count

variable (D) in
/-- `n` turns. -/
def rounds : ℕ → Clusterer × (ℕ × ℕ) → Option (Clusterer × (ℕ × ℕ))
  | 0, p => some p
  | n + 1, p => do
    let p ← round D p
    rounds n p

theorem rounds_add (m n : ℕ) (p : Clusterer × (ℕ × ℕ)) :
    rounds D (m + n) p = (rounds D m p).bind (rounds D n) := by
  induction m generalizing p with
  | zero => rw [Nat.zero_add]; rfl
  | succ m ih =>
    rw [Nat.succ_add, rounds, rounds, Option.bind_eq_bind, Option.bind_assoc]
    exact Option.bind_congr fun p' _ => ih p'

theorem rounds_succ (n : ℕ) (p : Clusterer × (ℕ × ℕ)) :
    rounds D (n + 1) p = (rounds D n p).bind (round D) := by
  rw [rounds_add]
  refine Option.bind_congr fun p' _ => ?_
  rw [rounds]
  cases round D p' <;> rfl

/-- The loop makes one turn for each medoid that is missing. -/
theorem choose_eq (h : Before D k p) (hk : k < D.size) {n fuel : ℕ}
    (hn : p.1.medoids.length + n = k) (hf : n < fuel) : choose D fuel p = rounds D n p := by
  induction n generalizing p fuel with
  | zero =>
    obtain ⟨fuel, rfl⟩ : ∃ f, fuel = f + 1 := ⟨fuel - 1, by omega⟩
    rw [choose, if_neg (by rw [h.count]; omega), rounds]
  | succ n ih =>
    obtain ⟨fuel, rfl⟩ : ∃ f, fuel = f + 1 := ⟨fuel - 1, by omega⟩
    have hlen : (added p).length = p.1.medoids.length + 1 := by simp [added]
    rw [choose, if_pos (by rw [h.count]; omega), rounds]
    obtain ⟨hnone, -⟩ | ⟨p', he, hp', hm, -⟩ := round_spec h (by omega)
    · rw [hnone]
      rfl
    · rw [he]
      exact ih hp' (by rw [hm]; omega) (by omega)

/-! ### When the shortcut does no harm -/

/-- Some farthest datum has the largest estimate, and of those behind it with the same
estimate each is as far. -/
def Reached (D : DataSet) (slots M : List ℕ) : Prop :=
  ∃ i < D.size, i ∉ M ∧ ∀ j < D.size, j ∉ M →
    nearest D.distance M j ≤ nearest D.distance M i ∧
      estimate D slots M j ≤ estimate D slots M i ∧
      (estimate D slots M j = estimate D slots M i → i < j →
        nearest D.distance M j = nearest D.distance M i)

/-- Before the turns that pick a medoid the estimates fit an `int` and reach a farthest datum;
before the last turn the distances to the medoids fit an `int`. -/
def Harmless (D : DataSet) (k : ℕ) (p : Clusterer × (ℕ × ℕ)) : Prop :=
  if (added p).length < k then
    (∀ i < D.size, i ∉ added p → estimate D p.1.clusters (added p) i ≤ intMax) ∧
      Reached D p.1.clusters (added p)
  else ∀ i < D.size, nearest D.distance (added p) i ≤ intMax

theorem Picked.farthest_iff {slots M : List ℕ} {i : ℕ} (h : Picked D slots M D.size i) :
    (∀ j < D.size, j ∉ M → nearest D.distance M j ≤ nearest D.distance M i) ↔
      Reached D slots M := by
  obtain ⟨hi, hiM, hbest⟩ := h
  constructor
  · refine fun hfar => ⟨i, hi, hiM, fun j hj hjM => ⟨hfar j hj hjM, (hbest j hj hjM).1, ?_⟩⟩
    intro he hlt
    exact absurd he (Nat.ne_of_lt ((hbest j hj hjM).2 hlt))
  · rintro ⟨q, hq, hqM, hall⟩
    obtain ⟨hnear, hle, htie⟩ := hall i hi hiM
    have he : estimate D slots M i = estimate D slots M q := hle.antisymm (hbest q hq hqM).1
    have hsame : nearest D.distance M i = nearest D.distance M q := by
      rcases Nat.lt_trichotomy q i with hlt | rfl | hgt
      · exact htie he hlt
      · rfl
      · exact absurd he.symm (Nat.ne_of_lt ((hbest q hq hqM).2 hgt))
    exact fun j hj hjM => hsame ▸ (hall j hj hjM).1

theorem Harmless.fits (h : Harmless D k p) {i : ℕ} (hi : i < D.size) (hiM : i ∉ added p) :
    estimate D p.1.clusters (added p) i ≤ intMax := by
  rw [Harmless] at h
  split_ifs at h with hlt
  · exact h.1 i hi hiM
  · exact (nearest_mono (by simp [added]) (List.subset_cons_self _ _)).trans (h i hi)

/-- Where no slot names a datum nearer than the medoids, the largest estimate is at a farthest
datum. -/
theorem reached_of_slots {slots M : List ℕ} (hM : M ≠ []) (hlen : M.length < D.size)
    (h : ∀ i < D.size, i ∉ M →
      nearest D.distance M i ≤ D.distance i (slots.getD i 0)) : Reached D slots M := by
  have hest : ∀ i < D.size, i ∉ M → estimate D slots M i = nearest D.distance M i := by
    refine fun i hi hiM => le_antisymm (nearest_mono hM (List.subset_cons_self _ _)) ?_
    refine le_nearest (List.cons_ne_nil _ _) fun m hm => ?_
    rcases List.mem_cons.mp hm with rfl | hm
    · exact h i hi hiM
    · exact nearest_le hm
  obtain ⟨i₀, hi₀, hi₀M⟩ := exists_not_mem M hlen
  obtain ⟨i, hi, hmax⟩ := Finset.exists_max_image
    ((Finset.range D.size).filter (· ∉ M)) (nearest D.distance M)
    ⟨i₀, by simp [hi₀, hi₀M]⟩
  obtain ⟨hi, hiM⟩ := Finset.mem_filter.mp hi
  rw [Finset.mem_range] at hi
  refine ⟨i, hi, hiM, fun j hj hjM => ?_⟩
  have hle := hmax j (by simp [hj, hjM])
  rw [hest i hi hiM, hest j hj hjM]
  exact ⟨hle, hle, fun he _ => he⟩

/-! ### The whole run -/

/-- What a run is to end with. -/
structure Clustered (D : DataSet) (k : ℕ) (s : Clusterer) : Prop where
  nodup : s.medoids.Nodup
  lt : ∀ m ∈ s.medoids, m < D.size
  length : s.medoids.length = k
  farthest : FarthestFirst D.distance (List.range D.size) s.medoids
  assigned : Assigned D s

theorem before_start (r : Fin (2 ^ 31)) (hpos : 0 < D.size) :
    Before D k (start D r k new) where
  nodup := List.nodup_nil
  lt := by simp [start, new]
  mem_set := by simp [start, new]
  slots := by
    constructor
    · simp [start, new]
    · intro c hc
      simp only [start, new, List.takeD_nil, List.mem_replicate] at hc
      exact hc.2 ▸ Nat.mod_lt _ hpos
  count := rfl
  next_lt := Nat.mod_lt _ hpos
  next_not_mem := by simp [start, new]

/-- What holds after `n` turns that succeed. -/
theorem before_rounds (hk : k < D.size) {n : ℕ} (hn : n ≤ k) {p₀ : Clusterer × (ℕ × ℕ)}
    (h₀ : Before D k p₀) (hm₀ : p₀.1.medoids = []) (hp : rounds D n p₀ = some p) :
    Before D k p ∧ p.1.medoids.length = n := by
  induction n generalizing p with
  | zero =>
    obtain rfl : p₀ = p := Option.some.inj hp
    exact ⟨h₀, by rw [hm₀]; rfl⟩
  | succ n ih =>
    rw [rounds_succ, Option.bind_eq_some_iff] at hp
    obtain ⟨q, hq, hr⟩ := hp
    obtain ⟨hbefore, hlen⟩ := ih (by omega) hq
    have hadd : (added q).length = n + 1 := by simp [added, hlen]
    obtain ⟨hnone, -⟩ | ⟨p', he, hp', hm, -⟩ := round_spec hbefore (by omega)
    · rw [hnone] at hr
      cases hr
    · obtain rfl : p' = p := Option.some.inj (he ▸ hr)
      exact ⟨hp', by rw [hm, hadd]⟩

/-- The medoids chosen so far stay. -/
theorem added_prefix (h : Before D k p) (hk : k < D.size) {n : ℕ}
    (hn : p.1.medoids.length + (n + 1) ≤ k) {q : Clusterer × (ℕ × ℕ)}
    (hq : rounds D (n + 1) p = some q) : added p <+: q.1.medoids := by
  induction n generalizing p with
  | zero =>
    have hadd : (added p).length = p.1.medoids.length + 1 := by simp [added]
    obtain ⟨p', hr, hq⟩ := Option.bind_eq_some_iff.mp hq
    obtain rfl : p' = q := Option.some.inj hq
    obtain ⟨hnone, -⟩ | ⟨p', he, -, hm, -⟩ := round_spec h (by omega)
    · rw [hnone] at hr
      cases hr
    · obtain rfl := Option.some.inj (he ▸ hr)
      exact hm ▸ List.prefix_refl _
  | succ n ih =>
    have hadd : (added p).length = p.1.medoids.length + 1 := by simp [added]
    obtain ⟨p₁, hr, hq⟩ := Option.bind_eq_some_iff.mp hq
    obtain ⟨hnone, -⟩ | ⟨p', he, hp', hm, -⟩ := round_spec h (by omega)
    · rw [hnone] at hr
      cases hr
    · obtain rfl := Option.some.inj (he ▸ hr)
      have := ih hp' (by rw [hm]; omega) hq
      exact hm ▸ (List.prefix_append _ _).trans this

theorem cluster_eq (hk : k < D.size) (r : Fin (2 ^ 31)) {fuel : ℕ} (hf : k < fuel) :
    cluster D r fuel k new =
      (rounds D k (start D r k new)).bind fun p => p.1.assign_all D := by
  rw [cluster, if_neg (by omega),
    choose_eq (before_start r (by omega)) hk (Nat.zero_add k) hf]
  rfl

/-- Without a medoid the search for the nearest one reads `medoids_[0]` of an empty vector. -/
theorem assign_all_start (r : Fin (2 ^ 31)) (hpos : 0 < D.size) :
    (start D r k new).1.assign_all D = none := by
  obtain ⟨n, hn⟩ : ∃ n, D.size = n + 1 := ⟨D.size - 1, by omega⟩
  rw [assign_all, hn, List.range_succ_eq_map, List.foldlM_cons]
  rfl

/-- After one turn the slot of a datum that is no medoid still names the first hub. -/
theorem slots_after_one (hk : 1 < D.size) (r : Fin (2 ^ 31)) (hp : rounds D 1
    (start D r k new) = some p) {i : ℕ} (hi : i < D.size) (hiM : i ∉ p.1.medoids) :
    p.1.medoids = [r.val % D.size] ∧ p.1.clusters.getD i 0 = r.val % D.size := by
  have hstart : (start D r k new).1.clusters.getD i 0 = r.val % D.size := by
    simp [start, new, hi]
  rw [rounds_succ, rounds, Option.bind_some] at hp
  obtain ⟨hnone, -⟩ | ⟨p', he, -, hm, -, -, hkept⟩ :=
    round_spec (before_start (k := k) r (by omega)) hk
  · rw [hnone] at hp
    cases hp
  · obtain rfl : p' = p := Option.some.inj (he ▸ hp)
    refine ⟨hm, ?_⟩
    rw [hm] at hiM
    have hget := hkept i hiM fun m hm' => by
      rw [hstart, List.mem_singleton.mp hm']
      exact le_rfl
    rw [List.getD_eq_getElem?_getD, hget, ← List.getD_eq_getElem?_getD, hstart]

/-- With at most three clusters the slots never do harm. -/
theorem harmless_of_le_three (hk : k < D.size) (h3 : k ≤ 3) (r : Fin (2 ^ 31))
    (hfit : ∀ i < D.size, ∀ m < D.size, D.distance i m ≤ intMax) {t : ℕ} (ht : t < k)
    (hp : rounds D t (start D r k new) = some p) : Harmless D k p := by
  obtain ⟨hbefore, hlen⟩ := before_rounds hk ht.le (before_start r (by omega)) rfl hp
  have hadd : (added p).length = t + 1 := by simp [added, hlen]
  have hne : added p ≠ [] := by simp [added]
  have hnear : ∀ i < D.size, nearest D.distance (added p) i ≤ intMax := fun i hi => by
    obtain ⟨m, hm, he⟩ := exists_nearest (d := D.distance) hne i
    exact he ▸ hfit i hi m (hbefore.chosen.lt m hm)
  rw [Harmless]
  split_ifs with hlt
  · refine ⟨fun i hi _ => (nearest_mono hne (List.subset_cons_self _ _)).trans (hnear i hi),
      reached_of_slots hne (by omega) fun i hi hiM => nearest_le ?_⟩
    obtain rfl | rfl : t = 0 ∨ t = 1 := by omega
    · obtain rfl : start D r k new = p := Option.some.inj hp
      simp [start, new, hi, added]
    · have hiM' : i ∉ p.1.medoids := fun h => hiM (List.mem_append_left _ h)
      obtain ⟨hm, hslot⟩ := slots_after_one (by omega) r hp hi hiM'
      rw [added, hm, hslot]
      simp
  · exact hnear

/-- Turns that do no harm choose farthest medoids. -/
theorem rounds_harmless (hk : k < D.size) (r : Fin (2 ^ 31))
    (h : ∀ t < k, ∀ p, rounds D t (start D r k new) = some p → Harmless D k p)
    {n : ℕ} (hn : n ≤ k) :
    ∃ p, rounds D n (start D r k new) = some p ∧ Before D k p ∧ p.1.medoids.length = n ∧
      FarthestFirst D.distance (List.range D.size) p.1.medoids ∧
      (n < k → FarthestFirst D.distance (List.range D.size) (added p)) ∧
      (n = k → 0 < k → ∀ i < D.size, nearest D.distance p.1.medoids i ≤ intMax) := by
  induction n with
  | zero =>
    refine ⟨_, rfl, before_start r (by omega), rfl, farthestFirst_nil _, fun _ => ?_,
      fun h0 hpos => absurd h0.symm (Nat.ne_of_gt hpos)⟩
    exact farthestFirst_append.mpr ⟨farthestFirst_nil _, fun hne => absurd rfl hne⟩
  | succ n ih =>
    obtain ⟨p, hp, hbefore, hlen, -, hfar, -⟩ := ih (by omega)
    have hharm := h n (by omega) p hp
    have hadd : (added p).length = n + 1 := by simp [added, hlen]
    obtain ⟨-, i, hi, hiM, hbig⟩ | ⟨p', he, hp', hm, hpick, -⟩ :=
      round_spec hbefore (by omega)
    · exact absurd (hharm.fits hi hiM) (not_le.mpr hbig)
    · refine ⟨p', by rw [rounds_succ, hp, Option.bind_some, he], hp', by rw [hm, hadd],
        hm ▸ hfar (by omega), fun hlt => ?_, fun heq _ => ?_⟩
      · rw [Harmless, if_pos (by omega)] at hharm
        rw [added, farthestFirst_append, hm]
        refine ⟨hfar (by omega), fun _ x hx hxM => ?_⟩
        exact hpick.farthest_iff.mpr hharm.2 x (List.mem_range.mp hx) hxM
      · rw [Harmless, if_neg (by omega)] at hharm
        exact hm ▸ hharm

/-- For fewer clusters than data, a run chooses each medoid as far as possible from those
before it, and assigns each datum to a medoid of least distance, if and only if there is a
cluster and no turn begins in a state in which the slots do harm. -/
theorem cluster_farthest_first_iff (D : DataSet) (k : ℕ) (r : Fin (2 ^ 31))
    (hk : k < D.size) (h0 : ∀ i < D.size, D.distance i i = 0) :
    (∃ s, Clustered D k s ∧ ∀ fuel > k, cluster D r fuel k new = some s) ↔
      0 < k ∧ ∀ t < k, ∀ p, rounds D t (start D r k new) = some p → Harmless D k p := by
  constructor
  · rintro ⟨s, hs, hrun⟩
    have hend := hrun (k + 1) (Nat.lt_succ_self k)
    rw [cluster_eq hk r (Nat.lt_succ_self k), Option.bind_eq_some_iff] at hend
    obtain ⟨q, hq, hassign⟩ := hend
    obtain ⟨hqb, hqlen⟩ := before_rounds hk le_rfl (before_start r (by omega)) rfl hq
    have hpos : 0 < k := by
      rcases Nat.eq_zero_or_pos k with rfl | hpos
      · obtain rfl : start D r 0 new = q := Option.some.inj hq
        rw [assign_all_start r (by omega)] at hassign
        cases hassign
      · exact hpos
    have hne : q.1.medoids ≠ [] := by
      rw [← List.length_pos_iff]
      omega
    obtain ⟨hnone, -⟩ | ⟨clusters, he, -, hfit⟩ :=
      assign_all_spec hqb.toChosen hne h0 hqb.slots.length
    · rw [hnone] at hassign
      cases hassign
    have hs' : s = { q.1 with clusters } := Option.some.inj (hassign.symm.trans he)
    have hm : s.medoids = q.1.medoids := by rw [hs']
    refine ⟨hpos, fun t ht p hp => ?_⟩
    obtain ⟨hbefore, hlen⟩ := before_rounds hk ht.le (before_start r (by omega)) rfl hp
    have hadd : (added p).length = t + 1 := by simp [added, hlen]
    obtain ⟨m, hm'⟩ : ∃ m, k = t + (m + 1) := ⟨k - t - 1, by omega⟩
    have hrest : rounds D (m + 1) p = some q := by
      have hsplit := rounds_add (D := D) t (m + 1) (start D r k new)
      rw [← hm', hp, hq, Option.bind_some] at hsplit
      exact hsplit.symm
    obtain ⟨p', hr, hrest'⟩ := Option.bind_eq_some_iff.mp hrest
    obtain ⟨hnone, -⟩ | ⟨p₁, he₁, hp₁, hm₁, hpick, hfits, -⟩ := round_spec hbefore (by omega)
    · rw [hnone] at hr
      cases hr
    obtain rfl : p₁ = p' := Option.some.inj (he₁ ▸ hr)
    rw [Harmless]
    split_ifs with hlt
    · -- the datum picked is the next medoid, and that one is farthest
      obtain ⟨m', rfl⟩ : ∃ m', m = m' + 1 := ⟨m - 1, by omega⟩
      have hpre := added_prefix hp₁ hk (by rw [hm₁]; omega) hrest'
      rw [added, hm₁, ← hm] at hpre
      refine ⟨hfits, hpick.farthest_iff.mp fun j hj hjM => ?_⟩
      exact hs.farthest _ _ hpre (by simp [added]) j (List.mem_range.mpr hj) hjM
    · obtain rfl : m = 0 := by omega
      obtain rfl : p₁ = q := Option.some.inj hrest'
      exact hm₁ ▸ hfit
  · rintro ⟨hpos, hharm⟩
    obtain ⟨p, hp, hbefore, hlen, hfar, -, hfit⟩ := rounds_harmless hk r hharm le_rfl
    have hne : p.1.medoids ≠ [] := by
      rw [← List.length_pos_iff]
      omega
    obtain ⟨-, i, hi, hbig⟩ | ⟨clusters, he, ha, -⟩ :=
      assign_all_spec hbefore.toChosen hne h0 hbefore.slots.length
    · exact absurd (hfit rfl hpos i hi) (not_le.mpr hbig)
    · refine ⟨{ p.1 with clusters }, ⟨hbefore.nodup, hbefore.lt, hlen, hfar, ha⟩,
        fun fuel hf => ?_⟩
      rw [cluster_eq hk r hf, hp, Option.bind_some, he]

/-- Five points on a line. -/
def fivePoints : DataSet where
  size := 5
  size_le := by decide
  distance i j :=
    let at' (i : ℕ) : ℕ := [0, 1, 2, 3, 2].getD i 0
    (at' i - at' j) + (at' j - at' i)

/-- Three clusters are few enough for the slots to do no harm. -/
theorem cluster_fivePoints_three :
    (∀ t < 3, ∀ p, rounds fivePoints t (start fivePoints 1804289383 3 new) = some p →
        Harmless fivePoints 3 p) ∧
      ∃ s, Clustered fivePoints 3 s ∧
        ∀ fuel > 3, cluster fivePoints 1804289383 fuel 3 new = some s := by
  have hharm : ∀ t < 3, ∀ p,
      rounds fivePoints t (start fivePoints 1804289383 3 new) = some p → Harmless fivePoints 3 p :=
    fun t ht p hp => harmless_of_le_three (by decide) (by decide) _ (by decide) ht hp
  refine ⟨hharm, ?_⟩
  exact (cluster_farthest_first_iff fivePoints 3 1804289383 (by decide) (by decide)).mpr
    ⟨by decide, hharm⟩

/-- The fourth medoid is the datum 2, at distance 0 from the datum 4, though the datum 1 is
at distance 1 from the medoids: its slot holds the position 1 and is read as its own index. -/
theorem cluster_fivePoints :
    ¬∀ (D : DataSet) (k : ℕ) (r : Fin (2 ^ 31)), k < D.size →
      (∀ i j, D.distance i j = D.distance j i) → (∀ i < D.size, D.distance i i = 0) →
      ∃ s, Clustered D k s ∧ ∀ fuel > k, cluster D r fuel k new = some s := by
  intro h
  obtain ⟨s, hs, hrun⟩ := h fivePoints 4 1804289383 (by decide)
    (fun i j => Nat.add_comm _ _) (by decide)
  have hmed : (cluster fivePoints 1804289383 5 4 new).map Clusterer.medoids =
      some [3, 0, 4, 2] := by decide
  rw [hrun 5 (by decide), Option.map_some, Option.some.injEq] at hmed
  have hfar := hs.farthest [3, 0, 4] 2 (hmed ▸ List.prefix_refl _) (by decide) 1 (by decide)
    (by decide)
  exact absurd hfar (by decide)

end KMeans

end TaseVerifier.Cluster
