import Mathlib.Data.List.Basic
import Mathlib.Data.Finset.Card
import Mathlib.Data.Finset.Lattice.Fold
import Mathlib.Tactic.IntervalCases
import TaseVerifier.Cluster.Clusterer

/-! `KMedoidsClusterer`: random medoids, then exchanges of a medoid with another datum for as
long as one lowers the cost. -/

namespace TaseVerifier.Cluster

open Library Clusterer

namespace KMedoids

/-- The `-1` of a medoid not chosen yet. -/
def noMedoid : ℕ := 2 ^ 32 - 1

/-- A new clusterer after `add_data`. -/
def new (D : DataSet) : Clusterer where
  count := 0
  clusters := List.replicate D.size 0
  medoids := []
  medoid_set := ∅
  cost := intMax

variable (D : DataSet)

/-- The datum must not be a medoid, by the set and by the vector. -/
def set_medoid (s : Clusterer) (id index : ℕ) : Option Clusterer :=
  if index ∈ s.medoid_set ∨ index ∈ s.medoids ∨ s.medoids.length ≤ id then none
  else some { s with
    medoids := s.medoids.set id index
    medoid_set := insert index s.medoid_set }

def replace_medoid (s : Clusterer) (id index : ℕ) : Option Clusterer := do
  let old ← s.medoids[id]?
  if s.is_medoid index ∨ ¬s.is_medoid old then none
  else set_medoid { s with medoid_set := s.medoid_set.erase old } id index

/-- An `unsigned` sum. -/
def compute_configuration_cost (s : Clusterer) : Option ℕ :=
  (List.range D.size).foldlM (fun cost index => do
    let (first, _) ← s.find_closest_cluster D index
    return (cost + first) % 2 ^ 32) 0

/-- The draws from the `j`-th on, until one is not a medoid; `fuel` bounds their number. -/
def drawFrom (rand : ℕ → Fin (2 ^ 31)) (s : Clusterer) : (fuel j : ℕ) → Option ℕ
  | 0, _ => none
  | fuel + 1, j =>
    let r := (rand j).val % D.size
    if s.is_medoid r then drawFrom rand s fuel (j + 1) else some r

/-- Each draw starts the generator again. -/
def selectRandom (rand : ℕ → Fin (2 ^ 31)) (fuel : ℕ) (s : Clusterer) : Option Clusterer :=
  (List.range s.count).foldlM (fun s i => do
    let r ← drawFrom D rand s fuel 0
    set_medoid s i r) s

/-- The exchanges of the medoid `id`, up to the first one that lowers the cost; the flag is
`cost_changed`. -/
def swapLoop (id : ℕ) : List ℕ → Clusterer × Bool → Option (Clusterer × Bool)
  | [], p => some p
  | index :: rest, (s, changed) =>
    if s.is_medoid index then swapLoop id rest (s, changed)
    else do
      let prev_index ← s.medoids[id]?
      let s' ← replace_medoid s id index
      let cost ← compute_configuration_cost D s'
      if cost < s'.cost then return ({ s' with cost }, true)
      else do
        let s'' ← replace_medoid s' id prev_index
        swapLoop id rest (s'', changed)

def pass (s : Clusterer) : Option (Clusterer × Bool) :=
  (List.range s.count).foldlM (fun p id => swapLoop D id (List.range D.size) p) (s, false)

/-- The passes go on until one changes nothing; `fuel` bounds their number. -/
def passes : (fuel : ℕ) → Clusterer → Option Clusterer
  | 0, _ => none
  | fuel + 1, s => do
    let (s, changed) ← pass D s
    if changed then passes fuel s else return s

def cluster (rand : ℕ → Fin (2 ^ 31)) (fuel cluster_count : ℕ) (s : Clusterer) :
    Option Clusterer := do
  let count := if D.size < cluster_count then D.size else cluster_count
  let s := { s with count, medoids := s.medoids.takeD count noMedoid }
  let s ← selectRandom D rand fuel s
  let s ← passes D fuel s
  s.assign_all D

variable {D} {s s' : Clusterer}

/-! ### The first medoids -/

/-- The first `i` medoids are chosen. -/
structure Filling (D : DataSet) (s : Clusterer) (chosen : List ℕ) : Prop where
  le_size : s.count ≤ D.size
  le_count : chosen.length ≤ s.count
  medoids : s.medoids = chosen ++ List.replicate (s.count - chosen.length) noMedoid
  nodup : chosen.Nodup
  lt : ∀ m ∈ chosen, m < D.size
  mem_set : ∀ m, m ∈ s.medoid_set ↔ m ∈ chosen
  length_clusters : s.clusters.length = D.size

/-- Below `bound` draws every residue has come. -/
def HitsBelow (D : DataSet) (rand : ℕ → Fin (2 ^ 31)) (bound : ℕ) : Prop :=
  ∀ r < D.size, ∃ j < bound, (rand j).val % D.size = r

theorem exists_hitsBelow {rand : ℕ → Fin (2 ^ 31)}
    (h : ∀ r < D.size, ∃ j, (rand j).val % D.size = r) : ∃ bound, HitsBelow D rand bound := by
  choose f hf using h
  refine ⟨(Finset.range D.size).attach.sup (fun r => f r.1 (Finset.mem_range.mp r.2)) + 1, ?_⟩
  intro r hr
  refine ⟨f r hr, Nat.lt_succ_of_le ?_, hf r hr⟩
  exact Finset.le_sup (f := fun r : {x // x ∈ Finset.range D.size} =>
    f r.1 (Finset.mem_range.mp r.2)) (Finset.mem_attach _ ⟨r, Finset.mem_range.mpr hr⟩)

/-- Enough draws reach a datum that is no medoid, the same one however many are allowed. -/
theorem drawFrom_spec {rand : ℕ → Fin (2 ^ 31)} (hpos : 0 < D.size) {j₀ : ℕ}
    (hj₀ : s.is_medoid ((rand j₀).val % D.size) = false) {n j : ℕ} (hj : j + n = j₀) :
    ∃ r < D.size, s.is_medoid r = false ∧
      ∀ fuel, n < fuel → drawFrom D rand s fuel j = some r := by
  by_cases h : s.is_medoid ((rand j).val % D.size) = true
  · cases n with
    | zero =>
      obtain rfl : j = j₀ := hj
      rw [hj₀] at h
      cases h
    | succ n =>
      obtain ⟨r, hr, hfree, hdraw⟩ := drawFrom_spec hpos hj₀ (n := n) (j := j + 1) (by omega)
      refine ⟨r, hr, hfree, fun fuel hf => ?_⟩
      obtain ⟨fuel, rfl⟩ : ∃ f, fuel = f + 1 := ⟨fuel - 1, by omega⟩
      rw [drawFrom, if_pos h]
      exact hdraw fuel (by omega)
  · refine ⟨_, Nat.mod_lt _ hpos, Bool.eq_false_iff.mpr h, fun fuel hf => ?_⟩
    obtain ⟨fuel, rfl⟩ : ∃ f, fuel = f + 1 := ⟨fuel - 1, by omega⟩
    rw [drawFrom, if_neg h]

theorem Filling.step {chosen : List ℕ} (h : Filling D s chosen) (hlt : chosen.length < s.count)
    {r : ℕ} (hr : r < D.size) (hnot : r ∉ chosen) :
    ∃ s', set_medoid s chosen.length r = some s' ∧ s'.count = s.count ∧ s'.cost = s.cost ∧
      Filling D s' (chosen ++ [r]) := by
  have hsize := D.size_le
  have hmem : r ∉ s.medoids := by
    rw [h.medoids, List.mem_append, List.mem_replicate]
    rintro (h' | ⟨-, rfl⟩)
    · exact hnot h'
    · rw [noMedoid] at hr
      omega
  have hrest : s.count - chosen.length = s.count - (chosen ++ [r]).length + 1 := by
    rw [List.length_append, List.length_singleton]
    omega
  have hset : s.medoids.set chosen.length r =
      (chosen ++ [r]) ++ List.replicate (s.count - (chosen ++ [r]).length) noMedoid := by
    rw [h.medoids, List.set_append_right _ _ le_rfl, Nat.sub_self, hrest,
      List.replicate_succ, List.set_cons_zero, List.append_assoc]
    rfl
  refine ⟨_, if_neg ?_, rfl, rfl, ?_⟩
  · rw [h.mem_set, h.medoids, List.length_append, List.length_replicate]
    rw [h.medoids] at hmem
    rintro (h' | h' | h')
    · exact hnot h'
    · exact hmem h'
    · omega
  · refine ⟨h.le_size, by rw [List.length_append]; exact hlt, hset, ?_, ?_, ?_, h.length_clusters⟩
    · exact List.nodup_append.mpr ⟨h.nodup, List.nodup_singleton r, fun a ha b hb he =>
        hnot (List.mem_singleton.mp hb ▸ he ▸ ha)⟩
    · intro m hm
      rcases List.mem_append.mp hm with h' | h'
      · exact h.lt m h'
      · rwa [List.mem_singleton.mp h']
    · intro m
      rw [Finset.mem_insert, h.mem_set, List.mem_append, List.mem_singleton, or_comm]

theorem selectRandom_spec {rand : ℕ → Fin (2 ^ 31)} {bound : ℕ}
    (hr : HitsBelow D rand bound) (h : Filling D s []) :
    ∃ s' chosen, s'.count = s.count ∧ s'.cost = s.cost ∧ Filling D s' chosen ∧
      chosen.length = s.count ∧ ∀ fuel ≥ bound, selectRandom D rand fuel s = some s' := by
  suffices ∀ n ≤ s.count, ∃ s' chosen, s'.count = s.count ∧ s'.cost = s.cost ∧
      Filling D s' chosen ∧ chosen.length = n ∧ ∀ fuel ≥ bound,
        (List.range n).foldlM (fun s i => do
          let r ← drawFrom D rand s fuel 0
          set_medoid s i r) s = some s' from this s.count le_rfl
  intro n hn
  induction n with
  | zero => exact ⟨s, [], rfl, rfl, h, rfl, fun _ _ => rfl⟩
  | succ n ih =>
    obtain ⟨s₁, chosen, hc, hcost, hfill, rfl, he⟩ := ih (by omega)
    have hsize := h.le_size
    obtain ⟨r₀, hr₀, hnot⟩ := exists_not_mem (D := D) chosen (by omega)
    obtain ⟨j, hj, hjr⟩ := hr r₀ hr₀
    have hfree : ∀ r, s₁.is_medoid r = false ↔ r ∉ chosen := fun r => by
      rw [is_medoid, decide_eq_false_iff_not, hfill.mem_set]
    obtain ⟨r, hrs, hrn, hdraw⟩ := drawFrom_spec (s := s₁) (Nat.zero_lt_of_lt hr₀)
      (by rw [hjr]; exact (hfree r₀).mpr hnot) (Nat.zero_add j)
    obtain ⟨s₂, hset, hc₂, hcost₂, hfill₂⟩ :=
      hfill.step (by omega) hrs ((hfree r).mp hrn)
    refine ⟨s₂, chosen ++ [r], hc₂.trans hc, hcost₂.trans hcost, hfill₂, by simp, ?_⟩
    intro fuel hf
    rw [List.range_succ, List.foldlM_append, he fuel hf]
    simp [hdraw fuel (by omega), hset]

/-! ### The exchanges -/

/-- The invariant of the exchanges. -/
structure Full (D : DataSet) (s : Clusterer) : Prop extends s.Chosen D where
  length_medoids : s.medoids.length = s.count
  length_clusters : s.clusters.length = D.size
  le_cost : totalDistance D.distance (List.range D.size) s.medoids ≤ s.cost

/-- Every choice of the medoids has a cost that fits an `int`. -/
def CostFits (D : DataSet) (count : ℕ) : Prop :=
  ∀ M : List ℕ, M.Nodup → M.length = count → (∀ m ∈ M, m < D.size) →
    totalDistance D.distance (List.range D.size) M < 2 ^ 31

/-- A cost that fits an `int` is computed without a wrap. -/
theorem compute_configuration_cost_eq (h : s.Chosen D) (hne : s.medoids ≠ [])
    (h0 : ∀ i < D.size, D.distance i i = 0)
    (hfit : totalDistance D.distance (List.range D.size) s.medoids < 2 ^ 31) :
    compute_configuration_cost D s =
      some (totalDistance D.distance (List.range D.size) s.medoids) := by
  suffices ∀ n ≤ D.size, (List.range n).foldlM (fun cost index => do
      let (first, _) ← s.find_closest_cluster D index
      return (cost + first) % 2 ^ 32) 0 =
        some (totalDistance D.distance (List.range n) s.medoids) from this D.size le_rfl
  intro n hn
  induction n with
  | zero => rfl
  | succ n ih =>
    have hn' : n < D.size := hn
    have hnear : nearest D.distance s.medoids n < 2 ^ 31 :=
      (nearest_le_totalDistance (List.mem_range.mpr hn')).trans_lt hfit
    have hsum := totalDistance_append (d := D.distance) (List.range n) [n] s.medoids
    have hpre : List.range n <+: List.range D.size := by
      have := List.take_prefix n (List.range D.size)
      rwa [List.take_range, min_eq_left hn'.le] at this
    have hle : totalDistance D.distance (List.range n) s.medoids < 2 ^ 31 :=
      (totalDistance_prefix_le hpre _).trans_lt hfit
    rw [List.range_succ, List.foldlM_append, ih hn'.le, hsum]
    obtain ⟨-, hbig⟩ | ⟨id, c, hf, -⟩ := find_closest_cluster_spec h hne (h0 n hn')
    · rw [intMax] at hbig
      omega
    · simp only [Option.bind_eq_bind, Option.bind_some, List.foldlM_cons, List.foldlM_nil, hf]
      rw [Nat.mod_eq_of_lt (by omega)]
      rfl

/-- An exchange of a medoid with another datum. -/
theorem replace_medoid_eq (h : s.Chosen D) {id index : ℕ} {old : ℕ}
    (hold : s.medoids[id]? = some old) (hi : index ∉ s.medoids) :
    replace_medoid s id index = some { s with
      medoids := s.medoids.set id index
      medoid_set := insert index (s.medoid_set.erase old) } := by
  have hid := (List.getElem?_eq_some_iff.mp hold).1
  have hmem := List.mem_of_getElem? hold
  have hchk : ¬(s.is_medoid index = true ∨ ¬s.is_medoid old = true) := by
    rw [h.is_medoid, h.is_medoid]
    rintro (h' | h')
    · exact hi h'
    · exact h' hmem
  rw [replace_medoid, hold, Option.bind_eq_bind, Option.bind_some, if_neg hchk, set_medoid,
    if_neg]
  rintro (h' | h' | h')
  · exact hi ((h.mem_set index).mp (Finset.mem_of_mem_erase h'))
  · exact hi h'
  · exact absurd hid (Nat.not_lt.mpr h')

/-- The exchanged medoids are distinct data again. -/
theorem chosen_exchange (h : s.Chosen D) {id index old : ℕ}
    (hold : s.medoids[id]? = some old) (hlt : index < D.size) (hi : index ∉ s.medoids) :
    Chosen D { s with
      medoids := s.medoids.set id index
      medoid_set := insert index (s.medoid_set.erase old) } := by
  refine ⟨h.nodup.set hi, ?_, fun m => ?_⟩
  · intro m hm
    rcases List.mem_or_eq_of_mem_set hm with h' | rfl
    · exact h.lt m h'
    · exact hlt
  · rw [Finset.mem_insert, Finset.mem_erase, h.mem_set, mem_set_of_nodup h.nodup hold]

/-- Exchanging back restores the state. -/
theorem exchange_back (h : s.Chosen D) {id index old : ℕ} (hold : s.medoids[id]? = some old)
    (hi : index ∉ s.medoids) :
    { s with
      medoids := (s.medoids.set id index).set id old
      medoid_set := insert old ((insert index (s.medoid_set.erase old)).erase index) } = s := by
  obtain ⟨hid, hget⟩ := List.getElem?_eq_some_iff.mp hold
  have hset : insert old ((insert index (s.medoid_set.erase old)).erase index) =
      s.medoid_set := by
    have hi' : index ∉ s.medoid_set.erase old := fun h' =>
      hi ((h.mem_set index).mp (Finset.mem_of_mem_erase h'))
    rw [Finset.erase_insert hi',
      Finset.insert_erase ((h.mem_set old).mpr (List.mem_of_getElem? hold))]
  rw [List.set_set, ← hget, List.set_getElem_self, hget, hset]

/-- One exchange is tried: it is kept when it lowers the cost, and taken back otherwise. -/
theorem swapLoop_cons (h0 : ∀ i < D.size, D.distance i i = 0) (hcost : CostFits D s.count)
    (h : Full D s) {id index old : ℕ} (hold : s.medoids[id]? = some old)
    (hindex : index < D.size) (hi : index ∉ s.medoids) (rest : List ℕ) (changed : Bool) :
    swapLoop D id (index :: rest) (s, changed) =
      if totalDistance D.distance (List.range D.size) (s.medoids.set id index) < s.cost then
        some ({ s with
          medoids := s.medoids.set id index
          medoid_set := insert index (s.medoid_set.erase old)
          cost := totalDistance D.distance (List.range D.size) (s.medoids.set id index) }, true)
      else swapLoop D id rest (s, changed) := by
  obtain ⟨hid, hget⟩ := List.getElem?_eq_some_iff.mp hold
  have hch := chosen_exchange h.toChosen hold hindex hi
  have hfit := hcost _ hch.nodup (by rw [List.length_set, h.length_medoids]) hch.lt
  have hne : s.medoids.set id index ≠ [] := by
    rw [← List.length_pos_iff, List.length_set]
    exact Nat.zero_lt_of_lt hid
  have hback : (s.medoids.set id index)[id]? = some index := List.getElem?_set_self hid
  have hnot : old ∉ s.medoids.set id index := by
    rw [mem_set_of_nodup h.nodup hold]
    rintro (rfl | ⟨hne, -⟩)
    · exact hi (List.mem_of_getElem? hold)
    · exact hne rfl
  rw [swapLoop, if_neg (by rw [h.is_medoid]; exact hi)]
  simp only [Option.bind_eq_bind, hold, replace_medoid_eq h.toChosen hold hi,
    Option.bind_some, compute_configuration_cost_eq hch hne h0 hfit,
    replace_medoid_eq hch hback hnot, exchange_back h.toChosen hold hi]
  rfl

variable (D) in
/-- What the exchanges that were tried come to: one is kept and lowers the cost, or the state
is as before and none of them is better. -/
def Outcome (s : Clusterer) (changed : Bool) (tried : ℕ → ℕ → Prop)
    (p : Clusterer × Bool) : Prop :=
  p.2 = true ∧ p.1.cost < s.cost ∨
    p = (s, changed) ∧ ∀ id index, tried id index → index ∉ s.medoids →
      s.cost ≤ totalDistance D.distance (List.range D.size) (s.medoids.set id index)

theorem swapLoop_spec (h0 : ∀ i < D.size, D.distance i i = 0) (hcost : CostFits D s.count)
    (h : Full D s) {id : ℕ} (hid : id < s.count) (changed : Bool) {indices : List ℕ}
    (hlt : ∀ index ∈ indices, index < D.size) :
    ∃ p, swapLoop D id indices (s, changed) = some p ∧ Full D p.1 ∧ p.1.count = s.count ∧
      Outcome D s changed (fun id' index => id' = id ∧ index ∈ indices) p := by
  induction indices with
  | nil => exact ⟨_, rfl, h, rfl, .inr ⟨rfl, by simp⟩⟩
  | cons index rest ih =>
    obtain ⟨hindex, hrest⟩ := List.forall_mem_cons.mp hlt
    obtain ⟨p, he, hp, hc, hout⟩ := ih hrest
    by_cases hm : index ∈ s.medoids
    · refine ⟨p, ?_, hp, hc, hout.imp_right fun ⟨hps, hall⟩ => ⟨hps, ?_⟩⟩
      · rw [swapLoop, if_pos (h.is_medoid.mpr hm), he]
      · rintro id' index' ⟨rfl, hmem⟩ hnot
        rcases List.mem_cons.mp hmem with rfl | hmem
        · exact absurd hm hnot
        · exact hall id' index' ⟨rfl, hmem⟩ hnot
    · rw [← h.length_medoids] at hid
      have hold : s.medoids[id]? = some s.medoids[id] := List.getElem?_eq_getElem hid
      rw [swapLoop_cons h0 hcost h hold hindex hm]
      split_ifs with hless
      · have hch := chosen_exchange h.toChosen hold hindex hm
        have hlen : (s.medoids.set id index).length = s.count := by
          rw [List.length_set, h.length_medoids]
        exact ⟨_, rfl, ⟨⟨hch.nodup, hch.lt, hch.mem_set⟩, hlen, h.length_clusters, le_rfl⟩,
          rfl, .inl ⟨rfl, hless⟩⟩
      · refine ⟨p, he, hp, hc, hout.imp_right fun ⟨hps, hall⟩ => ⟨hps, ?_⟩⟩
        rintro id' index' ⟨rfl, hmem⟩ hnot
        rcases List.mem_cons.mp hmem with rfl | hmem
        · exact Nat.not_lt.mp hless
        · exact hall id' index' ⟨rfl, hmem⟩ hnot

/-- A pass that changes nothing has tried every exchange. -/
theorem pass_spec (h0 : ∀ i < D.size, D.distance i i = 0) (hcost : CostFits D s.count)
    (h : Full D s) : ∃ p, pass D s = some p ∧ Full D p.1 ∧ p.1.count = s.count ∧
      Outcome D s false (fun id index => id < s.count ∧ index < D.size) p := by
  suffices ∀ n ≤ s.count, ∃ p,
      (List.range n).foldlM (fun p id => swapLoop D id (List.range D.size) p) (s, false) =
        some p ∧ Full D p.1 ∧ p.1.count = s.count ∧
      Outcome D s false (fun id index => id < n ∧ index < D.size) p from this s.count le_rfl
  intro n hn
  induction n with
  | zero => exact ⟨_, rfl, h, rfl, .inr ⟨rfl, by simp⟩⟩
  | succ n ih =>
    obtain ⟨⟨s₁, changed⟩, he, hfull, hc, hout⟩ := ih (by omega)
    have hn' : n < s₁.count := hc.symm ▸ hn
    have hrange : ∀ index ∈ List.range D.size, index < D.size :=
      fun index hi => List.mem_range.mp hi
    obtain ⟨p, he', hfull', hc', hout'⟩ :=
      swapLoop_spec h0 (hc ▸ hcost) hfull hn' changed hrange
    refine ⟨p, ?_, hfull', hc'.trans hc, ?_⟩
    · rw [List.range_succ, List.foldlM_append, he]
      simp [he']
    · obtain ⟨rfl, hlow⟩ | ⟨heq, hall⟩ := hout
      · obtain ⟨hp, hlow'⟩ | ⟨rfl, -⟩ := hout'
        · exact .inl ⟨hp, hlow'.trans hlow⟩
        · exact .inl ⟨rfl, hlow⟩
      · obtain ⟨rfl, rfl⟩ := Prod.mk.inj heq
        refine hout'.imp_right fun ⟨hp, hall'⟩ => ⟨hp, ?_⟩
        rintro id index ⟨hid, hindex⟩ hnot
        rcases Nat.lt_succ_iff_lt_or_eq.mp hid with hlt | rfl
        · exact hall id index ⟨hlt, hindex⟩ hnot
        · exact hall' id index ⟨rfl, List.mem_range.mpr hindex⟩ hnot

/-- The cost falls from pass to pass, so there is a last one, and after it no exchange lowers
the cost. -/
theorem passes_spec (h0 : ∀ i < D.size, D.distance i i = 0) (hcost : CostFits D s.count)
    (h : Full D s) : ∃ s', Full D s' ∧ s'.count = s.count ∧
      SwapOptimal D.distance (List.range D.size) s'.medoids ∧
      ∀ fuel, s.cost < fuel → passes D fuel s = some s' := by
  induction hs : s.cost using Nat.strong_induction_on generalizing s with
  | _ c ih =>
    subst hs
    obtain ⟨⟨s₁, changed⟩, he, hfull, hc, hout⟩ := pass_spec h0 hcost h
    have hpasses : ∀ fuel, passes D (fuel + 1) s =
        if changed then passes D fuel s₁ else some s₁ := fun fuel => by
      rw [passes, he]
      rfl
    obtain ⟨hchanged, hlow⟩ | ⟨heq, hall⟩ := hout
    · obtain rfl : changed = true := hchanged
      obtain ⟨s', hfull', hc', hopt, hrun⟩ := ih s₁.cost hlow (hc ▸ hcost) hfull rfl
      refine ⟨s', hfull', hc'.trans hc, hopt, fun fuel hf => ?_⟩
      obtain ⟨fuel, rfl⟩ : ∃ f, fuel = f + 1 := ⟨fuel - 1, by omega⟩
      have hlow' : s₁.cost < s.cost := hlow
      rw [hpasses, if_pos rfl]
      exact hrun fuel (by omega)
    · obtain ⟨rfl, rfl⟩ := Prod.mk.inj heq
      refine ⟨s₁, hfull, rfl, fun id hid x hx hnot => ?_, fun fuel hf => ?_⟩
      · exact hfull.le_cost.trans
          (hall id x ⟨hfull.length_medoids ▸ hid, List.mem_range.mp hx⟩ hnot)
      · obtain ⟨fuel, rfl⟩ : ∃ f, fuel = f + 1 := ⟨fuel - 1, by omega⟩
        rw [hpasses, if_neg Bool.false_ne_true]

/-! ### The whole run -/

/-- What a run is to end with. -/
structure Clustered (D : DataSet) (k : ℕ) (s : Clusterer) : Prop where
  nodup : s.medoids.Nodup
  lt : ∀ m ∈ s.medoids, m < D.size
  length : s.medoids.length = min k D.size
  assigned : Assigned D s
  optimal : SwapOptimal D.distance (List.range D.size) s.medoids

theorem filling_new (D : DataSet) (k : ℕ) :
    Filling D { new D with
      count := min k D.size
      medoids := (new D).medoids.takeD (min k D.size) noMedoid } [] where
  le_size := min_le_right _ _
  le_count := Nat.zero_le _
  medoids := by simp [new, List.takeD_nil]
  nodup := List.nodup_nil
  lt := by simp
  mem_set := by simp [new]
  length_clusters := by simp [new]

theorem Filling.chosen {chosen : List ℕ} (h : Filling D s chosen)
    (hlen : chosen.length = s.count) : s.medoids = chosen ∧ s.Chosen D := by
  have hm : s.medoids = chosen := by
    rw [h.medoids, hlen, Nat.sub_self, List.replicate_zero, List.append_nil]
  exact ⟨hm, hm.symm ▸ h.nodup, hm.symm ▸ h.lt, hm.symm ▸ h.mem_set⟩

/-- With at least one cluster, or no data, a run ends: it has chosen distinct medoids, each
datum is assigned to one of least distance, and no exchange lowers the cost. -/
theorem cluster_locally_optimal (D : DataSet) (k : ℕ) (rand : ℕ → Fin (2 ^ 31))
    (h0 : ∀ i < D.size, D.distance i i = 0)
    (hrand : ∀ r < D.size, ∃ j, (rand j).val % D.size = r)
    (hcost : CostFits D (min k D.size)) (hk : 0 < k ∨ D.size = 0) :
    ∃ s, Clustered D k s ∧
      ∃ bound, ∀ fuel ≥ bound, cluster D rand fuel k (new D) = some s := by
  obtain ⟨bound, hbound⟩ := exists_hitsBelow hrand
  obtain ⟨s₁, chosen, hc₁, hcost₁, hfill, hlen, hselect⟩ :=
    selectRandom_spec hbound (filling_new D k)
  obtain ⟨hm, hch⟩ := hfill.chosen (hlen.trans hc₁.symm)
  have hc : s₁.count = min k D.size := hc₁
  have hfits := hcost s₁.medoids hch.nodup (by rw [hm, hlen]) hch.lt
  have hfull : Full D s₁ := by
    refine ⟨hch, by rw [hm, hlen, hc₁], hfill.length_clusters, ?_⟩
    rw [hcost₁]
    exact Nat.le_sub_one_of_lt hfits
  obtain ⟨s₂, hfull₂, hc₂, hopt, hpasses⟩ := passes_spec h0 (hc ▸ hcost) hfull
  have hlen₂ : s₂.medoids.length = min k D.size := by rw [hfull₂.length_medoids, hc₂, hc]
  obtain ⟨clusters, hassign, hassigned⟩ : ∃ clusters,
      s₂.assign_all D = some { s₂ with clusters } ∧ Assigned D { s₂ with clusters } := by
    rcases Nat.eq_zero_or_pos D.size with hz | hpos
    · refine ⟨s₂.clusters, by rw [assign_all, hz]; rfl, ?_⟩
      rw [Assigned, hz]
      exact fun i hi => absurd hi (Nat.not_lt_zero i)
    · have hne : s₂.medoids ≠ [] := by
        rw [← List.length_pos_iff, hlen₂]
        omega
      obtain ⟨-, i, hi, hbig⟩ | ⟨clusters, he, ha, -⟩ :=
        assign_all_spec hfull₂.toChosen hne h0 hfull₂.length_clusters
      · have hle := nearest_le_totalDistance (d := D.distance) (M := s₂.medoids)
          (List.mem_range.mpr hi)
        have hlt := hcost s₂.medoids hfull₂.nodup hlen₂ hfull₂.lt
        rw [intMax] at hbig
        omega
      · exact ⟨clusters, he, ha⟩
  refine ⟨{ s₂ with clusters }, ⟨hfull₂.nodup, hfull₂.lt, hlen₂, hassigned, hopt⟩,
    max bound (s₁.cost + 1), fun fuel hf => ?_⟩
  have hcount : (if D.size < k then D.size else k) = min k D.size := by
    split_ifs <;> omega
  rw [cluster]
  simp only [hcount, hselect fuel ((le_max_left _ _).trans hf), Option.bind_eq_bind,
    Option.bind_some, hpasses fuel (Nat.lt_of_succ_le ((le_max_right _ _).trans hf)), hassign]

/-- Two data at distance 1. -/
def twoData : DataSet := ⟨2, by decide, fun i j => if i = j then 0 else 1⟩

def countingRand (j : ℕ) : Fin (2 ^ 31) := Fin.ofNat _ j

theorem cluster_twoData : ∃ s, Clustered twoData 1 s ∧
    ∃ bound, ∀ fuel ≥ bound, cluster twoData countingRand fuel 1 (new twoData) = some s := by
  refine cluster_locally_optimal twoData 1 countingRand (by decide) ?_ ?_ (.inl Nat.one_pos)
  · intro r hr
    have hr : r < 2 := hr
    refine ⟨r, ?_⟩
    interval_cases r <;> rfl
  · intro M _ hlen hlt
    obtain ⟨m, rfl⟩ : ∃ m, M = [m] := List.length_eq_one_iff.mp hlen
    have hm : m < 2 := hlt m (List.mem_singleton_self m)
    interval_cases m <;> decide

/-- One datum and no cluster: the search for the nearest medoid reads `medoids_[0]` of an empty
vector. -/
theorem cluster_no_clusters :
    ¬∀ (D : DataSet) (k : ℕ) (rand : ℕ → Fin (2 ^ 31)),
      (∀ i j, D.distance i j = D.distance j i) → (∀ i < D.size, D.distance i i = 0) →
      (∀ r < D.size, ∃ j, (rand j).val % D.size = r) → CostFits D (min k D.size) →
      ∃ s, Clustered D k s ∧
        ∃ bound, ∀ fuel ≥ bound, cluster D rand fuel k (new D) = some s := by
  intro h
  let D : DataSet := ⟨1, by decide, fun _ _ => 0⟩
  obtain ⟨s, -, bound, hrun⟩ := h D 0 countingRand (fun _ _ => rfl) (fun _ _ => rfl)
    (fun r hr => ⟨0, (Nat.lt_one_iff.mp hr).symm⟩) (fun M _ hlen _ => by
      obtain rfl : M = [] := List.length_eq_zero_iff.mp hlen
      decide)
  have hnone : cluster D countingRand (bound + 1) 0 (new D) = none := rfl
  rw [hrun (bound + 1) (Nat.le_succ bound)] at hnone
  cases hnone

end KMedoids

end TaseVerifier.Cluster
