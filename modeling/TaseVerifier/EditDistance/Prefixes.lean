import TaseVerifier.EditDistance.CellTables

/-! The score by which paths are ranked: the least distance between the path and a prefix
of a medoid. A `double` here only ever holds an `int`. -/

namespace TaseVerifier

open Library

namespace EditDistance

abbrev Path := List (BitVec 64)

def getFragmentEditDistanceNaive (v1 v2 : Path) : Option ℤ := row v1 v2

def getMinEditDistancePrefixNaive (currPath medoidPath : Path) : Option ℤ :=
  (List.range' 0 (medoidPath.length + 1)).foldlM (fun bestDist i => do
    let medoidPrefix := medoidPath.take i
    let currDist ← getFragmentEditDistanceNaive currPath medoidPrefix
    some (if currDist < bestDist then currDist else bestDist)) 10000000

def getMinEditDistancePrefixes (path : Path) (medoids : List Path) : Option ℤ :=
  medoids.foldlM (fun bestDist medoid => do
    let currDist ← getMinEditDistancePrefixNaive path medoid
    some (if currDist < bestDist then currDist else bestDist)) 1000000

/-- The distances of a path to the prefixes of a medoid. -/
def prefixDistances (path medoid : Path) : Set ℕ :=
  {d | ∃ p, p <+: medoid ∧ d = levenshtein path p}

/-- The distances of a path to the prefixes of all medoids. -/
def medoidDistances (path : Path) (medoids : List Path) : Set ℕ :=
  {d | ∃ medoid ∈ medoids, d ∈ prefixDistances path medoid}

/-- The loop keeps the least of the start value and the distances seen. -/
theorem exists_foldlM_least {β : Type} {f : β → Option ℤ} {g : β → ℕ} (xs : List β)
    (hf : ∀ x ∈ xs, f x = some (g x : ℤ)) (best : ℕ) :
    ∃ v : ℕ, xs.foldlM (fun bestDist x => do
        let currDist ← f x
        some (if currDist < bestDist then currDist else bestDist)) (best : ℤ) = some (v : ℤ) ∧
      v ≤ best ∧ (∀ x ∈ xs, v ≤ g x) ∧ (v = best ∨ ∃ x ∈ xs, v = g x) := by
  induction xs generalizing best with
  | nil => exact ⟨best, rfl, le_rfl, fun x hx => absurd hx List.not_mem_nil, Or.inl rfl⟩
  | cons x xs ih =>
    have hx : (if (g x : ℤ) < best then (g x : ℤ) else best) = ((min (g x) best : ℕ) : ℤ) := by
      split_ifs <;> omega
    obtain ⟨v, hv, hbest, hle, hor⟩ := ih (fun y hy => hf y (List.mem_cons_of_mem x hy)) (min (g x) best)
    refine ⟨v, ?_, by omega, fun y hy => ?_, ?_⟩
    · simpa only [List.foldlM_cons, hf x List.mem_cons_self, Option.bind_eq_bind,
        Option.bind_some, hx] using hv
    · rcases List.mem_cons.1 hy with rfl | hy
      · omega
      · exact hle y hy
    · rcases hor with h | ⟨y, hy, h⟩
      · rcases min_choice (g x) best with hm | hm
        · exact Or.inr ⟨x, List.mem_cons_self, h.trans hm⟩
        · exact Or.inl (h.trans hm)
      · exact Or.inr ⟨y, List.mem_cons_of_mem x hy, h⟩

variable {path medoid : Path} {medoids : List Path}

theorem length_mem_prefixDistances (path medoid : Path) :
    path.length ∈ prefixDistances path medoid :=
  ⟨[], List.nil_prefix, by rw [levenshtein_nil_right]⟩

theorem getMinEditDistancePrefixNaive_isLeast (hp : path.length ≤ 1000000)
    (hm : medoid.length ≤ 2000000) :
    ∃ v : ℕ, getMinEditDistancePrefixNaive path medoid = some (v : ℤ) ∧
      IsLeast (prefixDistances path medoid) v := by
  obtain ⟨v, hv, hbest, hle, hor⟩ := exists_foldlM_least
    (f := fun i => getFragmentEditDistanceNaive path (medoid.take i))
    (g := fun i => levenshtein path (medoid.take i)) (List.range' 0 (medoid.length + 1))
    (fun i _ => by
      have hi := List.length_take_le' i medoid
      unfold getFragmentEditDistanceNaive
      rw [row_eq, if_pos (by omega)]) 10000000
  have hlower : v ∈ lowerBounds (prefixDistances path medoid) := by
    rintro _ ⟨p, hpre, rfl⟩
    have h := hle p.length (List.mem_range'_1.2 ⟨Nat.zero_le _, by have := hpre.length_le; omega⟩)
    rwa [← List.prefix_iff_eq_take.1 hpre] at h
  refine ⟨v, hv, ?_, hlower⟩
  rcases hor with h | ⟨i, _, h⟩
  · have := hlower (length_mem_prefixDistances path medoid)
    omega
  · exact ⟨medoid.take i, List.take_prefix i medoid, h⟩

theorem getMinEditDistancePrefixes_isLeast (hne : medoids ≠ []) (hp : path.length ≤ 1000000)
    (hm : ∀ medoid ∈ medoids, medoid.length ≤ 2000000) :
    ∃ v : ℕ, getMinEditDistancePrefixes path medoids = some (v : ℤ) ∧
      IsLeast (medoidDistances path medoids) v := by
  classical
  choose! g hg hleast using fun (medoid : Path) (h : medoid.length ≤ 2000000) =>
    getMinEditDistancePrefixNaive_isLeast hp h
  obtain ⟨v, hv, hbest, hle, hor⟩ := exists_foldlM_least (f := getMinEditDistancePrefixNaive path)
    (g := g) medoids (fun medoid h => hg medoid (hm medoid h)) 1000000
  have hlower : v ∈ lowerBounds (medoidDistances path medoids) := by
    rintro d ⟨medoid, h, hd⟩
    exact (hle medoid h).trans ((hleast medoid (hm medoid h)).2 hd)
  refine ⟨v, hv, ?_, hlower⟩
  rcases hor with h | ⟨medoid, hmem, h⟩
  · -- the start value is the least only when the distance to the empty prefix is no greater
    obtain ⟨medoid, hmem⟩ := List.exists_mem_of_ne_nil medoids hne
    have hlen : path.length ∈ medoidDistances path medoids :=
      ⟨medoid, hmem, length_mem_prefixDistances path medoid⟩
    have hv' := hlower hlen
    rwa [show v = path.length by omega]
  · exact ⟨medoid, hmem, h ▸ (hleast medoid (hm medoid hmem)).1⟩

/-- A further block changes the least distance by one at most. -/
theorem isLeast_concat {v w : ℕ} (b : BitVec 64) (hv : IsLeast (medoidDistances path medoids) v)
    (hw : IsLeast (medoidDistances (path ++ [b]) medoids) w) : w ≤ v + 1 ∧ v ≤ w + 1 := by
  obtain ⟨⟨medoid, hm, p, hp, rfl⟩, hvle⟩ := hv
  obtain ⟨⟨medoid', hm', p', hp', rfl⟩, hwle⟩ := hw
  exact ⟨(hwle ⟨medoid, hm, p, hp, rfl⟩).trans (levenshtein_concat_le b path p),
    (hvle ⟨medoid', hm', p', hp', rfl⟩).trans (levenshtein_le_concat b path p')⟩

theorem zero_mem_medoidDistances :
    0 ∈ medoidDistances path medoids ↔ ∃ medoid ∈ medoids, path <+: medoid := by
  constructor
  · rintro ⟨medoid, hm, p, hp, h⟩
    exact ⟨medoid, hm, levenshtein_eq_zero.1 h.symm ▸ hp⟩
  · rintro ⟨medoid, hm, hp⟩
    exact ⟨medoid, hm, path, hp, (levenshtein_self path).symm⟩

/-- The score is the least distance to a prefix of a medoid, vanishes on the prefixes and
moves by one at most with each block. -/
theorem getMinEditDistancePrefixes_wellBehaved (hne : medoids ≠ [])
    (hdist : ∀ d ∈ medoidDistances path medoids, d < 1000000) :
    ∃ v : ℕ, getMinEditDistancePrefixes path medoids = some (v : ℤ) ∧
      IsLeast (medoidDistances path medoids) v ∧
      (v = 0 ↔ ∃ medoid ∈ medoids, path <+: medoid) ∧
      ∀ b, ∃ w : ℕ, getMinEditDistancePrefixes (path ++ [b]) medoids = some (w : ℤ) ∧
        w ≤ v + 1 ∧ v ≤ w + 1 := by
  obtain ⟨medoid, hmem⟩ := List.exists_mem_of_ne_nil medoids hne
  have hp := hdist _ ⟨medoid, hmem, length_mem_prefixDistances path medoid⟩
  have hm : ∀ medoid ∈ medoids, medoid.length ≤ 2000000 := fun medoid h => by
    have hd := hdist _ ⟨medoid, h, medoid, List.prefix_rfl, rfl⟩
    have hlen := length_le_add_levenshtein medoid path
    rw [levenshtein_comm] at hlen
    omega
  obtain ⟨v, hv, hleast⟩ := getMinEditDistancePrefixes_isLeast hne hp.le hm
  refine ⟨v, hv, hleast, ?_, fun b => ?_⟩
  · rw [← zero_mem_medoidDistances]
    exact ⟨fun h => h ▸ hleast.1, fun h => Nat.le_zero.1 (hleast.2 h)⟩
  · obtain ⟨w, hw, hleast'⟩ := getMinEditDistancePrefixes_isLeast hne
      (show (path ++ [b]).length ≤ 1000000 by rw [List.length_append]; exact hp) hm
    exact ⟨w, hw, isLeast_concat b hleast hleast'⟩

theorem getMinEditDistancePrefixes_wellBehaved_two :
    ∃ v : ℕ, getMinEditDistancePrefixes [1, 3] [[1, 2, 3], [4]] = some (v : ℤ) ∧
      IsLeast (medoidDistances [1, 3] [[1, 2, 3], [4]]) v ∧
      (v = 0 ↔ ∃ medoid ∈ ([[1, 2, 3], [4]] : List Path), [1, 3] <+: medoid) ∧
      ∀ b, ∃ w : ℕ, getMinEditDistancePrefixes ([1, 3] ++ [b]) [[1, 2, 3], [4]] = some (w : ℤ) ∧
        w ≤ v + 1 ∧ v ≤ w + 1 :=
  getMinEditDistancePrefixes_wellBehaved (by decide) (by
    rintro d ⟨medoid, hm, p, hp, rfl⟩
    have hlen : medoid.length ≤ 3 := by
      rcases List.mem_cons.1 hm with rfl | hm
      · decide
      · rw [List.mem_singleton.1 hm]
        decide
    have hle := levenshtein_le_max [1, 3] p
    have hpl := hp.length_le
    simp only [List.length_cons, List.length_nil] at hle
    omega)

end EditDistance

end TaseVerifier
