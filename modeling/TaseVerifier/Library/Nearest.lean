import Mathlib.Algebra.BigOperators.Group.List.Basic
import Mathlib.Algebra.Order.BigOperators.Group.List
import Mathlib.Algebra.Order.Ring.Nat
import Mathlib.Data.List.Nodup

/-! Distances to the nearest of finitely many centers, the cost of a choice of centers, and
the two ways a choice can be good: no exchange of one center lowers the cost, or the centers
were taken one by one, each as far as possible from those before it. -/

namespace TaseVerifier.Library

variable {α : Type} (d : α → α → ℕ)

/-- The distance from `x` to the nearest center; 0 when there is none. -/
def nearest (M : List α) (x : α) : ℕ := ((M.map (d x)).min?).getD 0

variable {d} {M : List α} {x m : α}

theorem min?_eq_nearest (hM : M ≠ []) : (M.map (d x)).min? = some (nearest d M x) := by
  cases h : (M.map (d x)).min? with
  | none =>
    rw [List.min?_eq_none_iff, List.map_eq_nil_iff] at h
    exact absurd h hM
  | some v => rw [nearest, h, Option.getD_some]

theorem nearest_le (hm : m ∈ M) : nearest d M x ≤ d x m := by
  have h := (List.min?_eq_some_iff.mp (min?_eq_nearest (d := d) (x := x)
    (List.ne_nil_of_mem hm))).2
  exact h _ (List.mem_map_of_mem hm)

/-- The distance is attained at a center. -/
theorem exists_nearest (hM : M ≠ []) (x : α) : ∃ m ∈ M, d x m = nearest d M x :=
  List.mem_map.mp (List.min?_eq_some_iff.mp (min?_eq_nearest (d := d) (x := x) hM)).1

theorem le_nearest {v : ℕ} (hM : M ≠ []) (h : ∀ m ∈ M, v ≤ d x m) : v ≤ nearest d M x := by
  obtain ⟨m, hm, he⟩ := exists_nearest (d := d) hM x
  exact he ▸ h m hm

theorem nearest_eq_zero (hx : x ∈ M) (h : d x x = 0) : nearest d M x = 0 :=
  Nat.le_zero.mp (h ▸ nearest_le hx)

theorem nearest_singleton : nearest d [m] x = d x m := rfl

theorem nearest_append (hM : M ≠ []) :
    nearest d (M ++ [m]) x = min (nearest d M x) (d x m) := by
  apply le_antisymm
  · refine le_min (le_nearest hM fun m' hm' => nearest_le (by simp [hm'])) (nearest_le (by simp))
  · refine le_nearest (by simp) fun m' hm' => ?_
    rcases List.mem_append.mp hm' with h | h
    · exact (min_le_left _ _).trans (nearest_le h)
    · rw [List.mem_singleton.mp h]
      exact min_le_right _ _

variable (d) in
/-- The sum of the distances from the points to their nearest centers. -/
def totalDistance (X M : List α) : ℕ := (X.map (nearest d M)).sum

theorem nearest_le_totalDistance {X : List α} (hx : x ∈ X) :
    nearest d M x ≤ totalDistance d X M :=
  List.single_le_sum (fun _ _ => Nat.zero_le _) _ (List.mem_map_of_mem hx)

theorem nearest_mono {N : List α} (hN : N ≠ []) (h : N ⊆ M) : nearest d M x ≤ nearest d N x :=
  le_nearest hN fun _ hm => nearest_le (h hm)

theorem totalDistance_append (X Y M : List α) :
    totalDistance d (X ++ Y) M = totalDistance d X M + totalDistance d Y M := by
  rw [totalDistance, List.map_append, List.sum_append]
  rfl

theorem totalDistance_prefix_le {X Y : List α} (h : X <+: Y) (M : List α) :
    totalDistance d X M ≤ totalDistance d Y M := by
  obtain ⟨Z, rfl⟩ := h
  rw [totalDistance_append]
  exact Nat.le_add_right _ _

/-- After an exchange in a list without repetitions the old center is gone. -/
theorem mem_set_of_nodup {l : List α} (hl : l.Nodup) {id : ℕ} {old x : α}
    (hold : l[id]? = some old) (m : α) : m ∈ l.set id x ↔ m = x ∨ m ≠ old ∧ m ∈ l := by
  obtain ⟨hid, rfl⟩ := List.getElem?_eq_some_iff.mp hold
  obtain ⟨A, B, hAB, -, hset⟩ :
      ∃ A B, l = A ++ l[id] :: B ∧ A.length = id ∧ l.set id x = A ++ x :: B :=
    List.exists_of_set hid
  rw [hset]
  generalize l[id] = old at hAB
  subst hAB
  obtain ⟨hA, hB⟩ : old ∉ A ∧ old ∉ B := by
    rw [List.nodup_middle, List.nodup_cons, List.mem_append] at hl
    exact ⟨fun h => hl.1 (.inl h), fun h => hl.1 (.inr h)⟩
  simp only [List.mem_append, List.mem_cons]
  constructor
  · rintro (h | rfl | h)
    · exact .inr ⟨ne_of_mem_of_not_mem h hA, .inl h⟩
    · exact .inl rfl
    · exact .inr ⟨ne_of_mem_of_not_mem h hB, .inr (.inr h)⟩
  · rintro (rfl | ⟨hne, h | rfl | h⟩)
    · exact .inr (.inl rfl)
    · exact .inl h
    · exact absurd rfl hne
    · exact .inr (.inr h)

variable (d) in
/-- No exchange of one center for another point lowers the cost. -/
def SwapOptimal (X M : List α) : Prop :=
  ∀ id < M.length, ∀ x ∈ X, x ∉ M → totalDistance d X M ≤ totalDistance d X (M.set id x)

variable (d) in
/-- Each center after the first is a point as far as possible from those before it. -/
def FarthestFirst (X M : List α) : Prop :=
  ∀ N m, N ++ [m] <+: M → N ≠ [] → ∀ x ∈ X, x ∉ N → nearest d N x ≤ nearest d N m

theorem farthestFirst_nil (X : List α) : FarthestFirst d X [] := by
  intro N m h
  simp at h

theorem farthestFirst_append {X : List α} : FarthestFirst d X (M ++ [m]) ↔
    FarthestFirst d X M ∧ (M ≠ [] → ∀ x ∈ X, x ∉ M → nearest d M x ≤ nearest d M m) := by
  constructor
  · intro h
    exact ⟨fun N m' hN => h N m' (hN.trans (List.prefix_append _ _)),
      h M m (List.prefix_refl _)⟩
  · rintro ⟨h, hm⟩ N m' hN
    rcases List.prefix_concat_iff.mp hN with he | hN
    · obtain ⟨rfl, hlast⟩ := List.append_inj' he rfl
      rw [List.singleton_inj.mp hlast]
      exact hm
    · exact h N m' hN

end TaseVerifier.Library
