import Mathlib.Order.Compare

/-! Comparators that return an `Ordering`, put together lexicographically. -/

namespace TaseVerifier.Library

/-- Three results fit together as those for `a` with `b`, `b` with `c` and `a` with `c`. -/
structure Chained (p q r : Ordering) : Prop where
  lt : p = .lt → q = .lt → r = .lt
  left : p = .eq → r = q
  right : q = .eq → r = p

theorem Chained.eq : Chained .eq .eq .eq := ⟨nofun, fun _ => rfl, fun _ => rfl⟩

/-- The second results matter only where the first ones are equalities. -/
theorem Chained.then {p q r p' q' r' : Ordering} (h : Chained p q r)
    (h' : p = .eq → q = .eq → Chained p' q' r') :
    Chained (p.then p') (q.then q') (r.then r') := by
  obtain ⟨hlt, hl, hr⟩ := h
  cases p with
  | eq =>
    obtain rfl := hl rfl
    cases r with
    | eq => exact h' rfl rfl
    | lt => exact ⟨fun _ _ => rfl, fun _ => rfl, nofun⟩
    | gt => exact ⟨fun _ h => h, fun _ => rfl, nofun⟩
  | lt =>
    cases q with
    | eq =>
      obtain rfl := hr rfl
      exact ⟨fun _ _ => rfl, nofun, fun _ => rfl⟩
    | lt =>
      obtain rfl := hlt rfl rfl
      exact ⟨fun _ _ => rfl, nofun, nofun⟩
    | gt => exact ⟨nofun, nofun, nofun⟩
  | gt =>
    cases q with
    | eq =>
      obtain rfl := hr rfl
      exact ⟨nofun, nofun, fun _ => rfl⟩
    | lt => exact ⟨nofun, nofun, nofun⟩
    | gt => exact ⟨nofun, nofun, nofun⟩

/-- As for `Chained.then`, the second results matter only after an equality. -/
theorem then_swap {p q p' q' : Ordering} (h : p' = p.swap) (h' : p = .eq → q' = q.swap) :
    p'.then q' = (p.then q).swap := by
  subst h
  cases p with
  | eq => exact h' rfl
  | lt => rfl
  | gt => rfl

theorem compare_swap_eq {α : Type*} [LinearOrder α] (a b : α) :
    compare b a = (compare a b).swap := by
  obtain h | rfl | h := lt_trichotomy a b
  · rw [compare_lt_iff_lt.mpr h, compare_gt_iff_gt.mpr h]
    rfl
  · rw [compare_eq_iff_eq.mpr rfl]
    rfl
  · rw [compare_gt_iff_gt.mpr h, compare_lt_iff_lt.mpr h]
    rfl

theorem chained_compare {α : Type*} [LinearOrder α] (a b c : α) :
    Chained (compare a b) (compare b c) (compare a c) where
  lt h h' := compare_lt_iff_lt.mpr ((compare_lt_iff_lt.mp h).trans (compare_lt_iff_lt.mp h'))
  left h := by rw [compare_eq_iff_eq.mp h]
  right h := by rw [compare_eq_iff_eq.mp h]

/-- The comparator of a total order, in which only equal things compare equal. -/
structure TotalOrder {α : Type*} (cmp : α → α → Ordering) : Prop where
  eq_iff : ∀ a b, cmp a b = .eq ↔ a = b
  swap : ∀ a b, cmp b a = (cmp a b).swap
  chained : ∀ a b c, Chained (cmp a b) (cmp b c) (cmp a c)

namespace TotalOrder

variable {α : Type*} {cmp : α → α → Ordering} (h : TotalOrder cmp)

include h

theorem antisymm {a b : α} (hab : cmp a b ≠ .gt) (hba : cmp b a ≠ .gt) : a = b := by
  rw [h.swap a b] at hba
  refine (h.eq_iff a b).mp ?_
  cases hc : cmp a b with
  | eq => rfl
  | lt => exact absurd (by rw [hc]; rfl) hba
  | gt => exact absurd hc hab

theorem total (a b : α) : cmp a b ≠ .gt ∨ cmp b a ≠ .gt := by
  rw [h.swap a b]
  cases cmp a b <;> simp

theorem trans {a b c : α} (hab : cmp a b ≠ .gt) (hbc : cmp b c ≠ .gt) : cmp a c ≠ .gt := by
  have hchain := h.chained a b c
  cases hp : cmp a b with
  | eq => rwa [hchain.left hp]
  | gt => exact absurd hp hab
  | lt =>
    cases hq : cmp b c with
    | eq => rwa [hchain.right hq]
    | gt => exact absurd hq hbc
    | lt => rw [hchain.lt hp hq]; nofun

end TotalOrder

end TaseVerifier.Library
