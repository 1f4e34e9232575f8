import Mathlib.Data.List.Nodup
import Mathlib.Data.List.Perm.Subperm
import Mathlib.Tactic.Linarith
import Mathlib.Tactic.Ring

/-! Ranges of one size that a bump pointer hands out. -/

namespace TaseVerifier.Library

/-- Two ranges of `size` addresses have none in common. -/
def Apart (size a b : ℕ) : Prop := a + size ≤ b ∨ b + size ≤ a

instance (size a b : ℕ) : Decidable (Apart size a b) := inferInstanceAs (Decidable (_ ∨ _))

theorem Apart.symm {size a b : ℕ} (h : Apart size a b) : Apart size b a := Or.symm h

/-- The ranges lie between `lo` and `hi`, each apart from the others. -/
structure Packed (size lo hi : ℕ) (l : List ℕ) : Prop where
  apart : l.Pairwise (Apart size)
  lower : ∀ a ∈ l, lo ≤ a
  upper : ∀ a ∈ l, a + size ≤ hi

/-- The next ranges of the bump pointer. -/
def ranges (size next n : ℕ) : List ℕ := (List.range n).map fun i => next + i * size

@[simp] theorem length_ranges (size next n : ℕ) : (ranges size next n).length = n := by
  rw [ranges, List.length_map, List.length_range]

@[simp] theorem ranges_zero (size next : ℕ) : ranges size next 0 = [] := rfl

theorem ranges_succ (size next n : ℕ) :
    ranges size next (n + 1) = next :: ranges size (next + size) n := by
  have hadd : ∀ i, next + (i + 1) * size = next + size + i * size := fun i => by ring
  rw [ranges, ranges, List.range_succ_eq_map, List.map_cons, List.map_map]
  simp [hadd]

theorem nodup_ranges {size : ℕ} (h : 0 < size) (next n : ℕ) : (ranges size next n).Nodup := by
  refine List.Nodup.map (fun i j hij => ?_) List.nodup_range
  exact Nat.eq_of_mul_eq_mul_right h (Nat.add_left_cancel hij)

namespace Packed

variable {size lo hi : ℕ} {l l' : List ℕ}

theorem nil : Packed size lo hi [] := ⟨.nil, by simp, by simp⟩

theorem perm (h : Packed size lo hi l) (hl : l'.Perm l) : Packed size lo hi l' where
  apart := (hl.pairwise_iff Apart.symm).mpr h.apart
  lower := fun a ha => h.lower a (hl.subset ha)
  upper := fun a ha => h.upper a (hl.subset ha)

theorem subperm (h : Packed size lo hi l) (hl : l'.Subperm l) : Packed size lo hi l' := by
  obtain ⟨k, hk, hsub⟩ := hl
  have hp : Packed size lo hi k :=
    ⟨h.apart.sublist hsub, fun a ha => h.lower a (hsub.subset ha),
      fun a ha => h.upper a (hsub.subset ha)⟩
  exact hp.perm hk.symm

theorem apart_ranges (next n : ℕ) : (ranges size next n).Pairwise (Apart size) := by
  refine List.pairwise_map.mpr (List.pairwise_lt_range.imp fun {i j} hij => .inl ?_)
  have hle : (i + 1) * size ≤ j * size := Nat.mul_le_mul_right size hij
  linarith [Nat.succ_mul i size]

/-- What is below the bump pointer is none of what it hands out. -/
theorem notMem_ranges (h : Packed size lo hi l) (hsize : 0 < size) {a : ℕ} (ha : a ∈ l) (n : ℕ) :
    a ∉ ranges size hi n := by
  intro hmem
  obtain ⟨i, -, heq⟩ := List.mem_map.mp hmem
  have hle := h.upper a ha
  omega

/-- What the bump pointer hands out is apart from what is below it. -/
theorem append_ranges (h : Packed size lo hi l) (hlo : lo ≤ hi) (n : ℕ) :
    Packed size lo (hi + n * size) (l ++ ranges size hi n) where
  apart := by
    refine List.pairwise_append.mpr ⟨h.apart, apart_ranges hi n, fun a ha b hb => .inl ?_⟩
    obtain ⟨i, -, rfl⟩ := List.mem_map.mp hb
    exact (h.upper a ha).trans (Nat.le_add_right _ _)
  lower := by
    intro a ha
    obtain ha | ha := List.mem_append.mp ha
    · exact h.lower a ha
    · obtain ⟨i, -, rfl⟩ := List.mem_map.mp ha
      exact hlo.trans (Nat.le_add_right _ _)
  upper := by
    intro a ha
    obtain ha | ha := List.mem_append.mp ha
    · exact (h.upper a ha).trans (Nat.le_add_right _ _)
    · obtain ⟨i, hi, rfl⟩ := List.mem_map.mp ha
      have hle : (i + 1) * size ≤ n * size := Nat.mul_le_mul_right size (List.mem_range.mp hi)
      linarith [Nat.succ_mul i size]

end Packed

end TaseVerifier.Library
