import Mathlib.Data.Nat.Bitwise
import Mathlib.Data.Nat.Find
import Mathlib.Tactic.Common

/-! The lowest one of a word, and what adding, clearing and isolating it do. -/

namespace TaseVerifier.Library

variable {w : ℕ} {x y : BitVec w} {k : ℕ}

/-- No bit below `k`. -/
def ZeroBelow (x : BitVec w) (k : ℕ) : Prop := ∀ j < k, x.getLsbD j = false

/-- No bit from `k` on. -/
def ZeroFrom (x : BitVec w) (k : ℕ) : Prop := ∀ j, k ≤ j → x.getLsbD j = false

/-- The lowest one is at `k`. -/
structure IsLowest (x : BitVec w) (k : ℕ) : Prop where
  bit : x.getLsbD k = true
  below : ZeroBelow x k

theorem ZeroFrom.width (x : BitVec w) : ZeroFrom x w := fun j hj => x.getLsbD_of_ge j hj

theorem ZeroFrom.mono (h : ZeroFrom x k) {n : ℕ} (hkn : k ≤ n) : ZeroFrom x n :=
  fun j hj => h j (hkn.trans hj)

theorem exists_isLowest (hx : x ≠ 0#w) : ∃ k, IsLowest x k := by
  have hone : ∃ k, x.getLsbD k = true := by
    by_contra hnone
    refine hx (BitVec.eq_of_getLsbD_eq fun i _ => ?_)
    rw [BitVec.getLsbD_zero]
    exact Bool.eq_false_of_not_eq_true fun h => hnone ⟨i, h⟩
  refine ⟨Nat.find hone, Nat.find_spec hone, fun j hj => ?_⟩
  exact Bool.eq_false_of_not_eq_true (Nat.find_min hone hj)

theorem IsLowest.lt (h : IsLowest x k) : k < w := BitVec.lt_of_getLsbD h.bit

theorem IsLowest.ne_zero (h : IsLowest x k) : x ≠ 0#w := by
  rintro rfl
  simpa using h.bit

theorem IsLowest.le (h : IsLowest x k) {n : ℕ} (hx : ZeroBelow x n) : n ≤ k := by
  by_contra hlt
  have := hx k (not_le.mp hlt)
  rw [h.bit] at this
  cases this

theorem zeroBelow_iff_dvd : ZeroBelow x k ↔ 2 ^ k ∣ x.toNat := by
  rw [Nat.dvd_iff_mod_eq_zero]
  constructor
  · intro h
    refine Nat.eq_of_testBit_eq fun j => ?_
    rw [Nat.testBit_mod_two_pow, Nat.zero_testBit]
    by_cases hj : j < k
    · rw [BitVec.testBit_toNat, h j hj, Bool.and_false]
    · simp [hj]
  · intro h j hj
    have := congrArg (Nat.testBit · j) h
    rw [← BitVec.testBit_toNat]
    simpa [Nat.testBit_mod_two_pow, hj] using this

/-! ### Single bits -/

theorem twoPow_succ (w i : ℕ) :
    BitVec.twoPow w (i + 1) = BitVec.twoPow w i + BitVec.twoPow w i := by
  refine BitVec.eq_of_toNat_eq ?_
  rw [BitVec.toNat_add, BitVec.toNat_twoPow, BitVec.toNat_twoPow, ← Nat.add_mod, pow_succ,
    Nat.mul_two]

theorem twoPow_shiftRight {i : ℕ} (hne : i ≠ 0) (hi : i < w) :
    BitVec.twoPow w i >>> 1 = BitVec.twoPow w (i - 1) := by
  refine BitVec.eq_of_getLsbD_eq fun j hj => ?_
  rw [BitVec.getLsbD_ushiftRight, BitVec.getLsbD_twoPow, BitVec.getLsbD_twoPow]
  have hbelow : i - 1 < w := by omega
  have hiff : i = 1 + j ↔ i - 1 = j := by omega
  simp [hi, hbelow, hiff]

theorem or_twoPow_eq_add (h : x.getLsbD k = false) :
    x ||| BitVec.twoPow w k = x + BitVec.twoPow w k := by
  rw [BitVec.add_eq_or_of_and_eq_zero]
  rw [BitVec.and_twoPow, h]
  rfl

theorem xor_twoPow_eq_or (h : x.getLsbD k = false) :
    x ^^^ BitVec.twoPow w k = x ||| BitVec.twoPow w k := by
  refine BitVec.eq_of_getLsbD_eq fun j _ => ?_
  rw [BitVec.getLsbD_xor, BitVec.getLsbD_or, BitVec.getLsbD_twoPow]
  by_cases hj : k = j
  · subst hj
    simp [h]
  · simp [hj]

theorem xor_twoPow_eq_add (h : x.getLsbD k = false) :
    x ^^^ BitVec.twoPow w k = x + BitVec.twoPow w k := by
  rw [xor_twoPow_eq_or h, or_twoPow_eq_add h]

theorem xor_twoPow_eq_sub (h : x.getLsbD k = true) :
    x ^^^ BitVec.twoPow w k = x - BitVec.twoPow w k := by
  have hclear : (x ^^^ BitVec.twoPow w k).getLsbD k = false := by
    simp [h, BitVec.lt_of_getLsbD h]
  have hback := xor_twoPow_eq_add hclear
  rw [BitVec.xor_assoc, BitVec.xor_self, BitVec.xor_zero] at hback
  rw [BitVec.eq_sub_iff_add_eq, ← hback]

theorem toNat_xor_twoPow (h : x.getLsbD k = true) :
    (x ^^^ BitVec.twoPow w k).toNat + 2 ^ k = x.toNat := by
  have hk : k < w := BitVec.lt_of_getLsbD h
  have hle : 2 ^ k ≤ x.toNat := Nat.ge_two_pow_of_testBit h
  rw [xor_twoPow_eq_sub h, BitVec.toNat_sub_of_le, BitVec.toNat_twoPow_of_lt hk,
    Nat.sub_add_cancel hle]
  rwa [BitVec.le_def, BitVec.toNat_twoPow_of_lt hk]

theorem isLowest_twoPow (hk : k < w) : IsLowest (BitVec.twoPow w k) k where
  bit := by simp [hk]
  below j hj := by
    have hne : k ≠ j := by omega
    rw [BitVec.getLsbD_twoPow]
    simp [hne]

theorem ZeroFrom.or_twoPow (h : ZeroFrom x k) {i : ℕ} (hi : i < k) :
    ZeroFrom (x ||| BitVec.twoPow w i) k := by
  intro j hj
  have hij : i ≠ j := by omega
  simp [h j hj, BitVec.getLsbD_twoPow, hij]

theorem ZeroFrom.xor_twoPow (h : ZeroFrom x k) {i : ℕ} (hi : i < k) :
    ZeroFrom (x ^^^ BitVec.twoPow w i) k := by
  intro j hj
  have hij : i ≠ j := by omega
  simp [h j hj, BitVec.getLsbD_twoPow, hij]

/-! ### The lowest one -/

theorem and_neg_eq_twoPow (h : IsLowest x k) : x &&& -x = BitVec.twoPow w k := by
  refine BitVec.eq_of_getLsbD_eq fun i hi => ?_
  rw [BitVec.getLsbD_and, BitVec.getLsbD_neg, BitVec.getLsbD_twoPow]
  rcases lt_trichotomy i k with hik | rfl | hki
  · have hne : k ≠ i := by omega
    simp [h.below i hik, hne]
  · have hnone : ¬ ∃ j < i, x.getLsbD j = true := by
      rintro ⟨j, hj, hbit⟩
      rw [h.below j hj] at hbit
      cases hbit
    simp [h.bit, hi, hnone]
  · have hsome : ∃ j < i, x.getLsbD j = true := ⟨k, hki, h.bit⟩
    have hne : k ≠ i := by omega
    simp [hi, hsome, hne]

/-- The carry of the lowest one clears its place. -/
theorem zeroBelow_add_twoPow (h : IsLowest x k) : ZeroBelow (x + BitVec.twoPow w k) (k + 1) := by
  obtain ⟨m, hm⟩ := zeroBelow_iff_dvd.mp h.below
  have hodd : m % 2 = 1 := by
    have hbit := h.bit
    rw [BitVec.getLsbD, hm, Nat.testBit_two_pow_mul] at hbit
    simpa [Nat.testBit_zero] using hbit
  rw [zeroBelow_iff_dvd, BitVec.toNat_add, BitVec.toNat_twoPow_of_lt h.lt,
    Nat.dvd_mod_iff (Nat.pow_dvd_pow 2 h.lt), hm]
  refine ⟨m / 2 + 1, ?_⟩
  have hsplit : m + 1 = 2 * (m / 2 + 1) := by omega
  calc 2 ^ k * m + 2 ^ k = 2 ^ k * (m + 1) := rfl
    _ = 2 ^ k * (2 * (m / 2 + 1)) := by rw [hsplit]
    _ = 2 ^ (k + 1) * (m / 2 + 1) := by rw [pow_succ, Nat.mul_assoc]

theorem zeroBelow_xor_twoPow (h : IsLowest x k) :
    ZeroBelow (x ^^^ BitVec.twoPow w k) (k + 1) := by
  intro j hj
  rw [BitVec.getLsbD_xor, BitVec.getLsbD_twoPow]
  rcases Nat.lt_succ_iff_lt_or_eq.mp hj with hjk | rfl
  · have hne : k ≠ j := by omega
    simp [h.below j hjk, hne]
  · simp [h.bit, h.lt]

end TaseVerifier.Library
