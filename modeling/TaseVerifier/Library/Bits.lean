import Mathlib.Data.Nat.Bitwise
import Mathlib.Order.Basic
import Mathlib.Tactic.Common

/-! Comparing natural numbers bit by bit: the bits from a position on, the prefix, decide
unless they agree, and then the bits below do. Last, words: two parts put together, and masks set and cleared. -/

namespace TaseVerifier.Library.Bits

variable {x y k : ℕ}

theorem shiftRight_eq_bit (x k : ℕ) : x >>> k = Nat.bit (x.testBit k) (x >>> (k + 1)) := by
  have hbit : x.testBit k = (x >>> k).bodd := by
    rw [Nat.testBit, Nat.and_comm, Nat.and_one_is_mod, Nat.bodd_eq_one_and_ne_zero,
      Nat.and_comm, Nat.and_one_is_mod]
  rw [Nat.shiftRight_succ, hbit, ← Nat.div2_val]
  exact (Nat.bit_bodd_div2 _).symm

theorem lt_of_shiftRight_lt (h : x >>> k < y >>> k) : x < y := by
  by_contra hle
  rw [Nat.shiftRight_eq_div_pow, Nat.shiftRight_eq_div_pow] at h
  exact absurd (Nat.div_le_div_right (not_lt.mp hle)) (not_le.mpr h)

theorem shiftRight_le (h : x ≤ y) (k : ℕ) : x >>> k ≤ y >>> k := by
  rw [Nat.shiftRight_eq_div_pow, Nat.shiftRight_eq_div_pow]
  exact Nat.div_le_div_right h

/-- With one prefix the bits below decide. -/
theorem le_iff_mod (h : x >>> k = y >>> k) : x ≤ y ↔ x % 2 ^ k ≤ y % 2 ^ k := by
  rw [Nat.shiftRight_eq_div_pow, Nat.shiftRight_eq_div_pow] at h
  have hx := Nat.div_add_mod x (2 ^ k)
  have hy := Nat.div_add_mod y (2 ^ k)
  rw [h] at hx
  omega

/-- With no bits below to compare. -/
theorem le_of_low_zero (hhigh : x >>> k ≤ y >>> k) (hlow : x % 2 ^ k = 0) : x ≤ y := by
  rcases hhigh.lt_or_eq with hlt | heq
  · exact (lt_of_shiftRight_lt hlt).le
  · rw [le_iff_mod heq, hlow]
    exact Nat.zero_le _

theorem le_of_low_ones (hhigh : x >>> k ≤ y >>> k) (hlow : y % 2 ^ k = 2 ^ k - 1) : x ≤ y := by
  rcases hhigh.lt_or_eq with hlt | heq
  · exact (lt_of_shiftRight_lt hlt).le
  · rw [le_iff_mod heq, hlow]
    exact Nat.le_pred_of_lt (Nat.mod_lt _ (Nat.two_pow_pos k))

theorem eq_of_prefix_zero (h : x >>> 0 = y >>> 0) : x = y := h

/-- One more bit of a common prefix. -/
theorem prefix_of_bit (h : x >>> (k + 1) = y >>> (k + 1)) (hbit : x.testBit k = y.testBit k) :
    x >>> k = y >>> k := by
  rw [shiftRight_eq_bit x, shiftRight_eq_bit y, h, hbit]

/-- The larger number has the next bit if the smaller one has it. -/
theorem testBit_of_le (h : x >>> (k + 1) = y >>> (k + 1)) (hle : x ≤ y)
    (hx : x.testBit k = true) : y.testBit k = true := by
  by_contra hy
  have hlt : y >>> k < x >>> k := by
    rw [shiftRight_eq_bit x, shiftRight_eq_bit y, h, hx, Bool.eq_false_of_not_eq_true hy]
    simp [Nat.bit_val]
  exact absurd (lt_of_shiftRight_lt hlt) (not_lt.mpr hle)

/-- The smaller number lacks the next bit if the larger one does. -/
theorem testBit_of_ge (h : x >>> (k + 1) = y >>> (k + 1)) (hle : y ≤ x)
    (hx : x.testBit k = false) : y.testBit k = false := by
  by_contra hy
  have hset := testBit_of_le h.symm hle (Bool.eq_true_of_not_eq_false hy)
  rw [hx] at hset
  cases hset

/-- `(x | m) & -m` for the bit `m` at `k`. -/
def raise (x k : ℕ) : ℕ := (x ||| 2 ^ k) >>> k <<< k

theorem raise_mod (x k : ℕ) : raise x k % 2 ^ k = 0 := by
  rw [raise, Nat.shiftLeft_eq]
  exact Nat.mul_mod_left _ _

theorem raise_shiftRight (x k : ℕ) : raise x k >>> k = Nat.bit true (x >>> (k + 1)) := by
  have h : raise x k >>> k = (x ||| 2 ^ k) >>> k := by
    rw [raise, Nat.shiftLeft_shiftRight]
  rw [h, Nat.shiftRight_or_distrib, shiftRight_eq_bit x]
  have hm : 2 ^ k >>> k = Nat.bit true 0 := by
    rw [Nat.shiftRight_eq_div_pow, Nat.div_self (Nat.two_pow_pos k)]
    rfl
  rw [hm, Nat.lor_bit]
  simp

/-- `(x & ~m) | (m - 1)` for the bit `m` at `k`. -/
def lower (x k : ℕ) : ℕ := x.ldiff (2 ^ k) ||| (2 ^ k - 1)

theorem testBit_lower (x k i : ℕ) :
    (lower x k).testBit i = (x.testBit i && decide (k ≠ i) || decide (i < k)) := by
  simp [lower, Nat.testBit_ldiff, Nat.testBit_two_pow]

theorem lower_mod (x k : ℕ) : lower x k % 2 ^ k = 2 ^ k - 1 := by
  refine Nat.eq_of_testBit_eq fun i => ?_
  rw [Nat.testBit_mod_two_pow, testBit_lower, Nat.testBit_two_pow_sub_one]
  by_cases hi : i < k <;> simp [hi]

theorem lower_shiftRight (x k : ℕ) : lower x k >>> k = Nat.bit false (x >>> (k + 1)) := by
  refine Nat.eq_of_testBit_eq fun i => ?_
  rw [Nat.testBit_shiftRight, testBit_lower]
  cases i with
  | zero => simp
  | succ i =>
    rw [Nat.testBit_bit_succ, Nat.testBit_shiftRight]
    have hi : k + (i + 1) = k + 1 + i := by omega
    have hne : k ≠ k + 1 + i := by omega
    have hlt : ¬ k + 1 + i < k := by omega
    simp [hi, hne, hlt]

theorem or_shiftRight (x y k : ℕ) :
    (x ||| y) >>> k = Nat.bit (x.testBit k || y.testBit k) (x >>> (k + 1) ||| y >>> (k + 1)) := by
  rw [Nat.shiftRight_or_distrib, shiftRight_eq_bit x, shiftRight_eq_bit y, Nat.lor_bit]

theorem and_shiftRight (x y k : ℕ) :
    (x &&& y) >>> k = Nat.bit (x.testBit k && y.testBit k) (x >>> (k + 1) &&& y >>> (k + 1)) := by
  rw [Nat.shiftRight_and_distrib, shiftRight_eq_bit x, shiftRight_eq_bit y, Nat.land_bit]

theorem bit_false_lt_bit_true (n : ℕ) : Nat.bit false n < Nat.bit true n := by
  simp [Nat.bit_val]

theorem bit_false_le (b : Bool) (n : ℕ) : Nat.bit false n ≤ Nat.bit b n := by
  cases b <;> simp [Nat.bit_val]

theorem le_bit_true (b : Bool) (n : ℕ) : Nat.bit b n ≤ Nat.bit true n := by
  cases b <;> simp [Nat.bit_val]

/-- `t & (t - 1)` is `t` without its lowest bit. -/
theorem and_pred (p m : ℕ) :
    2 ^ p * (2 * m + 1) &&& (2 ^ p * (2 * m + 1) - 1) = 2 ^ (p + 1) * m := by
  induction p with
  | zero =>
    have h := Nat.land_bit true m false m
    simp only [Nat.bit_val, Bool.toNat_true, Bool.toNat_false, Nat.and_self, Bool.and_false] at h
    simpa using h
  | succ p ih =>
    have hpos : 0 < 2 ^ p * (2 * m + 1) := Nat.mul_pos (Nat.two_pow_pos p) (Nat.succ_pos _)
    have h := Nat.land_bit false (2 ^ p * (2 * m + 1)) true (2 ^ p * (2 * m + 1) - 1)
    rw [ih] at h
    simp only [Nat.bit_val, Bool.toNat_true, Bool.toNat_false, Bool.false_and] at h
    have hl : 2 ^ (p + 1) * (2 * m + 1) = 2 * (2 ^ p * (2 * m + 1)) + 0 := by
      rw [pow_succ, Nat.mul_comm (2 ^ p) 2, Nat.mul_assoc]
      rfl
    have hr : 2 ^ (p + 1) * (2 * m + 1) - 1 = 2 * (2 ^ p * (2 * m + 1) - 1) + 1 := by omega
    rw [hr, hl, h, pow_succ 2 (p + 1), Nat.mul_comm (2 ^ (p + 1)) 2, Nat.mul_assoc]
    rfl

/-- A number keeps its highest bit when a lower one is added to it. -/
theorem add_lowest_lt {p m k : ℕ} (hm : m ≠ 0) (h : 2 ^ (p + 1) * m < 2 ^ (k + 1)) :
    2 ^ (p + 1) * m + 2 ^ p < 2 ^ (k + 1) := by
  have hle : 2 ^ (p + 1) ≤ 2 ^ (p + 1) * m := Nat.le_mul_of_pos_right _ (Nat.pos_of_ne_zero hm)
  have hpk : p < k := Nat.lt_of_succ_lt_succ ((Nat.pow_lt_pow_iff_right Nat.one_lt_two).mp
    (hle.trans_lt h))
  have hsplit : 2 ^ (k + 1) = 2 ^ (p + 1) * 2 ^ (k - p) := by
    rw [← pow_add]
    congr 1
    omega
  rw [hsplit] at h ⊢
  have hm' : m + 1 ≤ 2 ^ (k - p) := Nat.lt_of_mul_lt_mul_left h
  calc 2 ^ (p + 1) * m + 2 ^ p < 2 ^ (p + 1) * m + 2 ^ (p + 1) :=
        Nat.add_lt_add_left (Nat.pow_lt_pow_right Nat.one_lt_two (Nat.lt_succ_self p)) _
    _ = 2 ^ (p + 1) * (m + 1) := rfl
    _ ≤ 2 ^ (p + 1) * 2 ^ (k - p) := Nat.mul_le_mul_left _ hm'

/-- A word with a high part that is cut off and a low part. -/
theorem shiftLeft_or_toNat {w k : ℕ} (hi lo : BitVec w) (hk : k ≤ w) (h : lo.toNat < 2 ^ k) :
    (hi <<< k ||| lo).toNat = hi.toNat % 2 ^ (w - k) * 2 ^ k + lo.toNat := by
  have hhigh : (hi <<< k).toNat = (hi.toNat % 2 ^ (w - k)) <<< k := by
    rw [BitVec.toNat_shiftLeft, Nat.shiftLeft_eq, Nat.shiftLeft_eq,
      show 2 ^ w = 2 ^ (w - k) * 2 ^ k by rw [← pow_add, Nat.sub_add_cancel hk],
      Nat.mul_mod_mul_right]
  rw [BitVec.toNat_or, hhigh, ← Nat.shiftLeft_add_eq_or_of_lt h, Nat.shiftLeft_eq]

/-- Bits that were clear are what setting them changed. -/
theorem or_xor_of_and_eq_zero {w : ℕ} {x m : BitVec w} (h : x &&& m = 0#w) :
    (x ||| m) ^^^ x = m := by
  refine BitVec.eq_of_getLsbD_eq fun i _ => ?_
  have hbit := congrArg (BitVec.getLsbD · i) h
  rw [BitVec.getLsbD_and, BitVec.getLsbD_zero] at hbit
  rw [BitVec.getLsbD_xor, BitVec.getLsbD_or]
  revert hbit
  cases x.getLsbD i <;> cases m.getLsbD i <;> decide

/-- Bits that are set are cleared by toggling them. -/
theorem xor_of_and_eq {w : ℕ} {x m : BitVec w} (h : x &&& m = m) : x ^^^ m = x &&& ~~~m := by
  refine BitVec.eq_of_getLsbD_eq fun i hi => ?_
  have hbit := congrArg (BitVec.getLsbD · i) h
  rw [BitVec.getLsbD_and] at hbit
  rw [BitVec.getLsbD_xor, BitVec.getLsbD_and, BitVec.getLsbD_not, decide_eq_true hi, Bool.true_and]
  revert hbit
  cases x.getLsbD i <;> cases m.getLsbD i <;> decide

end TaseVerifier.Library.Bits
