import Mathlib.Data.Nat.Factorization.Basic
import Mathlib.Data.Set.NAry
import Mathlib.Order.Interval.Set.Basic
import Mathlib.Tactic.Ring
import TaseVerifier.Expr.Create
import TaseVerifier.Library.Bits

/-! Intervals of unsigned 64-bit values, and the bounds of the bitwise operations on them. -/

namespace TaseVerifier

open Library Bits

/-! ### The bounds of the bitwise operations

Each loop goes down from the highest bit. It looks for the first bit at which one bound may
leave its other end, all bits below being free then. -/

/-- The loop of `minOR` from bit `n - 1` on. -/
def minORFrom (a b c d : ℕ) : ℕ → ℕ
  | 0 => a ||| c
  | n + 1 =>
    if !a.testBit n && c.testBit n then
      if raise a n ≤ b then raise a n ||| c else minORFrom a b c d n
    else if a.testBit n && !c.testBit n then
      if raise c n ≤ d then a ||| raise c n else minORFrom a b c d n
    else minORFrom a b c d n

def minOR (a b c d : ℕ) : ℕ := minORFrom a b c d 64

/-- The loop of `maxOR`. -/
def maxORFrom (a b c d : ℕ) : ℕ → ℕ
  | 0 => b ||| d
  | n + 1 =>
    if b.testBit n && d.testBit n then
      if a ≤ lower b n then lower b n ||| d
      else if c ≤ lower d n then b ||| lower d n
      else maxORFrom a b c d n
    else maxORFrom a b c d n

def maxOR (a b c d : ℕ) : ℕ := maxORFrom a b c d 64

/-- The loop of `minAND`. -/
def minANDFrom (a b c d : ℕ) : ℕ → ℕ
  | 0 => a &&& c
  | n + 1 =>
    if !a.testBit n && !c.testBit n then
      if raise a n ≤ b then raise a n &&& c
      else if raise c n ≤ d then a &&& raise c n
      else minANDFrom a b c d n
    else minANDFrom a b c d n

def minAND (a b c d : ℕ) : ℕ := minANDFrom a b c d 64

/-- The loop of `maxAND`. -/
def maxANDFrom (a b c d : ℕ) : ℕ → ℕ
  | 0 => b &&& d
  | n + 1 =>
    if b.testBit n && !d.testBit n then
      if a ≤ lower b n then lower b n &&& d else maxANDFrom a b c d n
    else if !b.testBit n && d.testBit n then
      if c ≤ lower d n then b &&& lower d n else maxANDFrom a b c d n
    else maxANDFrom a b c d n

def maxAND (a b c d : ℕ) : ℕ := maxANDFrom a b c d 64

section Bounds

variable {a b c d x y n : ℕ}

/-- A number with the bound's prefix keeps a bit clear that may not be raised. -/
theorem testBit_of_lt_raise (h : a >>> (n + 1) = x >>> (n + 1)) (hr : x < raise a n) :
    x.testBit n = false := by
  by_contra hx
  have hprefix : raise a n >>> n = x >>> n := by
    rw [raise_shiftRight, h, shiftRight_eq_bit x n, Bool.eq_true_of_not_eq_false hx]
  have hle : raise a n ≤ x := (le_iff_mod hprefix).mpr (by simp [raise_mod])
  omega

/-- A number with the bound's prefix keeps a bit set that may not be lowered. -/
theorem testBit_of_lower_lt (h : b >>> (n + 1) = x >>> (n + 1)) (hr : lower b n < x) :
    x.testBit n = true := by
  by_contra hx
  have hprefix : x >>> n = lower b n >>> n := by
    rw [lower_shiftRight, h, shiftRight_eq_bit x n, Bool.eq_false_of_not_eq_true hx]
  have hle : x ≤ lower b n := by
    refine (le_iff_mod hprefix).mpr ?_
    rw [lower_mod]
    exact Nat.le_pred_of_lt (Nat.mod_lt _ (Nat.two_pow_pos n))
  omega

section Or

theorem or_raise_le (hx : a >>> (n + 1) = x >>> (n + 1)) (hy : c >>> (n + 1) = y >>> (n + 1))
    (hc : c.testBit n = true) (hcy : c ≤ y) : raise a n ||| c ≤ x ||| y := by
  have hyt := testBit_of_le hy hcy hc
  have hprefix : (raise a n ||| c) >>> n = (x ||| y) >>> n := by
    rw [Nat.shiftRight_or_distrib, raise_shiftRight, shiftRight_eq_bit c n, Nat.lor_bit,
      or_shiftRight, hyt, hc, hx, hy, Bool.or_true, Bool.or_true]
  have hlow := (le_iff_mod (prefix_of_bit hy (hc.trans hyt.symm))).mp hcy
  rw [le_iff_mod hprefix, Nat.or_mod_two_pow, Nat.or_mod_two_pow, raise_mod, Nat.zero_or]
  exact hlow.trans Nat.right_le_or

/-- Where a bit is set in one of the numbers and in neither bound, the bounds are smaller. -/
theorem or_lt_or (hx : a >>> (n + 1) = x >>> (n + 1)) (hy : c >>> (n + 1) = y >>> (n + 1))
    (hac : (a.testBit n || c.testBit n) = false) (hxy : (x.testBit n || y.testBit n) = true) :
    a ||| c < x ||| y := by
  refine lt_of_shiftRight_lt (k := n) ?_
  rw [or_shiftRight, or_shiftRight, hac, hxy, hx, hy]
  exact bit_false_lt_bit_true _

theorem minORFrom_le (hax : a ≤ x) (hxb : x ≤ b) (hcy : c ≤ y) (hyd : y ≤ d)
    (hx : a >>> n = x >>> n) (hy : c >>> n = y >>> n) : minORFrom a b c d n ≤ x ||| y := by
  induction n generalizing x y with
  | zero => exact (eq_of_prefix_zero hx) ▸ (eq_of_prefix_zero hy) ▸ le_rfl
  | succ n ih =>
    have hkeep (hx' : x.testBit n = a.testBit n) (hy' : y.testBit n = c.testBit n) :
        minORFrom a b c d n ≤ x ||| y :=
      ih hax hxb hcy hyd (prefix_of_bit hx hx'.symm) (prefix_of_bit hy hy'.symm)
    rw [minORFrom]
    cases ha : a.testBit n <;> cases hc : c.testBit n
    case false.true =>
      have hy' := testBit_of_le hy hcy hc
      simp only [Bool.not_false, Bool.and_self, if_true]
      split_ifs with hr
      · exact or_raise_le hx hy hc hcy
      · exact hkeep ((testBit_of_lt_raise hx (by omega)).trans ha.symm) (hy'.trans hc.symm)
    case true.false =>
      have hx' := testBit_of_le hx hax ha
      simp only [Bool.not_true, Bool.not_false, Bool.and_self, Bool.false_eq_true, if_false,
        if_true]
      split_ifs with hr
      · rw [Nat.or_comm a, Nat.or_comm x]
        exact or_raise_le hy hx ha hax
      · exact hkeep (hx'.trans ha.symm) ((testBit_of_lt_raise hy (by omega)).trans hc.symm)
    case true.true =>
      simp only [Bool.not_true, Bool.false_and, Bool.and_false, Bool.false_eq_true, if_false]
      exact hkeep ((testBit_of_le hx hax ha).trans ha.symm) ((testBit_of_le hy hcy hc).trans hc.symm)
    case false.false =>
      simp only [Bool.and_false, Bool.false_and, Bool.false_eq_true, if_false]
      cases hxy : x.testBit n || y.testBit n with
      | false =>
        rw [Bool.or_eq_false_iff] at hxy
        exact hkeep (hxy.1.trans ha.symm) (hxy.2.trans hc.symm)
      | true =>
        have hcorner := ih le_rfl (hax.trans hxb) le_rfl (hcy.trans hyd) rfl rfl
        exact hcorner.trans (or_lt_or hx hy (by rw [ha, hc]; rfl) hxy).le

theorem le_or_lower (hx : b >>> (n + 1) = x >>> (n + 1)) (hy : d >>> (n + 1) = y >>> (n + 1))
    (hd : d.testBit n = true) : x ||| y ≤ lower b n ||| d := by
  refine le_of_low_ones (k := n) ?_ ?_
  · rw [or_shiftRight, Nat.shiftRight_or_distrib, lower_shiftRight, shiftRight_eq_bit d n,
      Nat.lor_bit, hd, hx, hy, Bool.false_or]
    exact le_bit_true _ _
  · have hle : 2 ^ n - 1 ≤ (2 ^ n - 1) ||| d % 2 ^ n := Nat.left_le_or
    have hlt := Nat.mod_lt (lower b n ||| d) (Nat.two_pow_pos n)
    rw [Nat.or_mod_two_pow, lower_mod] at hlt ⊢
    omega

theorem le_maxORFrom (hax : a ≤ x) (hxb : x ≤ b) (hcy : c ≤ y) (hyd : y ≤ d)
    (hx : b >>> n = x >>> n) (hy : d >>> n = y >>> n) : x ||| y ≤ maxORFrom a b c d n := by
  induction n generalizing x y with
  | zero => exact (eq_of_prefix_zero hx) ▸ (eq_of_prefix_zero hy) ▸ le_rfl
  | succ n ih =>
    have hkeep (hx' : x.testBit n = b.testBit n) (hy' : y.testBit n = d.testBit n) :
        x ||| y ≤ maxORFrom a b c d n :=
      ih hax hxb hcy hyd (prefix_of_bit hx hx'.symm) (prefix_of_bit hy hy'.symm)
    have hxn (hb : b.testBit n = false) : x.testBit n = false := testBit_of_ge hx hxb hb
    have hyn (hd : d.testBit n = false) : y.testBit n = false := testBit_of_ge hy hyd hd
    -- a bit set in one bound only may be missing, and the bounds are larger then
    have hcorner (hbd : (b.testBit n || d.testBit n) = true)
        (hxy : (x.testBit n || y.testBit n) = false) : x ||| y ≤ maxORFrom a b c d n :=
      (or_lt_or hx.symm hy.symm hxy hbd).le.trans
        (ih (hax.trans hxb) le_rfl (hcy.trans hyd) le_rfl rfl rfl)
    rw [maxORFrom]
    cases hb : b.testBit n <;> cases hd : d.testBit n
    case true.true =>
      simp only [Bool.and_self, if_true]
      split_ifs with hr hr'
      · exact le_or_lower hx hy hd
      · rw [Nat.or_comm b, Nat.or_comm x]
        exact le_or_lower hy hx hb
      · exact hkeep ((testBit_of_lower_lt hx (by omega)).trans hb.symm)
          ((testBit_of_lower_lt hy (by omega)).trans hd.symm)
    case true.false =>
      simp only [Bool.and_false, Bool.false_eq_true, if_false]
      cases hx' : x.testBit n with
      | false => exact hcorner (by simp [hb]) (by simp [hx', hyn hd])
      | true => exact hkeep (hx'.trans hb.symm) ((hyn hd).trans hd.symm)
    case false.true =>
      simp only [Bool.false_and, Bool.false_eq_true, if_false]
      cases hy' : y.testBit n with
      | false => exact hcorner (by simp [hd]) (by simp [hy', hxn hb])
      | true => exact hkeep ((hxn hb).trans hb.symm) (hy'.trans hd.symm)
    case false.false =>
      simp only [Bool.false_and, Bool.false_eq_true, if_false]
      exact hkeep ((hxn hb).trans hb.symm) ((hyn hd).trans hd.symm)

end Or

section And

theorem and_raise_le (hx : a >>> (n + 1) = x >>> (n + 1)) (hy : c >>> (n + 1) = y >>> (n + 1))
    (hc : c.testBit n = false) : raise a n &&& c ≤ x &&& y := by
  refine le_of_low_zero (k := n) ?_ ?_
  · rw [and_shiftRight x, Nat.shiftRight_and_distrib, raise_shiftRight, shiftRight_eq_bit c n,
      Nat.land_bit, hc, hx, hy, Bool.and_false]
    exact bit_false_le _ _
  · rw [Nat.and_mod_two_pow, raise_mod, Nat.zero_and]

/-- Where a bit is set in both numbers and not in both bounds, the bounds are smaller. -/
theorem and_lt_and (hx : a >>> (n + 1) = x >>> (n + 1)) (hy : c >>> (n + 1) = y >>> (n + 1))
    (hac : (a.testBit n && c.testBit n) = false) (hxy : (x.testBit n && y.testBit n) = true) :
    a &&& c < x &&& y := by
  refine lt_of_shiftRight_lt (k := n) ?_
  rw [and_shiftRight, and_shiftRight, hac, hxy, hx, hy]
  exact bit_false_lt_bit_true _

theorem minANDFrom_le (hax : a ≤ x) (hxb : x ≤ b) (hcy : c ≤ y) (hyd : y ≤ d)
    (hx : a >>> n = x >>> n) (hy : c >>> n = y >>> n) : minANDFrom a b c d n ≤ x &&& y := by
  induction n generalizing x y with
  | zero => exact (eq_of_prefix_zero hx) ▸ (eq_of_prefix_zero hy) ▸ le_rfl
  | succ n ih =>
    have hkeep (hx' : x.testBit n = a.testBit n) (hy' : y.testBit n = c.testBit n) :
        minANDFrom a b c d n ≤ x &&& y :=
      ih hax hxb hcy hyd (prefix_of_bit hx hx'.symm) (prefix_of_bit hy hy'.symm)
    have hcorner (hac : (a.testBit n && c.testBit n) = false)
        (hxy : (x.testBit n && y.testBit n) = true) : minANDFrom a b c d n ≤ x &&& y :=
      (ih le_rfl (hax.trans hxb) le_rfl (hcy.trans hyd) rfl rfl).trans (and_lt_and hx hy hac hxy).le
    rw [minANDFrom]
    cases ha : a.testBit n <;> cases hc : c.testBit n
    case false.false =>
      simp only [Bool.not_false, Bool.and_self, if_true]
      split_ifs with hr hr'
      · exact and_raise_le hx hy hc
      · rw [Nat.and_comm a, Nat.and_comm x]
        exact and_raise_le hy hx ha
      · exact hkeep ((testBit_of_lt_raise hx (by omega)).trans ha.symm)
          ((testBit_of_lt_raise hy (by omega)).trans hc.symm)
    case true.false =>
      have hx' := testBit_of_le hx hax ha
      simp only [Bool.not_true, Bool.false_and, Bool.false_eq_true, if_false]
      cases hy' : y.testBit n with
      | false => exact hkeep (hx'.trans ha.symm) (hy'.trans hc.symm)
      | true => exact hcorner (by simp [hc]) (by simp [hx', hy'])
    case false.true =>
      have hy' := testBit_of_le hy hcy hc
      simp only [Bool.not_true, Bool.and_false, Bool.false_eq_true, if_false]
      cases hx' : x.testBit n with
      | false => exact hkeep (hx'.trans ha.symm) (hy'.trans hc.symm)
      | true => exact hcorner (by simp [ha]) (by simp [hx', hy'])
    case true.true =>
      simp only [Bool.not_true, Bool.false_and, Bool.false_eq_true, if_false]
      exact hkeep ((testBit_of_le hx hax ha).trans ha.symm) ((testBit_of_le hy hcy hc).trans hc.symm)

theorem le_and_lower (hx : b >>> (n + 1) = x >>> (n + 1)) (hy : d >>> (n + 1) = y >>> (n + 1))
    (hd : d.testBit n = false) (hyd : y ≤ d) : x &&& y ≤ lower b n &&& d := by
  have hy' : y.testBit n = false := testBit_of_ge hy hyd hd
  have hprefix : (x &&& y) >>> n = (lower b n &&& d) >>> n := by
    rw [and_shiftRight, Nat.shiftRight_and_distrib, lower_shiftRight, shiftRight_eq_bit d n,
      Nat.land_bit, hd, hy', hx, hy, Bool.and_false, Bool.and_false]
  have hlow := (le_iff_mod (prefix_of_bit hy.symm (hy'.trans hd.symm))).mp hyd
  rw [le_iff_mod hprefix, Nat.and_mod_two_pow, Nat.and_mod_two_pow, lower_mod, Nat.and_comm (_ - 1),
    Nat.and_two_pow_sub_one_eq_mod, Nat.mod_mod]
  exact Nat.and_le_right.trans hlow

theorem le_maxANDFrom (hax : a ≤ x) (hxb : x ≤ b) (hcy : c ≤ y) (hyd : y ≤ d)
    (hx : b >>> n = x >>> n) (hy : d >>> n = y >>> n) : x &&& y ≤ maxANDFrom a b c d n := by
  induction n generalizing x y with
  | zero => exact (eq_of_prefix_zero hx) ▸ (eq_of_prefix_zero hy) ▸ le_rfl
  | succ n ih =>
    have hkeep (hx' : x.testBit n = b.testBit n) (hy' : y.testBit n = d.testBit n) :
        x &&& y ≤ maxANDFrom a b c d n :=
      ih hax hxb hcy hyd (prefix_of_bit hx hx'.symm) (prefix_of_bit hy hy'.symm)
    have hxn (hb : b.testBit n = false) : x.testBit n = false := testBit_of_ge hx hxb hb
    have hyn (hd : d.testBit n = false) : y.testBit n = false := testBit_of_ge hy hyd hd
    rw [maxANDFrom]
    cases hb : b.testBit n <;> cases hd : d.testBit n
    case true.false =>
      simp only [Bool.not_false, Bool.and_self, if_true]
      split_ifs with hr
      · exact le_and_lower hx hy hd hyd
      · exact hkeep ((testBit_of_lower_lt hx (by omega)).trans hb.symm) ((hyn hd).trans hd.symm)
    case false.true =>
      simp only [Bool.not_true, Bool.not_false, Bool.and_self, Bool.false_eq_true, if_false,
        if_true]
      split_ifs with hr
      · rw [Nat.and_comm b, Nat.and_comm x]
        exact le_and_lower hy hx hb hxb
      · exact hkeep ((hxn hb).trans hb.symm) ((testBit_of_lower_lt hy (by omega)).trans hd.symm)
    case false.false =>
      simp only [Bool.false_and, Bool.and_false, Bool.false_eq_true, if_false]
      exact hkeep ((hxn hb).trans hb.symm) ((hyn hd).trans hd.symm)
    case true.true =>
      simp only [Bool.not_true, Bool.and_false, Bool.false_and, Bool.false_eq_true, if_false]
      cases hxy : x.testBit n && y.testBit n with
      | false =>
        have hcorner := ih (hax.trans hxb) le_rfl (hcy.trans hyd) le_rfl rfl rfl
        exact (and_lt_and hx.symm hy.symm hxy (by rw [hb, hd]; rfl)).le.trans hcorner
      | true =>
        rw [Bool.and_eq_true] at hxy
        exact hkeep (hxy.1.trans hb.symm) (hxy.2.trans hd.symm)

end And

theorem shiftRight_eq_of_lt {w : ℕ} (hx : x < 2 ^ w) (hy : y < 2 ^ w) : x >>> w = y >>> w := by
  rw [Nat.shiftRight_eq_div_pow, Nat.shiftRight_eq_div_pow, Nat.div_eq_of_lt hx,
    Nat.div_eq_of_lt hy]

theorem lower_lt {w : ℕ} (hb : b < 2 ^ w) (hbit : b.testBit n = true) : lower b n < 2 ^ w := by
  have hlt : lower b n >>> n < b >>> n := by
    rw [lower_shiftRight, shiftRight_eq_bit b n, hbit]
    exact bit_false_lt_bit_true _
  exact (lt_of_shiftRight_lt hlt).trans hb

theorem maxORFrom_lt {w : ℕ} (hb : b < 2 ^ w) (hd : d < 2 ^ w) (n : ℕ) :
    maxORFrom a b c d n < 2 ^ w := by
  induction n with
  | zero => exact Nat.or_lt_two_pow hb hd
  | succ n ih =>
    rw [maxORFrom]
    split_ifs with hbits hr hr'
    · rw [Bool.and_eq_true] at hbits
      exact Nat.or_lt_two_pow (lower_lt hb hbits.1) hd
    · rw [Bool.and_eq_true] at hbits
      exact Nat.or_lt_two_pow hb (lower_lt hd hbits.2)
    · exact ih
    · exact ih

theorem maxANDFrom_lt {w : ℕ} (hb : b < 2 ^ w) (hd : d < 2 ^ w) (n : ℕ) :
    maxANDFrom a b c d n < 2 ^ w := by
  induction n with
  | zero => exact Nat.and_le_left.trans_lt hb
  | succ n ih =>
    rw [maxANDFrom]
    split_ifs
    · exact Nat.and_le_right.trans_lt hd
    · exact ih
    · exact Nat.and_le_left.trans_lt hb
    · exact ih
    · exact ih

theorem lt_raise (ha : a.testBit n = false) : a < raise a n := by
  refine lt_of_shiftRight_lt (k := n) ?_
  rw [raise_shiftRight, shiftRight_eq_bit a n, ha]
  exact bit_false_lt_bit_true _

theorem lower_lt_self (hb : b.testBit n = true) : lower b n < b := by
  refine lt_of_shiftRight_lt (k := n) ?_
  rw [lower_shiftRight, shiftRight_eq_bit b n, hb]
  exact bit_false_lt_bit_true _

section Attained

variable (hab : a ≤ b) (hcd : c ≤ d)

include hab hcd

theorem minORFrom_mem (n : ℕ) :
    minORFrom a b c d n ∈ Set.image2 (· ||| ·) (Set.Icc a b) (Set.Icc c d) := by
  induction n with
  | zero => exact ⟨a, ⟨le_rfl, hab⟩, c, ⟨le_rfl, hcd⟩, rfl⟩
  | succ n ih =>
    rw [minORFrom]
    split_ifs with ha hr hc hr
    · have hbit : a.testBit n = false := by simp_all
      exact ⟨raise a n, ⟨(lt_raise hbit).le, hr⟩, c, ⟨le_rfl, hcd⟩, rfl⟩
    · exact ih
    · have hbit : c.testBit n = false := by simp_all
      exact ⟨a, ⟨le_rfl, hab⟩, raise c n, ⟨(lt_raise hbit).le, hr⟩, rfl⟩
    · exact ih
    · exact ih

theorem maxORFrom_mem (n : ℕ) :
    maxORFrom a b c d n ∈ Set.image2 (· ||| ·) (Set.Icc a b) (Set.Icc c d) := by
  induction n with
  | zero => exact ⟨b, ⟨hab, le_rfl⟩, d, ⟨hcd, le_rfl⟩, rfl⟩
  | succ n ih =>
    rw [maxORFrom]
    split_ifs with hbits hr hr
    · have hbit : b.testBit n = true := by simp_all
      exact ⟨lower b n, ⟨hr, (lower_lt_self hbit).le⟩, d, ⟨hcd, le_rfl⟩, rfl⟩
    · have hbit : d.testBit n = true := by simp_all
      exact ⟨b, ⟨hab, le_rfl⟩, lower d n, ⟨hr, (lower_lt_self hbit).le⟩, rfl⟩
    · exact ih
    · exact ih

theorem minANDFrom_mem (n : ℕ) :
    minANDFrom a b c d n ∈ Set.image2 (· &&& ·) (Set.Icc a b) (Set.Icc c d) := by
  induction n with
  | zero => exact ⟨a, ⟨le_rfl, hab⟩, c, ⟨le_rfl, hcd⟩, rfl⟩
  | succ n ih =>
    rw [minANDFrom]
    split_ifs with hbits hr hr
    · have hbit : a.testBit n = false := by simp_all
      exact ⟨raise a n, ⟨(lt_raise hbit).le, hr⟩, c, ⟨le_rfl, hcd⟩, rfl⟩
    · have hbit : c.testBit n = false := by simp_all
      exact ⟨a, ⟨le_rfl, hab⟩, raise c n, ⟨(lt_raise hbit).le, hr⟩, rfl⟩
    · exact ih
    · exact ih

theorem maxANDFrom_mem (n : ℕ) :
    maxANDFrom a b c d n ∈ Set.image2 (· &&& ·) (Set.Icc a b) (Set.Icc c d) := by
  induction n with
  | zero => exact ⟨b, ⟨hab, le_rfl⟩, d, ⟨hcd, le_rfl⟩, rfl⟩
  | succ n ih =>
    rw [maxANDFrom]
    split_ifs with hb hr hd hr
    · have hbit : b.testBit n = true := by simp_all
      exact ⟨lower b n, ⟨hr, (lower_lt_self hbit).le⟩, d, ⟨hcd, le_rfl⟩, rfl⟩
    · exact ih
    · have hbit : d.testBit n = true := by simp_all
      exact ⟨b, ⟨hab, le_rfl⟩, lower d n, ⟨hr, (lower_lt_self hbit).le⟩, rfl⟩
    · exact ih
    · exact ih

end Attained

/-- The four bounds are the least and the greatest values of the two operations. -/
theorem bitwise_bounds_exact (hab : a ≤ b) (hcd : c ≤ d) (hb : b < 2 ^ 64) (hd : d < 2 ^ 64) :
    IsLeast (Set.image2 (· ||| ·) (Set.Icc a b) (Set.Icc c d)) (minOR a b c d) ∧
      IsGreatest (Set.image2 (· ||| ·) (Set.Icc a b) (Set.Icc c d)) (maxOR a b c d) ∧
      IsLeast (Set.image2 (· &&& ·) (Set.Icc a b) (Set.Icc c d)) (minAND a b c d) ∧
      IsGreatest (Set.image2 (· &&& ·) (Set.Icc a b) (Set.Icc c d)) (maxAND a b c d) := by
  have hp : ∀ {u v : ℕ}, u < 2 ^ 64 → v < 2 ^ 64 → u >>> 64 = v >>> 64 := shiftRight_eq_of_lt
  refine ⟨⟨minORFrom_mem hab hcd 64, ?_⟩, ⟨maxORFrom_mem hab hcd 64, ?_⟩,
    ⟨minANDFrom_mem hab hcd 64, ?_⟩, ⟨maxANDFrom_mem hab hcd 64, ?_⟩⟩
  · rintro _ ⟨x, hx, y, hy, rfl⟩
    exact minORFrom_le hx.1 hx.2 hy.1 hy.2 (hp (hab.trans_lt hb) (hx.2.trans_lt hb))
      (hp (hcd.trans_lt hd) (hy.2.trans_lt hd))
  · rintro _ ⟨x, hx, y, hy, rfl⟩
    exact le_maxORFrom hx.1 hx.2 hy.1 hy.2 (hp hb (hx.2.trans_lt hb)) (hp hd (hy.2.trans_lt hd))
  · rintro _ ⟨x, hx, y, hy, rfl⟩
    exact minANDFrom_le hx.1 hx.2 hy.1 hy.2 (hp (hab.trans_lt hb) (hx.2.trans_lt hb))
      (hp (hcd.trans_lt hd) (hy.2.trans_lt hd))
  · rintro _ ⟨x, hx, y, hy, rfl⟩
    exact le_maxANDFrom hx.1 hx.2 hy.1 hy.2 (hp hb (hx.2.trans_lt hb)) (hp hd (hy.2.trans_lt hd))

/-- From 5 to 6 and from 1 to 2. -/
theorem bitwise_bounds_exact_small :
    IsLeast (Set.image2 (· ||| ·) (Set.Icc 5 6) (Set.Icc 1 2)) (minOR 5 6 1 2) ∧
      minOR 5 6 1 2 = 5 ∧
      IsLeast (Set.image2 (· &&& ·) (Set.Icc 5 6) (Set.Icc 1 2)) (minAND 5 6 1 2) ∧
      minAND 5 6 1 2 = 0 := by
  obtain ⟨hor, -, hand, -⟩ := @bitwise_bounds_exact 5 6 1 2 (by decide) (by decide) (by decide)
    (by decide)
  exact ⟨hor, by decide, hand, by decide⟩

end Bounds

/-- Where the propagation stops: at an assertion, at an access outside an array, in the
evaluation of an expression, or never (`diverged`). -/
inductive CexStop where
  | emptyRange
  | outsideBits
  | uncanonicalized
  | outsideArray
  | exactConflict
  | evaluation (abort : Abort)
  | diverged
  deriving DecidableEq

/-! ### Ranges -/

structure ValueRange where
  m_min : ℕ
  m_max : ℕ
  deriving DecidableEq

/-- Asserts `N <= 64`, as all widths here are. -/
def maxValueOfNBits (N : ℕ) : ℕ := 2 ^ N - 1

namespace ValueRange

/-- `ValueRange()`. -/
def empty : ValueRange := ⟨1, 0⟩

/-- `ValueRange(value)`. -/
def fixed (value : ℕ) : ValueRange := ⟨value, value⟩

/-- `getLimitedValue` keeps to 64 bits. -/
def ofConstant (c : APInt) : ValueRange := fixed (c.toNat ⊓ maxValueOfNBits 64)

def full (bits : ℕ) : ValueRange := ⟨0, maxValueOfNBits bits⟩

def isEmpty (r : ValueRange) : Bool := r.m_max < r.m_min

def isFixed (r : ValueRange) : Bool := r.m_min == r.m_max

def isFullRange (r : ValueRange) (bits : ℕ) : Bool := r == full bits

def setIntersection (r b : ValueRange) : ValueRange := ⟨r.m_min ⊔ b.m_min, r.m_max ⊓ b.m_max⟩

def setUnion (r b : ValueRange) : ValueRange := ⟨r.m_min ⊓ b.m_min, r.m_max ⊔ b.m_max⟩

def setDifference (r b : ValueRange) : ValueRange :=
  if b.isEmpty || r.m_max < b.m_min || b.m_max < r.m_min then r
  else if b.m_min ≤ r.m_min && r.m_max ≤ b.m_max then empty
  else if b.m_min ≤ r.m_min then ⟨b.m_max + 1, r.m_max⟩
  -- of two ranges the lower one
  else ⟨r.m_min, b.m_min - 1⟩

def mustEqual (r b : ValueRange) : Bool := r.isFixed && b.isFixed && r.m_min == b.m_min

def mayEqual (r b : ValueRange) : Bool := !(r.setIntersection b).isEmpty

/-- `min()`, of a range that is not empty. -/
protected def min (r : ValueRange) : Except CexStop ℕ :=
  if r.isEmpty then throw .emptyRange else pure r.m_min

protected def max (r : ValueRange) : Except CexStop ℕ :=
  if r.isEmpty then throw .emptyRange else pure r.m_max

def binaryAnd (r b : ValueRange) : Except CexStop ValueRange :=
  if r.isEmpty || b.isEmpty then throw .emptyRange
  else if r.isFixed && b.isFixed then pure (fixed (r.m_min &&& b.m_min))
  else pure ⟨minAND r.m_min r.m_max b.m_min b.m_max, maxAND r.m_min r.m_max b.m_min b.m_max⟩

def binaryOr (r b : ValueRange) : Except CexStop ValueRange :=
  if r.isEmpty || b.isEmpty then throw .emptyRange
  else if r.isFixed && b.isFixed then pure (fixed (r.m_min ||| b.m_min))
  else pure ⟨minOR r.m_min r.m_max b.m_min b.m_max, maxOR r.m_min r.m_max b.m_min b.m_max⟩

/-- `while (!isPowerOfTwo(t)) t = withoutRightmostBit(t)`, for as many rounds as there are
bits. At zero the loop runs on forever. -/
def onlyHighestBit : ℕ → ℕ → Except CexStop ℕ
  | 0, _ => throw .diverged
  | rounds + 1, t =>
    if t ≠ 0 ∧ t &&& (t - 1) = 0 then pure t else onlyHighestBit rounds (t &&& (t - 1))

def binaryXor (r b : ValueRange) : Except CexStop ValueRange :=
  if r.isFixed && b.isFixed then pure (fixed (r.m_min ^^^ b.m_min))
  else do
    let t ← onlyHighestBit 64 (r.m_max ||| b.m_max)
    pure ⟨0, (2 * t + (2 ^ 64 - 1)) % 2 ^ 64⟩

def binaryShiftLeft (r : ValueRange) (bits : ℕ) : ValueRange :=
  ⟨r.m_min <<< bits % 2 ^ 64, r.m_max <<< bits % 2 ^ 64⟩

def binaryShiftRight (r : ValueRange) (bits : ℕ) : ValueRange := ⟨r.m_min >>> bits, r.m_max >>> bits⟩

def concat (r b : ValueRange) (bits : ℕ) : Except CexStop ValueRange :=
  (r.binaryShiftLeft bits).binaryOr b

def extract (r : ValueRange) (lowBit maxBit : ℕ) : Except CexStop ValueRange :=
  (r.binaryShiftRight lowBit).binaryAnd (fixed (maxValueOfNBits (maxBit - lowBit)))

/-- `add`, `sub`, `mul` and the divisions know nothing about the result. -/
def arithmetic (_ _ : ValueRange) (width : ℕ) : ValueRange := full width

/-- `ints::sext` of a value within the bits. -/
def sext (v bits : ℕ) : ℤ := if v < 2 ^ (bits - 1) then v else v - 2 ^ bits

/-- The assertion of `minSigned` and `maxSigned`. The processor shifts by the amount modulo 64. -/
def withinBits (r : ValueRange) (bits : ℕ) : Bool :=
  r.m_min >>> (bits % 64) == 0 && r.m_max >>> (bits % 64) == 0

def minSigned (r : ValueRange) (bits : ℕ) : Except CexStop ℤ :=
  if !r.withinBits bits then throw .outsideBits
  else
    let smallest := 2 ^ (bits - 1)
    pure (if smallest ≤ r.m_max then sext smallest bits else r.m_min)

def maxSigned (r : ValueRange) (bits : ℕ) : Except CexStop ℤ :=
  if !r.withinBits bits then throw .outsideBits
  else
    let smallest := 2 ^ (bits - 1)
    pure (if r.m_min < smallest ∧ smallest ≤ r.m_max then smallest - 1 else sext r.m_max bits)

/-! ### What the operations cover -/

/-- The value is in the range, and the range within the bits. -/
structure Covers (r : ValueRange) (w v : ℕ) : Prop where
  min_le : r.m_min ≤ v
  le_max : v ≤ r.m_max
  max_lt : r.m_max < 2 ^ w

variable {r b : ValueRange} {w v x y : ℕ}

theorem covers_full (h : v < 2 ^ w) : (full w).Covers w v :=
  ⟨Nat.zero_le v, Nat.le_pred_of_lt h, Nat.sub_lt (Nat.two_pow_pos w) Nat.one_pos⟩

theorem covers_fixed (h : v < 2 ^ w) : (fixed v).Covers w v := ⟨le_rfl, le_rfl, h⟩

namespace Covers

theorem lt (h : r.Covers w v) : v < 2 ^ w := h.le_max.trans_lt h.max_lt

theorem isEmpty (h : r.Covers w v) : r.isEmpty = false := by
  have := h.min_le.trans h.le_max
  simp [ValueRange.isEmpty, this]

theorem eq_of_isFixed (h : r.Covers w v) (hf : r.isFixed = true) : r.m_min = v := by
  have hf : r.m_min = r.m_max := by simpa [isFixed] using hf
  have := h.min_le
  have := h.le_max
  omega

theorem min (h : r.Covers w v) : r.min = .ok r.m_min := by
  simp [ValueRange.min, h.isEmpty, pure, Except.pure]

theorem max (h : r.Covers w v) : r.max = .ok r.m_max := by
  simp [ValueRange.max, h.isEmpty, pure, Except.pure]

theorem setUnion_left (h : r.Covers w v) (hb : b.m_max < 2 ^ w) : (r.setUnion b).Covers w v :=
  ⟨inf_le_left.trans h.min_le, h.le_max.trans le_sup_left, max_lt_iff.mpr ⟨h.max_lt, hb⟩⟩

theorem setUnion_right (h : b.Covers w v) (hr : r.m_max < 2 ^ w) : (r.setUnion b).Covers w v :=
  ⟨inf_le_right.trans h.min_le, h.le_max.trans le_sup_right, max_lt_iff.mpr ⟨hr, h.max_lt⟩⟩

/-- Ranges that must be equal cover one value, and those that may not be equal have none in
common. -/
theorem eq_of_mustEqual (hr : r.Covers w x) (hb : b.Covers w y) (h : r.mustEqual b = true) :
    x = y := by
  simp only [mustEqual, Bool.and_eq_true, beq_iff_eq] at h
  rw [← hr.eq_of_isFixed h.1.1, ← hb.eq_of_isFixed h.1.2, h.2]

theorem mayEqual (hr : r.Covers w v) (hb : b.Covers w v) : r.mayEqual b = true := by
  have hmin := hr.min_le
  have hmax := hr.le_max
  have hmin' := hb.min_le
  have hmax' := hb.le_max
  have hle : r.m_min ⊔ b.m_min ≤ r.m_max ⊓ b.m_max :=
    le_inf (sup_le (by omega) (by omega)) (sup_le (by omega) (by omega))
  rw [ValueRange.mayEqual, Bool.not_eq_true']
  exact decide_eq_false (not_lt.mpr hle)

section Bitwise

variable (hr : r.Covers w x) (hb : b.Covers w y) (hw : w ≤ 64)

include hr hb hw

theorem lt_64 : r.m_min < 2 ^ 64 ∧ x < 2 ^ 64 ∧ r.m_max < 2 ^ 64 ∧ b.m_min < 2 ^ 64 ∧ y < 2 ^ 64 ∧
    b.m_max < 2 ^ 64 := by
  have hpow : 2 ^ w ≤ 2 ^ 64 := Nat.pow_le_pow_right (by omega) hw
  have := hr.min_le
  have := hr.le_max
  have := hr.max_lt
  have := hb.min_le
  have := hb.le_max
  have := hb.max_lt
  omega

theorem binaryAnd : ∃ t, r.binaryAnd b = .ok t ∧ t.Covers w (x &&& y) := by
  obtain ⟨h₁, h₂, h₃, h₄, h₅, h₆⟩ := lt_64 hr hb hw
  unfold ValueRange.binaryAnd
  rw [hr.isEmpty, hb.isEmpty, Bool.or_false, if_neg (by simp)]
  split_ifs with hf
  · rw [Bool.and_eq_true] at hf
    rw [hr.eq_of_isFixed hf.1, hb.eq_of_isFixed hf.2]
    exact ⟨_, rfl, covers_fixed (Nat.and_le_left.trans_lt hr.lt)⟩
  · refine ⟨_, rfl, ?_, ?_, maxANDFrom_lt hr.max_lt hb.max_lt 64⟩
    · exact minANDFrom_le hr.min_le hr.le_max hb.min_le hb.le_max (shiftRight_eq_of_lt h₁ h₂)
        (shiftRight_eq_of_lt h₄ h₅)
    · exact le_maxANDFrom hr.min_le hr.le_max hb.min_le hb.le_max (shiftRight_eq_of_lt h₃ h₂)
        (shiftRight_eq_of_lt h₆ h₅)

theorem binaryOr : ∃ t, r.binaryOr b = .ok t ∧ t.Covers w (x ||| y) := by
  obtain ⟨h₁, h₂, h₃, h₄, h₅, h₆⟩ := lt_64 hr hb hw
  unfold ValueRange.binaryOr
  rw [hr.isEmpty, hb.isEmpty, Bool.or_false, if_neg (by simp)]
  split_ifs with hf
  · rw [Bool.and_eq_true] at hf
    rw [hr.eq_of_isFixed hf.1, hb.eq_of_isFixed hf.2]
    exact ⟨_, rfl, covers_fixed (Nat.or_lt_two_pow hr.lt hb.lt)⟩
  · refine ⟨_, rfl, ?_, ?_, maxORFrom_lt hr.max_lt hb.max_lt 64⟩
    · exact minORFrom_le hr.min_le hr.le_max hb.min_le hb.le_max (shiftRight_eq_of_lt h₁ h₂)
        (shiftRight_eq_of_lt h₄ h₅)
    · exact le_maxORFrom hr.min_le hr.le_max hb.min_le hb.le_max (shiftRight_eq_of_lt h₃ h₂)
        (shiftRight_eq_of_lt h₆ h₅)

end Bitwise

end Covers

/-- The loop ends at the highest bit. -/
theorem onlyHighestBit_spec (rounds : ℕ) : ∀ t p, rounds + p = 64 → 2 ^ p ∣ t → t ≠ 0 →
    t < 2 ^ 64 → ∃ k, onlyHighestBit rounds t = .ok (2 ^ k) ∧ 2 ^ k ≤ t ∧ t < 2 ^ (k + 1) := by
  induction rounds with
  | zero =>
    intro t p hp hdvd hne hlt
    obtain rfl : p = 64 := by omega
    exact absurd (Nat.le_of_dvd (Nat.pos_of_ne_zero hne) hdvd) (by omega)
  | succ rounds ih =>
    intro t p hp hdvd hne hlt
    obtain ⟨q, n, ⟨m, rfl⟩, rfl⟩ := Nat.exists_eq_two_pow_mul_odd hne
    have hpq : p ≤ q := by
      have hcop : Nat.Coprime (2 ^ p) (2 * m + 1) := Nat.Coprime.pow_left p (by simp)
      exact (Nat.pow_dvd_pow_iff_le_right (by omega)).mp (hcop.dvd_of_dvd_mul_right hdvd)
    have hsplit : 2 ^ q * (2 * m + 1) = 2 ^ (q + 1) * m + 2 ^ q := by ring
    rw [onlyHighestBit, and_pred]
    split_ifs with hone
    · have hm : m = 0 := by simpa using hone.2
      subst hm
      exact ⟨q, by simp [pure, Except.pure], by simp, by simp [pow_succ]⟩
    · have hm : 2 ^ (q + 1) * m ≠ 0 := fun h => hone ⟨hne, h⟩
      rw [hsplit] at hlt ⊢
      obtain ⟨k, hk, hle, hltk⟩ := ih (2 ^ (q + 1) * m) (p + 1) (by omega)
        ((Nat.pow_dvd_pow 2 (by omega)).mul_right m) hm ((Nat.le_add_right _ _).trans_lt hlt)
      exact ⟨k, hk, hle.trans (Nat.le_add_right _ _),
        add_lowest_lt (right_ne_zero_of_mul hm) hltk⟩

namespace Covers

theorem binaryXor (hr : r.Covers w x) (hb : b.Covers w y) (hw : w ≤ 64) :
    ∃ t, r.binaryXor b = .ok t ∧ t.Covers w (x ^^^ y) := by
  obtain ⟨h₁, h₂, h₃, h₄, h₅, h₆⟩ := lt_64 hr hb hw
  unfold ValueRange.binaryXor
  split_ifs with hf
  · rw [Bool.and_eq_true] at hf
    rw [hr.eq_of_isFixed hf.1, hb.eq_of_isFixed hf.2]
    exact ⟨_, rfl, covers_fixed (Nat.xor_lt_two_pow hr.lt hb.lt)⟩
  · have hne : r.m_max ||| b.m_max ≠ 0 := by
      intro h0
      have hmr : r.m_max = 0 := Nat.le_zero.mp (h0 ▸ Nat.left_le_or)
      have hmb : b.m_max = 0 := Nat.le_zero.mp (h0 ▸ Nat.right_le_or)
      have := hr.min_le.trans hr.le_max
      have := hb.min_le.trans hb.le_max
      exact hf (by simp [isFixed]; omega)
    obtain ⟨k, hk, hle, hlt⟩ := onlyHighestBit_spec 64 _ 0 rfl (by simp) hne
      (Nat.or_lt_two_pow h₃ h₆)
    have hkw : k + 1 ≤ w := by
      have hpow : 2 ^ k < 2 ^ w := hle.trans_lt (Nat.or_lt_two_pow hr.max_lt hb.max_lt)
      exact (Nat.pow_lt_pow_iff_right (by omega)).mp hpow
    have hx : x < 2 ^ (k + 1) := (hr.le_max.trans Nat.left_le_or).trans_lt hlt
    have hy : y < 2 ^ (k + 1) := (hb.le_max.trans Nat.right_le_or).trans_lt hlt
    have hxor := Nat.xor_lt_two_pow hx hy
    have hpow : 2 ^ (k + 1) ≤ 2 ^ w := Nat.pow_le_pow_right (by omega) hkw
    have hpow' : 2 ^ w ≤ 2 ^ 64 := Nat.pow_le_pow_right (by omega) hw
    have hmax : (2 * 2 ^ k + (2 ^ 64 - 1)) % 2 ^ 64 = 2 ^ (k + 1) - 1 := by
      rw [← pow_succ']
      have := Nat.two_pow_pos (k + 1)
      omega
    refine ⟨⟨0, 2 ^ (k + 1) - 1⟩, ?_, Nat.zero_le _, Nat.le_pred_of_lt hxor, ?_⟩
    · simp only [hk, bind, Except.bind, hmax]
      rfl
    · exact (Nat.sub_lt (Nat.two_pow_pos _) Nat.one_pos).trans_le hpow

theorem concat {n : ℕ} (hr : r.Covers w x) (hb : b.Covers n y) (hw : w + n ≤ 64) :
    ∃ t, r.concat b n = .ok t ∧ t.Covers (w + n) (x <<< n ||| y) := by
  have hmax : r.m_max * 2 ^ n < 2 ^ (w + n) := by
    rw [pow_add]
    exact Nat.mul_lt_mul_of_pos_right hr.max_lt (Nat.two_pow_pos n)
  have hpow : 2 ^ (w + n) ≤ 2 ^ 64 := Nat.pow_le_pow_right (by omega) hw
  have hmin := Nat.mul_le_mul_right (2 ^ n) hr.min_le
  have hx := Nat.mul_le_mul_right (2 ^ n) hr.le_max
  have hleft : (r.binaryShiftLeft n).Covers (w + n) (x <<< n) := by
    have h₁ : r.m_min <<< n % 2 ^ 64 = r.m_min * 2 ^ n := by
      rw [Nat.shiftLeft_eq, Nat.mod_eq_of_lt (by omega)]
    have h₂ : r.m_max <<< n % 2 ^ 64 = r.m_max * 2 ^ n := by
      rw [Nat.shiftLeft_eq, Nat.mod_eq_of_lt (by omega)]
    have hshift : r.binaryShiftLeft n = ⟨r.m_min * 2 ^ n, r.m_max * 2 ^ n⟩ := by
      rw [binaryShiftLeft, h₁, h₂]
    rw [Nat.shiftLeft_eq, hshift]
    exact ⟨hmin, hx, hmax⟩
  have hright : b.Covers (w + n) y :=
    ⟨hb.min_le, hb.le_max, hb.max_lt.trans_le (Nat.pow_le_pow_right (by omega) (by omega))⟩
  exact hleft.binaryOr hright hw

theorem withinBits (h : r.Covers w v) (hw : w < 64) : r.withinBits w = true := by
  have hmin := (h.min_le.trans h.le_max).trans_lt h.max_lt
  simp [ValueRange.withinBits, Nat.mod_eq_of_lt hw, Nat.shiftRight_eq_div_pow,
    Nat.div_eq_of_lt hmin, Nat.div_eq_of_lt h.max_lt]

theorem minSigned (h : r.Covers w v) (hw : w < 64) (hpos : 0 < w) :
    ∃ m, r.minSigned w = .ok m ∧ m ≤ sext v w := by
  have hle := h.le_max
  have hmin := h.min_le
  have hhalf : 2 ^ w = 2 * 2 ^ (w - 1) := by
    rw [← pow_succ']
    congr 1
    omega
  unfold ValueRange.minSigned
  rw [h.withinBits hw]
  refine ⟨_, rfl, ?_⟩
  simp only [sext, Nat.cast_pow, Nat.cast_ofNat, lt_irrefl, if_false]
  have hcast : (2 : ℤ) ^ w = 2 * 2 ^ (w - 1) := by exact_mod_cast hhalf
  have hpow : ((2 ^ (w - 1) : ℕ) : ℤ) = 2 ^ (w - 1) := by simp
  split_ifs <;> omega

theorem maxSigned (h : r.Covers w v) (hw : w < 64) (hpos : 0 < w) :
    ∃ m, r.maxSigned w = .ok m ∧ sext v w ≤ m := by
  have hle := h.le_max
  have hmin := h.min_le
  have hlt := h.lt
  have hhalf : 2 ^ w = 2 * 2 ^ (w - 1) := by
    rw [← pow_succ']
    congr 1
    omega
  unfold ValueRange.maxSigned
  rw [h.withinBits hw]
  refine ⟨_, rfl, ?_⟩
  simp only [sext]
  have hcast : (2 : ℤ) ^ w = 2 * 2 ^ (w - 1) := by exact_mod_cast hhalf
  have hpow : ((2 ^ (w - 1) : ℕ) : ℤ) = 2 ^ (w - 1) := by simp
  split_ifs <;> omega

end Covers

end ValueRange

end TaseVerifier
