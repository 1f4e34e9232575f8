import Mathlib.Data.Nat.Size
import Mathlib.Data.BitVec
import TaseVerifier.Library.LowestBit
import TaseVerifier.Library.MagicDivision

/-! The constants that replace multiplications and divisions by fixed numbers:
`ComputeMultConstants64`, `ComputeUDivConstants32` and `ComputeSDivConstants32`. -/

namespace TaseVerifier

open Library

namespace bits32

def indexOfSingleBit (x : BitVec 32) : ℕ :=
  (if x &&& 0xFFFF0000 ≠ 0 then 16 else 0) + (if x &&& 0xFF00FF00 ≠ 0 then 8 else 0) +
    (if x &&& 0xF0F0F0F0 ≠ 0 then 4 else 0) + (if x &&& 0xCCCCCCCC ≠ 0 then 2 else 0) +
    (if x &&& 0xAAAAAAAA ≠ 0 then 1 else 0)

end bits32

namespace bits64

def truncateToNBits (x : BitVec 64) (n : ℕ) : BitVec 64 := x &&& BitVec.allOnes 64 >>> (64 - n)

def isolateRightmostBit (x : BitVec 64) : BitVec 64 := x &&& -x

def indexOfSingleBit (x : BitVec 64) : ℕ :=
  bits32.indexOfSingleBit ((x ||| x >>> 32).setWidth 32) +
    if x &&& 0xFFFFFFFF#64 <<< 32 ≠ 0 then 32 else 0

def indexOfRightmostBit (x : BitVec 64) : ℕ := indexOfSingleBit (isolateRightmostBit x)

theorem indexOfSingleBit_twoPow :
    ∀ k : Fin 64, indexOfSingleBit (BitVec.twoPow 64 k) = k := by
  decide

variable {x : BitVec 64} {k : ℕ}

theorem isolateRightmostBit_eq (h : IsLowest x k) :
    isolateRightmostBit x = BitVec.twoPow 64 k := and_neg_eq_twoPow h

theorem indexOfRightmostBit_eq (h : IsLowest x k) : indexOfRightmostBit x = k := by
  rw [indexOfRightmostBit, isolateRightmostBit_eq h]
  exact indexOfSingleBit_twoPow ⟨k, h.lt⟩

theorem toNat_truncateToNBits (x : BitVec 64) {n : ℕ} (hn : n ≤ 64) :
    (truncateToNBits x n).toNat = x.toNat % 2 ^ n := by
  refine Nat.eq_of_testBit_eq fun j => ?_
  have hmask : (BitVec.allOnes 64 >>> (64 - n)).getLsbD j = decide (j < n) := by
    rw [BitVec.getLsbD_ushiftRight, BitVec.getLsbD_allOnes, decide_eq_decide]
    omega
  rw [Nat.testBit_mod_two_pow, BitVec.testBit_toNat, BitVec.testBit_toNat, truncateToNBits,
    BitVec.getLsbD_and, hmask, Bool.and_comm]

end bits64

/-! ### Multiplication -/

/-- The variables of the loop of `ComputeMultConstants64`. -/
structure MultConstants where
  x : BitVec 64
  add : BitVec 64
  sub : BitVec 64
  deriving DecidableEq

namespace MultConstants

/-- `-(1<<low)`. If the bit below is one to add, it becomes one to subtract instead. -/
def subLow (s : MultConstants) (low : ℕ) : MultConstants :=
  let lowbit := 1#64 <<< low
  if low ≠ 0 ∧ s.add &&& lowbit >>> 1 ≠ 0 then
    { s with add := s.add ^^^ lowbit >>> 1, sub := s.sub ^^^ lowbit >>> 1 }
  else { s with sub := s.sub ||| lowbit }

/-- `+(1<<high)`. -/
def addHigh (s : MultConstants) (high : ℕ) : MultConstants :=
  if high ≠ 64 then { s with add := s.add ||| 1#64 <<< high } else s

/-- One round, for the rightmost contiguous region of ones. -/
def round (s : MultConstants) : MultConstants :=
  let low := bits64.indexOfRightmostBit s.x
  let lowbit := 1#64 <<< low
  let p := s.x + lowbit
  let q := bits64.isolateRightmostBit p
  let high := if q ≠ 0 then bits64.indexOfSingleBit q else 64
  let s :=
    if high = low + 1 then { s with add := s.add ||| lowbit }
    else (s.subLow low).addHigh high
  { s with x := p ^^^ q }

/-- The digits found so far make up `v`, and all of them are below `k`. -/
structure Digits (s : MultConstants) (k : ℕ) (v : BitVec 64) : Prop where
  value : s.add - s.sub = v
  disjoint : ∀ j, s.add.getLsbD j = true → s.sub.getLsbD j = false
  add_from : ZeroFrom s.add k
  sub_from : ZeroFrom s.sub k

variable {s : MultConstants} {k low high : ℕ} {v : BitVec 64}

theorem Digits.mono (h : Digits s k v) {n : ℕ} (hkn : k ≤ n) : Digits s n v :=
  ⟨h.value, h.disjoint, h.add_from.mono hkn, h.sub_from.mono hkn⟩

theorem Digits.with_x (h : Digits s k v) (x : BitVec 64) : Digits { s with x := x } k v :=
  ⟨h.value, h.disjoint, h.add_from, h.sub_from⟩

theorem Digits.addBit (h : Digits s k v) {i : ℕ} (hi : k ≤ i) :
    Digits { s with add := s.add ||| 1#64 <<< i } (i + 1) (v + BitVec.twoPow 64 i) where
  value := by
    rw [← BitVec.twoPow_eq, or_twoPow_eq_add (h.add_from i hi), ← h.value]
    ring
  disjoint j hj := by
    rw [← BitVec.twoPow_eq, BitVec.getLsbD_or, BitVec.getLsbD_twoPow] at hj
    by_cases hij : i = j
    · exact hij ▸ h.sub_from i hi
    · exact h.disjoint j (by simpa [hij] using hj)
  add_from := (h.add_from.mono (by omega)).or_twoPow (Nat.lt_succ_self i)
  sub_from := h.sub_from.mono (by omega)

theorem Digits.addHigh (h : Digits s k v) (hhigh : k ≤ high) :
    Digits (s.addHigh high) (high + 1) (v + BitVec.twoPow 64 high) := by
  unfold MultConstants.addHigh
  split_ifs with h64
  · exact h.addBit hhigh
  · obtain rfl := not_not.mp h64
    have hzero : BitVec.twoPow 64 64 = 0#64 := rfl
    rw [hzero, BitVec.add_zero]
    exact h.mono (by omega)

theorem Digits.subLow (h : Digits s k v) (hlow : k ≤ low) (hlt : low < 64) :
    Digits (s.subLow low) (low + 1) (v - BitVec.twoPow 64 low) := by
  unfold MultConstants.subLow
  simp only [← BitVec.twoPow_eq]
  split_ifs with hbelow
  · obtain ⟨hne, hbit⟩ := hbelow
    rw [twoPow_shiftRight hne hlt, BitVec.and_twoPow] at hbit
    have hadd : s.add.getLsbD (low - 1) = true := by
      by_contra hno
      exact hbit (if_neg hno)
    have hsub := h.disjoint _ hadd
    rw [twoPow_shiftRight hne hlt]
    refine ⟨?_, fun j hj => ?_, (h.add_from.mono (by omega)).xor_twoPow (by omega),
      (h.sub_from.mono (by omega)).xor_twoPow (by omega)⟩
    · have htwo := twoPow_succ 64 (low - 1)
      rw [Nat.sub_add_cancel (Nat.pos_of_ne_zero hne)] at htwo
      rw [xor_twoPow_eq_sub hadd, xor_twoPow_eq_add hsub, ← h.value, htwo]
      ring
    · rw [BitVec.getLsbD_xor, BitVec.getLsbD_twoPow] at hj ⊢
      by_cases hij : low - 1 = j
      · subst hij
        have hlt' : low - 1 < 64 := by omega
        rw [hadd] at hj
        simp [hlt'] at hj
      · simp only [hij, decide_false, Bool.and_false, Bool.xor_false] at hj ⊢
        exact h.disjoint j hj
  · refine ⟨?_, fun j hj => ?_, h.add_from.mono (by omega),
      (h.sub_from.mono (by omega)).or_twoPow (Nat.lt_succ_self low)⟩
    · rw [or_twoPow_eq_add (h.sub_from low hlow), ← h.value]
      ring
    · rw [BitVec.getLsbD_or, BitVec.getLsbD_twoPow, h.disjoint j hj]
      have hij : low ≠ j := by
        rintro rfl
        rw [h.add_from low hlow] at hj
        cases hj
      simp [hij]

/-- The region `[low, high)`, where `high` is the place of the carry, or 64. -/
theorem exists_region {x : BitVec 64} (h : IsLowest x low) :
    let p := x + 1#64 <<< low
    let q := bits64.isolateRightmostBit p
    ∃ high, low < high ∧ (if q ≠ 0 then bits64.indexOfSingleBit q else 64) = high ∧
      p ^^^ q = x + BitVec.twoPow 64 low - BitVec.twoPow 64 high ∧
      ZeroBelow (p ^^^ q) (high + 1) ∧ (p ^^^ q).toNat < x.toNat := by
  intro p q
  have hpos : 0 < x.toNat := BitVec.toNat_pos_of_ne_zero h.ne_zero
  have hbelow : ZeroBelow p (low + 1) := zeroBelow_add_twoPow h
  by_cases hp : p = 0#64
  · have hq : q = 0#64 := by
      simp only [q, hp]
      rfl
    refine ⟨64, h.lt, if_neg (not_not.mpr hq), ?_, ?_, ?_⟩
    · rw [hq, BitVec.xor_zero]
      exact (sub_zero _).symm
    · rw [hp, hq]
      exact fun j _ => BitVec.getLsbD_zero
    · rw [hp, hq]
      exact hpos
  · obtain ⟨high, hhigh⟩ := exists_isLowest hp
    have hq : q = BitVec.twoPow 64 high := bits64.isolateRightmostBit_eq hhigh
    have hne : q ≠ 0 := by
      rw [hq]
      exact (isLowest_twoPow hhigh.lt).ne_zero
    refine ⟨high, hhigh.le hbelow, ?_, ?_, ?_, ?_⟩
    · rw [if_pos hne, hq]
      exact bits64.indexOfSingleBit_twoPow ⟨high, hhigh.lt⟩
    · rw [hq, xor_twoPow_eq_sub hhigh.bit]
      rfl
    · rw [hq]
      exact zeroBelow_xor_twoPow hhigh
    · have hle : p.toNat ≤ x.toNat + 2 ^ low := by
        rw [BitVec.toNat_add, ← BitVec.twoPow_eq, BitVec.toNat_twoPow_of_lt h.lt]
        exact Nat.mod_le _ _
      have hlt : 2 ^ low < 2 ^ high := Nat.pow_lt_pow_right Nat.one_lt_two (hhigh.le hbelow)
      have hclear := toNat_xor_twoPow hhigh.bit
      rw [hq]
      omega

theorem round_x_lt (hx : s.x ≠ 0#64) : s.round.x.toNat < s.x.toNat := by
  obtain ⟨low, h⟩ := exists_isLowest hx
  obtain ⟨high, -, -, -, -, hlt⟩ := exists_region h
  simpa only [round, bits64.indexOfRightmostBit_eq h] using hlt

/-- A round moves the value of the region from `x` to the digits. -/
theorem Digits.round (h : Digits s k v) (hbelow : ZeroBelow s.x k) (hx : s.x ≠ 0#64) :
    ∃ k', Digits s.round k' (v + s.x - s.round.x) ∧ ZeroBelow s.round.x k' := by
  obtain ⟨low, hlowest⟩ := exists_isLowest hx
  obtain ⟨high, hlt, hhigh, hvalue, hzero, -⟩ := exists_region hlowest
  have hlow : k ≤ low := hlowest.le hbelow
  have hround : s.round.x = s.x + BitVec.twoPow 64 low - BitVec.twoPow 64 high := by
    simpa only [MultConstants.round, bits64.indexOfRightmostBit_eq hlowest] using hvalue
  refine ⟨high + 1, ?_, ?_⟩
  · have hsum : v + s.x - s.round.x = v - BitVec.twoPow 64 low + BitVec.twoPow 64 high := by
      rw [hround]
      ring
    rw [hsum]
    simp only [MultConstants.round, bits64.indexOfRightmostBit_eq hlowest, hhigh]
    refine Digits.with_x ?_ _
    split_ifs with hone
    · subst hone
      have htwo : v - BitVec.twoPow 64 low + BitVec.twoPow 64 (low + 1) =
          v + BitVec.twoPow 64 low := by
        rw [twoPow_succ]
        ring
      rw [htwo]
      exact (h.addBit hlow).mono (Nat.le_succ _)
    · exact (h.subLow hlow hlowest.lt).addHigh hlt
  · simpa only [MultConstants.round, bits64.indexOfRightmostBit_eq hlowest] using hzero

/-- `while (x)`. -/
def loop (s : MultConstants) : MultConstants :=
  if _ : s.x = 0 then s else loop s.round
termination_by s.x.toNat
decreasing_by exact round_x_lt ‹_›

theorem Digits.loop (h : Digits s k v) (hbelow : ZeroBelow s.x k) :
    ∃ k', Digits s.loop k' (v + s.x) := by
  induction hn : s.x.toNat using Nat.strong_induction_on generalizing s k v with
  | _ n ih =>
    subst hn
    unfold MultConstants.loop
    split_ifs with hx
    · rw [hx]
      exact ⟨k, by simpa using h⟩
    · obtain ⟨k', hround, hzero⟩ := h.round hbelow hx
      obtain ⟨k'', hloop⟩ := ih _ (round_x_lt hx) hround hzero rfl
      exact ⟨k'', by simpa using hloop⟩

/-- The loop ends, after the rounds that it takes to make `x` zero. -/
theorem exists_rounds (s : MultConstants) : ∃ n, s.loop = round^[n] s ∧ s.loop.x = 0#64 := by
  induction hn : s.x.toNat using Nat.strong_induction_on generalizing s with
  | _ n ih =>
    subst hn
    unfold loop
    split_ifs with hx
    · exact ⟨0, rfl, hx⟩
    · obtain ⟨m, hm, hzero⟩ := ih _ (round_x_lt hx) s.round rfl
      exact ⟨m + 1, hm, hzero⟩

end MultConstants

def ComputeMultConstants64 (multiplicand : BitVec 64) : BitVec 64 × BitVec 64 :=
  let s := MultConstants.loop ⟨multiplicand, 0, 0⟩
  (s.add, s.sub)

theorem computeMultConstants64_spec (x : BitVec 64) :
    (ComputeMultConstants64 x).1 - (ComputeMultConstants64 x).2 = x ∧
      (ComputeMultConstants64 x).1 &&& (ComputeMultConstants64 x).2 = 0#64 := by
  have hstart : MultConstants.Digits ⟨x, 0, 0⟩ 0 0 :=
    ⟨sub_self 0, fun j hj => by simp at hj, fun j _ => by simp, fun j _ => by simp⟩
  obtain ⟨k, h⟩ := hstart.loop fun j hj => absurd hj (Nat.not_lt_zero j)
  simp only [ComputeMultConstants64]
  refine ⟨h.value.trans (BitVec.zero_add x), BitVec.eq_of_getLsbD_eq fun j _ => ?_⟩
  rw [BitVec.getLsbD_and, BitVec.getLsbD_zero]
  by_cases hj : (MultConstants.loop ⟨x, 0, 0⟩).add.getLsbD j = true
  · rw [h.disjoint j hj, Bool.and_false]
  · rw [Bool.eq_false_of_not_eq_true hj, Bool.false_and]

/-! ### Logarithms -/

def ones (x : BitVec 32) : BitVec 32 :=
  let x := x - (x >>> 1 &&& 0x55555555)
  let x := (x >>> 2 &&& 0x33333333) + (x &&& 0x33333333)
  let x := (x >>> 4) + x &&& 0x0f0f0f0f
  let x := x + x >>> 8
  let x := x + x >>> 16
  x &&& 0x0000003f

/-- The word of `ldz` after its assignments. -/
def smear (x : BitVec 32) : BitVec 32 :=
  let x := x ||| x >>> 1
  let x := x ||| x >>> 2
  let x := x ||| x >>> 4
  let x := x ||| x >>> 8
  x ||| x >>> 16

def ldz (x : BitVec 32) : BitVec 32 := 32 - ones (smear x)

def LOG2_CEIL (x : BitVec 32) : BitVec 32 := 32 - ldz (x - 1)

/-- The sign bit of `~n & (n - 32)` says whether `0 ≤ n < 32`. For `n = 32` a zero is
shifted. -/
def exp_base_2 (n : BitVec 32) : BitVec 32 :=
  let x := ~~~n &&& (n - 32)
  let x := x >>> 31
  x <<< n.toNat

/-- Bit `i` of `y` says whether `x` has a one among the `n` bits from `i` on. -/
def Smeared (x y : BitVec 32) (n : ℕ) : Prop :=
  ∀ i, y.getLsbD i = true ↔ ∃ j, i ≤ j ∧ j < i + n ∧ x.getLsbD j = true

theorem Smeared.double {x y : BitVec 32} {n : ℕ} (h : Smeared x y n) :
    Smeared x (y ||| y >>> n) (n + n) := by
  intro i
  rw [BitVec.getLsbD_or, BitVec.getLsbD_ushiftRight, Bool.or_eq_true, h i, h (n + i)]
  constructor
  · rintro (⟨j, hij, hj, hbit⟩ | ⟨j, hij, hj, hbit⟩)
    · exact ⟨j, hij, by omega, hbit⟩
    · exact ⟨j, by omega, by omega, hbit⟩
  · rintro ⟨j, hij, hj, hbit⟩
    by_cases hn : j < i + n
    · exact .inl ⟨j, hij, hn, hbit⟩
    · exact .inr ⟨j, by omega, by omega, hbit⟩

theorem smeared_smear (x : BitVec 32) : Smeared x (smear x) 32 := by
  have hone : Smeared x x 1 := by
    intro i
    constructor
    · exact fun h => ⟨i, le_rfl, Nat.lt_succ_self i, h⟩
    · rintro ⟨j, hij, hj, hbit⟩
      obtain rfl : j = i := by omega
      exact hbit
  exact hone.double.double.double.double.double

/-- All the bits up to the highest one. -/
theorem smear_eq (x : BitVec 32) : smear x = BitVec.ofNat 32 (2 ^ x.toNat.size - 1) := by
  refine BitVec.eq_of_getLsbD_eq fun i hi => ?_
  rw [Bool.eq_iff_iff, smeared_smear x i, BitVec.getLsbD_ofNat, Nat.testBit_two_pow_sub_one]
  have hsize : i < x.toNat.size ↔ ∃ j, i ≤ j ∧ j < i + 32 ∧ x.getLsbD j = true := by
    rw [Nat.lt_size]
    constructor
    · intro h
      obtain ⟨j, hij, hbit⟩ := Nat.exists_ge_and_testBit_of_ge_two_pow h
      have hj : j < 32 := BitVec.lt_of_getLsbD hbit
      exact ⟨j, hij, by omega, hbit⟩
    · rintro ⟨j, hij, -, hbit⟩
      exact (Nat.pow_le_pow_right Nat.two_pos hij).trans (Nat.ge_two_pow_of_testBit hbit)
  simp [← hsize, hi]

theorem ones_two_pow : ∀ k : Fin 33,
    ones (BitVec.ofNat 32 (2 ^ (k : ℕ) - 1)) = BitVec.ofNat 32 k := by
  decide

theorem size_toNat_le (x : BitVec 32) : x.toNat.size ≤ 32 := Nat.size_le.mpr x.isLt

theorem LOG2_CEIL_eq (x : BitVec 32) : LOG2_CEIL x = BitVec.ofNat 32 (x - 1).toNat.size := by
  have hsize := ones_two_pow ⟨(x - 1).toNat.size, Nat.lt_succ_of_le (size_toNat_le _)⟩
  rw [LOG2_CEIL, ldz, smear_eq, hsize]
  ring

theorem exp_base_2_eq : ∀ n : Fin 33,
    exp_base_2 (BitVec.ofNat 32 n) = BitVec.ofNat 32 (2 ^ (n : ℕ)) := by
  decide

/-! ### Divisions -/

/-- `std::min` and `std::max` on `int32_t`. -/
def stdMin (a b : BitVec 32) : BitVec 32 := if b.slt a then b else a
def stdMax (a b : BitVec 32) : BitVec 32 := if a.slt b then b else a

/-- `mprime`, `sh1` and `sh2`. -/
def ComputeUDivConstants32 (d : BitVec 32) : BitVec 32 × BitVec 32 × BitVec 32 :=
  let l := LOG2_CEIL d
  let mid := exp_base_2 l - d
  let mprime := (1#64 <<< 32) * mid.setWidth 64 / d.setWidth 64 + 1
  (mprime.setWidth 32, stdMin l 1, stdMax (l - 1) 0)

def ABS (x : BitVec 64) : BitVec 64 := if (0#64).slt x then x else -x

def XSIGN (x : BitVec 32) : BitVec 32 := x.sshiftRight 31

/-- `l` of `ComputeSDivConstants32`. -/
def sdivLog (abs_d : BitVec 64) : BitVec 32 :=
  if abs_d = 1#64 <<< 31 then 31
  else
    let l := LOG2_CEIL (abs_d.setWidth 32)
    if 1 < l then l else 1

/-- `mprime`, `dsign` and `shpost`. -/
def ComputeSDivConstants32 (d : BitVec 32) : BitVec 32 × BitVec 32 × BitVec 32 :=
  let abs_d := ABS (d.signExtend 64)
  let l := sdivLog abs_d
  let mid := exp_base_2 (l - 1)
  let m := (1#64 <<< 32) * mid.setWidth 64 / abs_d + 1
  ((m - 1#64 <<< 32).setWidth 32, XSIGN d, l - 1)

/-- The least power of two from `x` on. -/
theorem two_pow_size {n : ℕ} (hn : n ≠ 0) :
    n ≤ 2 ^ (n - 1).size ∧ ((n - 1).size = 0 ∨ 2 ^ ((n - 1).size - 1) < n) := by
  have hself : n - 1 < 2 ^ (n - 1).size := Nat.lt_size_self _
  refine ⟨by omega, ?_⟩
  by_cases hsize : (n - 1).size = 0
  · exact .inl hsize
  · have hlow : 2 ^ ((n - 1).size - 1) ≤ n - 1 := Nat.lt_size.mp (by omega)
    exact .inr (by omega)

theorem shifts_eq : ∀ l : Fin 33,
    (stdMin (BitVec.ofNat 32 l) 1).toNat = min (l : ℕ) 1 ∧
      (stdMax (BitVec.ofNat 32 l - 1) 0).toNat = (l : ℕ) - 1 := by
  decide

theorem toNat_mid {d : BitVec 32} {l : ℕ} (hl : l ≤ 32) (hd : d ≠ 0#32) (hle : d.toNat ≤ 2 ^ l) :
    (BitVec.ofNat 32 (2 ^ l) - d).toNat = 2 ^ l - d.toNat := by
  have hpos := BitVec.toNat_pos_of_ne_zero hd
  rw [BitVec.toNat_sub, BitVec.toNat_ofNat]
  rcases hl.lt_or_eq with hlt | rfl
  · have hpow : 2 ^ l < 2 ^ 32 := Nat.pow_lt_pow_right Nat.one_lt_two hlt
    omega
  · omega

theorem two_pow_le_double {d l : ℕ} (hd : 0 < d) (hgt : l = 0 ∨ 2 ^ (l - 1) < d) :
    2 ^ l ≤ d ∨ 2 ^ l + 2 ≤ 2 * d := by
  cases l with
  | zero => exact .inl hd
  | succ l =>
    have hlow : 2 ^ l < d := hgt.resolve_left (Nat.succ_ne_zero l)
    rw [pow_succ]
    omega

theorem toNat_shifted_udiv {a : BitVec 32} {b : BitVec 64} :
    ((1#64 <<< 32) * a.setWidth 64 / b).toNat = 2 ^ 32 * a.toNat / b.toNat := by
  have ha := a.isLt
  have hone : (1#64 <<< 32).toNat = 2 ^ 32 := rfl
  rw [BitVec.toNat_udiv, BitVec.toNat_mul, hone, BitVec.toNat_setWidth,
    Nat.mod_eq_of_lt (by omega : a.toNat < 2 ^ 64), Nat.mod_eq_of_lt (by omega)]

/-- The multiplier for `d`, less `2^32`, for the power `2^(32+l)`. -/
theorem computeUDivConstants32_spec {d : BitVec 32} (hd : d ≠ 0#32) :
    ∃ l, d.toNat ≤ 2 ^ l ∧ (l = 0 → d.toNat = 1) ∧
      (ComputeUDivConstants32 d).1.toNat + 2 ^ 32 = 2 ^ 32 * 2 ^ l / d.toNat + 1 ∧
      (ComputeUDivConstants32 d).2.1.toNat = min l 1 ∧
      (ComputeUDivConstants32 d).2.2.toNat = l - 1 := by
  have hpos := BitVec.toNat_pos_of_ne_zero hd
  have hpred : (d - 1).toNat = d.toNat - 1 := by
    have hone : (1 : BitVec 32).toNat = 1 := rfl
    have hlt := d.isLt
    rw [BitVec.toNat_sub, hone]
    omega
  have hl := size_toNat_le (d - 1)
  obtain ⟨hle, hgt⟩ := two_pow_size (Nat.ne_of_gt hpos)
  have hlog := LOG2_CEIL_eq d
  rw [hpred] at hl hlog
  generalize (d.toNat - 1).size = l at *
  have hfin := shifts_eq ⟨l, Nat.lt_succ_of_le hl⟩
  have hexp := exp_base_2_eq ⟨l, Nat.lt_succ_of_le hl⟩
  have hmid := toNat_mid hl hd hle
  refine ⟨l, hle, ?_, ?_, ?_, ?_⟩
  · rintro rfl
    omega
  · have hlt : 2 ^ 32 * (2 ^ l - d.toNat) / d.toNat < 2 ^ 32 - 1 := by
      have hd32 := d.isLt
      have hdouble := two_pow_le_double hpos hgt
      rw [Nat.div_lt_iff_lt_mul hpos]
      omega
    have hquot := toNat_shifted_udiv (a := BitVec.ofNat 32 (2 ^ l) - d) (b := d.setWidth 64)
    have hd64 : (d.setWidth 64).toNat = d.toNat := by
      rw [BitVec.toNat_setWidth, Nat.mod_eq_of_lt (by omega)]
    rw [hmid, hd64] at hquot
    have hsplit : 2 ^ 32 * 2 ^ l = 2 ^ 32 * (2 ^ l - d.toNat) + 2 ^ 32 * d.toNat := by
      rw [← Nat.mul_add, Nat.sub_add_cancel hle]
    have hone : (1 : BitVec 64).toNat = 1 := rfl
    simp only [ComputeUDivConstants32, hlog, hexp]
    rw [BitVec.toNat_setWidth, BitVec.toNat_add, hquot, hone, hsplit,
      Nat.add_mul_div_right _ _ hpos]
    omega
  · simpa only [ComputeUDivConstants32, hlog] using hfin.1
  · simpa only [ComputeUDivConstants32, hlog] using hfin.2

theorem toInt_bounds (d : BitVec 32) : -2 ^ 31 ≤ d.toInt ∧ d.toInt < 2 ^ 31 :=
  ⟨d.le_toInt, d.toInt_lt⟩

theorem toNat_ABS (d : BitVec 32) : (ABS (d.signExtend 64)).toNat = d.toInt.natAbs := by
  have hext : (d.signExtend 64).toInt = d.toInt := BitVec.toInt_signExtend_of_le (by decide)
  have hbounds := toInt_bounds d
  have hcond := BitVec.toInt_eq_toNat_cond (d.signExtend 64)
  have hlt := (d.signExtend 64).isLt
  have hslt : (0#64).slt (d.signExtend 64) = decide (0 < d.toInt) := by
    rw [BitVec.slt_eq_decide, hext]
    rfl
  rw [hext] at hcond
  simp only [ABS, hslt, decide_eq_true_eq]
  split_ifs with hpos
  · split_ifs at hcond <;> omega
  · rw [BitVec.toNat_neg]
    split_ifs at hcond <;> omega

theorem XSIGN_eq (d : BitVec 32) :
    XSIGN d = if d.toInt < 0 then BitVec.allOnes 32 else 0#32 := by
  have hbounds := toInt_bounds d
  refine BitVec.eq_of_toInt_eq ?_
  rw [XSIGN, BitVec.toInt_sshiftRight, Int.shiftRight_eq_div_pow]
  split_ifs with hneg
  · have hones : (BitVec.allOnes 32).toInt = -1 := rfl
    rw [hones]
    omega
  · rw [BitVec.toInt_zero]
    omega

theorem max_one_eq : ∀ l : Fin 32,
    (if 1 < BitVec.ofNat 32 (l + 1) then BitVec.ofNat 32 (l + 1) else 1) =
        BitVec.ofNat 32 (l + 1) ∧
      BitVec.ofNat 32 (l + 1) - 1 = BitVec.ofNat 32 l ∧ (BitVec.ofNat 32 l).toNat = l := by
  decide

theorem sdivLog_eq {b : BitVec 64} (hlow : 2 ≤ b.toNat) (hhigh : b.toNat ≤ 2 ^ 31) :
    ∃ l, sdivLog b = BitVec.ofNat 32 (l + 1) ∧ l ≤ 30 ∧ b.toNat ≤ 2 ^ (l + 1) ∧
      2 ^ l < b.toNat := by
  obtain ⟨hle, hgt⟩ := two_pow_size (n := b.toNat) (by omega)
  have hsize : (b.toNat - 1).size ≤ 31 := Nat.size_le.mpr (by omega)
  have hpos : 0 < (b.toNat - 1).size := Nat.size_pos.mpr (by omega)
  have hlog := LOG2_CEIL_eq (b.setWidth 32)
  have hpred : (b.setWidth 32 - 1).toNat = b.toNat - 1 := by
    have hone : (1 : BitVec 32).toNat = 1 := rfl
    rw [BitVec.toNat_sub, BitVec.toNat_setWidth, hone]
    omega
  obtain ⟨l, hl⟩ := Nat.exists_eq_succ_of_ne_zero hpos.ne'
  rw [hpred, hl] at hlog
  rw [hl] at hle hgt hsize
  refine ⟨l, ?_, by omega, hle, hgt.resolve_left (Nat.succ_ne_zero l)⟩
  simp only [sdivLog, hlog]
  rw [(max_one_eq ⟨l, by omega⟩).1, ite_eq_right_iff]
  intro hb
  have hnat : b.toNat = 2 ^ 31 := hb ▸ rfl
  have hl : 31 ≤ l + 1 := (Nat.pow_le_pow_iff_right Nat.one_lt_two).mp (hnat ▸ hle)
  obtain rfl : l = 30 := by omega
  rfl

/-- Less `2^32`, a multiplier from `2^31 + 1` to `2^32` is a word with a sign. -/
theorem toInt_mprime {m : BitVec 64} (hlow : 2 ^ 31 ≤ m.toNat) (hhigh : m.toNat < 2 ^ 32) :
    ((m + (1 : BitVec 64) - 1#64 <<< 32).setWidth 32).toInt + 2 ^ 32 = (m.toNat + 1 : ℕ) := by
  have hone : (1 : BitVec 64).toNat = 1 := rfl
  have htwo : (1#64 <<< 32).toNat = 2 ^ 32 := rfl
  rw [BitVec.toInt_eq_toNat_cond, BitVec.toNat_setWidth, BitVec.toNat_sub, BitVec.toNat_add,
    hone, htwo]
  split_ifs with h <;> omega

/-- The multiplier for `|d|`, less `2^32`, for the power `2^(32+l)`. -/
theorem computeSDivConstants32_spec {d : BitVec 32} (hd : 2 ≤ d.toInt.natAbs) :
    ∃ l, d.toInt.natAbs ≤ 2 ^ (l + 1) ∧ 2 ^ l < d.toInt.natAbs ∧ l ≤ 30 ∧
      (ComputeSDivConstants32 d).1.toInt + 2 ^ 32 =
        (2 ^ 32 * 2 ^ l / d.toInt.natAbs + 1 : ℕ) ∧
      (ComputeSDivConstants32 d).2.1 = (if d.toInt < 0 then BitVec.allOnes 32 else 0#32) ∧
      (ComputeSDivConstants32 d).2.2.toNat = l := by
  have hbounds := toInt_bounds d
  have habs := toNat_ABS d
  obtain ⟨l, hlog, hl, hle, hgt⟩ := sdivLog_eq (b := ABS (d.signExtend 64)) (by omega) (by omega)
  obtain ⟨-, hsub, hnat⟩ := max_one_eq ⟨l, by omega⟩
  have hquot := toNat_shifted_udiv (a := BitVec.ofNat 32 (2 ^ l)) (b := ABS (d.signExtend 64))
  have hpow : (BitVec.ofNat 32 (2 ^ l)).toNat = 2 ^ l :=
    Nat.mod_eq_of_lt (Nat.pow_lt_pow_right Nat.one_lt_two (by omega))
  rw [habs] at hquot hle hgt
  rw [hpow] at hquot
  have hlow : 2 ^ 31 ≤ 2 ^ 32 * 2 ^ l / d.toInt.natAbs := by
    rw [Nat.le_div_iff_mul_le (by omega)]
    omega
  have hhigh : 2 ^ 32 * 2 ^ l / d.toInt.natAbs < 2 ^ 32 := by
    rw [Nat.div_lt_iff_lt_mul (by omega)]
    omega
  rw [← hquot] at hlow hhigh
  refine ⟨l, hle, hgt, hl, ?_, XSIGN_eq d, ?_⟩
  · simp only [ComputeSDivConstants32, hlog, hsub, exp_base_2_eq ⟨l, by omega⟩]
    rw [← hquot]
    exact toInt_mprime hlow hhigh
  · simp only [ComputeSDivConstants32, hlog, hsub]
    exact hnat

end TaseVerifier
