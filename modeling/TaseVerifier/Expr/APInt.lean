import Mathlib.Algebra.GroupWithZero.Nat
import Mathlib.Data.Nat.Basic
import Mathlib.Tactic.Common

/-! Fixed-width integers as `llvm::APInt` provides them. A value carries its own
width; the binary operations are only ever used on operands of one width, and
read the second operand at the width of the first. -/

namespace TaseVerifier

/-- A bit width together with a value of that width. -/
structure APInt where
  width : ℕ
  val : BitVec width
  deriving DecidableEq

namespace APInt

def toNat (a : APInt) : ℕ := a.val.toNat

/-- `APInt(w, v)`: the value `v` cut to `w` bits. -/
def ofNat (w v : ℕ) : APInt := ⟨w, BitVec.ofNat w v⟩

/-- The result of a comparison, one bit wide. -/
def ofBool (b : Bool) : APInt := ⟨1, BitVec.ofBool b⟩

def isZero (a : APInt) : Bool := a.toNat == 0

def isOne (a : APInt) : Bool := a.toNat == 1

def isAllOnes (a : APInt) : Bool := a.val == BitVec.allOnes a.width

def isTrue (a : APInt) : Bool := a.width == 1 && a.toNat != 0

def isFalse (a : APInt) : Bool := a.width == 1 && a.toNat == 0

/-- An arithmetic operation at the width of the first operand. -/
def map₂ (f : (w : ℕ) → BitVec w → BitVec w → BitVec w) (a b : APInt) : APInt :=
  ⟨a.width, f a.width a.val (b.val.setWidth a.width)⟩

/-- A comparison at the width of the first operand. -/
def cmp (f : (w : ℕ) → BitVec w → BitVec w → Bool) (a b : APInt) : APInt :=
  ofBool (f a.width a.val (b.val.setWidth a.width))

def add : APInt → APInt → APInt := map₂ fun _ x y => x + y
def sub : APInt → APInt → APInt := map₂ fun _ x y => x - y
def mul : APInt → APInt → APInt := map₂ fun _ x y => x * y
def and : APInt → APInt → APInt := map₂ fun _ x y => x &&& y
def or : APInt → APInt → APInt := map₂ fun _ x y => x ||| y
def xor : APInt → APInt → APInt := map₂ fun _ x y => x ^^^ y

/-- Division by zero has the value the solvers give it: all ones for the unsigned
quotient, the dividend for the remainders. `APInt::udiv` and its siblings assert
a non-zero divisor, and folding stops there. -/
def udiv : APInt → APInt → APInt := map₂ fun _ x y => x.smtUDiv y
def sdiv : APInt → APInt → APInt := map₂ fun _ x y => x.smtSDiv y
def urem : APInt → APInt → APInt := map₂ fun _ x y => x % y
def srem : APInt → APInt → APInt := map₂ fun _ x y => x.srem y

/-- Shifts saturate: an amount of at least the width moves every bit out. `APInt` leaves
the result of such an arithmetic shift undefined; within one word it is zero. -/
def shl : APInt → APInt → APInt := map₂ fun _ x y => x <<< y.toNat
def lshr : APInt → APInt → APInt := map₂ fun _ x y => x >>> y.toNat
def ashr : APInt → APInt → APInt := map₂ fun w x y =>
  if w ≤ 64 ∧ w ≤ y.toNat then 0#w else x.sshiftRight y.toNat

def eq : APInt → APInt → APInt := cmp fun _ x y => x == y
def ult : APInt → APInt → APInt := cmp fun _ x y => x.ult y
def ule : APInt → APInt → APInt := cmp fun _ x y => x.ule y
def slt : APInt → APInt → APInt := cmp fun _ x y => x.slt y
def sle : APInt → APInt → APInt := cmp fun _ x y => x.sle y

def not (a : APInt) : APInt := ⟨a.width, ~~~a.val⟩

/-- `zextOrTrunc`. -/
def zext (a : APInt) (w : ℕ) : APInt := ⟨w, a.val.setWidth w⟩

/-- `sextOrTrunc`. -/
def sext (a : APInt) (w : ℕ) : APInt := ⟨w, a.val.signExtend w⟩

def concat (a b : APInt) : APInt := ⟨a.width + b.width, a.val ++ b.val⟩

/-- The bits `off`, ..., `off + w - 1`. -/
def extract (a : APInt) (off w : ℕ) : APInt := ⟨w, a.val.extractLsb' off w⟩

theorem ext_toNat {a b : APInt} (hw : a.width = b.width) (hv : a.toNat = b.toNat) : a = b := by
  obtain ⟨w, x⟩ := a
  obtain ⟨w', y⟩ := b
  obtain rfl : w = w' := hw
  congr 1
  exact BitVec.eq_of_toNat_eq hv

@[simp] theorem width_map₂ (f) (a b : APInt) : (map₂ f a b).width = a.width := rfl
@[simp] theorem width_cmp (f) (a b : APInt) : (cmp f a b).width = 1 := rfl
@[simp] theorem width_ofNat (w v : ℕ) : (ofNat w v).width = w := rfl
@[simp] theorem width_ofBool (b : Bool) : (ofBool b).width = 1 := rfl
@[simp] theorem width_not (a : APInt) : a.not.width = a.width := rfl
@[simp] theorem width_zext (a : APInt) (w : ℕ) : (a.zext w).width = w := rfl
@[simp] theorem width_sext (a : APInt) (w : ℕ) : (a.sext w).width = w := rfl
@[simp] theorem width_concat (a b : APInt) : (a.concat b).width = a.width + b.width := rfl
@[simp] theorem width_extract (a : APInt) (off w : ℕ) : (a.extract off w).width = w := rfl

@[simp] theorem toNat_ofBool (b : Bool) : (ofBool b).toNat = b.toNat := by
  cases b <;> rfl

@[simp] theorem toNat_ofNat (w v : ℕ) : (ofNat w v).toNat = v % 2 ^ w := BitVec.toNat_ofNat ..

theorem toNat_lt (a : APInt) : a.toNat < 2 ^ a.width := a.val.isLt

/-- A one-bit value is the comparison result it encodes. -/
theorem eq_ofBool (a : APInt) (h : a.width = 1) : a = ofBool (a.toNat == 1) := by
  refine ext_toNat h ?_
  have := a.toNat_lt
  rw [h] at this
  rw [toNat_ofBool]
  rcases Nat.lt_succ_iff_lt_or_eq.mp this with h0 | h1
  · have : a.toNat = 0 := by omega
    simp [this]
  · simp [h1]

/-- Operands of one width can be taken to be two bit vectors of that width. -/
theorem ofWidth (a : APInt) {w : ℕ} (h : a.width = w) : ∃ x : BitVec w, a = ⟨w, x⟩ := by
  obtain ⟨v, x⟩ := a
  obtain rfl : v = w := h
  exact ⟨x, rfl⟩

@[simp] theorem map₂_mk (f : (w : ℕ) → BitVec w → BitVec w → BitVec w) {w : ℕ} (x y : BitVec w) :
    map₂ f ⟨w, x⟩ ⟨w, y⟩ = ⟨w, f w x y⟩ := by
  simp [map₂]

@[simp] theorem cmp_mk (f : (w : ℕ) → BitVec w → BitVec w → Bool) {w : ℕ} (x y : BitVec w) :
    cmp f ⟨w, x⟩ ⟨w, y⟩ = ofBool (f w x y) := by
  simp [cmp]

section ofWidth

variable {w : ℕ} (x y : BitVec w)

@[simp] theorem add_mk : add ⟨w, x⟩ ⟨w, y⟩ = ⟨w, x + y⟩ := map₂_mk ..
@[simp] theorem sub_mk : sub ⟨w, x⟩ ⟨w, y⟩ = ⟨w, x - y⟩ := map₂_mk ..
@[simp] theorem mul_mk : mul ⟨w, x⟩ ⟨w, y⟩ = ⟨w, x * y⟩ := map₂_mk ..
@[simp] theorem and_mk : and ⟨w, x⟩ ⟨w, y⟩ = ⟨w, x &&& y⟩ := map₂_mk ..
@[simp] theorem or_mk : or ⟨w, x⟩ ⟨w, y⟩ = ⟨w, x ||| y⟩ := map₂_mk ..
@[simp] theorem xor_mk : xor ⟨w, x⟩ ⟨w, y⟩ = ⟨w, x ^^^ y⟩ := map₂_mk ..
@[simp] theorem shl_mk : shl ⟨w, x⟩ ⟨w, y⟩ = ⟨w, x <<< y.toNat⟩ := map₂_mk ..
@[simp] theorem lshr_mk : lshr ⟨w, x⟩ ⟨w, y⟩ = ⟨w, x >>> y.toNat⟩ := map₂_mk ..
@[simp] theorem ashr_mk : ashr ⟨w, x⟩ ⟨w, y⟩ =
    ⟨w, if w ≤ 64 ∧ w ≤ y.toNat then 0#w else x.sshiftRight y.toNat⟩ := map₂_mk ..
@[simp] theorem eq_mk : eq ⟨w, x⟩ ⟨w, y⟩ = ofBool (x == y) := cmp_mk ..
@[simp] theorem ult_mk : ult ⟨w, x⟩ ⟨w, y⟩ = ofBool (x.ult y) := cmp_mk ..
@[simp] theorem ule_mk : ule ⟨w, x⟩ ⟨w, y⟩ = ofBool (x.ule y) := cmp_mk ..
@[simp] theorem slt_mk : slt ⟨w, x⟩ ⟨w, y⟩ = ofBool (x.slt y) := cmp_mk ..
@[simp] theorem sle_mk : sle ⟨w, x⟩ ⟨w, y⟩ = ofBool (x.sle y) := cmp_mk ..
@[simp] theorem not_mk : not ⟨w, x⟩ = ⟨w, ~~~x⟩ := rfl
@[simp] theorem toNat_mk : toNat ⟨w, x⟩ = x.toNat := rfl

theorem isAllOnes_mk : isAllOnes ⟨w, x⟩ = true ↔ x = BitVec.allOnes w := by simp [isAllOnes]

theorem isZero_mk : isZero ⟨w, x⟩ = true ↔ x = 0#w := by
  simp [isZero, BitVec.toNat_eq]

theorem isOne_mk (h : isOne ⟨w, x⟩ = true) : x = 1#w := by
  have hx : x.toNat = 1 := by simpa [isOne] using h
  refine BitVec.eq_of_toNat_eq ?_
  rw [hx, BitVec.toNat_ofNat, Nat.mod_eq_of_lt (hx ▸ x.isLt)]

end ofWidth

/-- There are two values of width one. -/
theorem bool_cases (a : APInt) (h : a.width = 1) : a = ofBool true ∨ a = ofBool false := by
  rw [a.eq_ofBool h]
  cases a.toNat == 1 <;> simp

@[simp] theorem isTrue_ofBool (b : Bool) : (ofBool b).isTrue = b := by cases b <;> rfl
@[simp] theorem isFalse_ofBool (b : Bool) : (ofBool b).isFalse = !b := by cases b <;> rfl

@[simp] theorem ofBool_inj (a b : Bool) : ofBool a = ofBool b ↔ a = b := by
  cases a <;> cases b <;> decide

/-- Values of one width are compared as values. -/
theorem eq_eq_ofBool {a b : APInt} (h : a.width = b.width) : eq a b = ofBool (decide (a = b)) := by
  obtain ⟨w, x⟩ := a
  obtain ⟨y, rfl⟩ := b.ofWidth h.symm
  rw [eq_mk, ofBool_inj]
  by_cases hxy : x = y <;> simp [hxy]

/-- Folding by an arithmetic shift and a truncation takes the bits of the window. -/
theorem sshiftRight_setWidth {n : ℕ} (x : BitVec n) {off w : ℕ} (h : off + w ≤ n) :
    (x.sshiftRight off).setWidth w = x.extractLsb' off w := by
  ext i hi
  have h1 : ¬ n ≤ i := by omega
  have h2 : off + i < n := by omega
  simp [BitVec.getLsbD_sshiftRight, h1, h2]

theorem ext_getLsbD {a b : APInt} (hw : a.width = b.width)
    (h : ∀ i < a.width, a.val.getLsbD i = b.val.getLsbD i) : a = b := by
  obtain ⟨w, x⟩ := a
  obtain ⟨y, rfl⟩ := b.ofWidth hw.symm
  congr 1
  exact BitVec.eq_of_getLsbD_eq h

theorem extract_self (a : APInt) {w : ℕ} (h : w = a.width) : a.extract 0 w = a := by
  subst h
  refine ext_getLsbD rfl fun i hi => ?_
  simp only [width_extract] at hi
  simp [extract, hi]

/-- The window lies in the high part. -/
theorem extract_concat_left (a b : APInt) {off w : ℕ} (h : b.width ≤ off) :
    (a.concat b).extract off w = a.extract (off - b.width) w := by
  refine ext_getLsbD rfl fun i _ => ?_
  have h1 : ¬ off + i < b.width := by omega
  have h2 : off + i - b.width = off - b.width + i := by omega
  simp [extract, concat, BitVec.getLsbD_append, h1, h2]

/-- The window lies in the low part. -/
theorem extract_concat_right (a b : APInt) {off w : ℕ} (h : off + w ≤ b.width) :
    (a.concat b).extract off w = b.extract off w := by
  refine ext_getLsbD rfl fun i hi => ?_
  simp only [width_extract] at hi
  have h1 : off + i < b.width := by omega
  simp [extract, concat, BitVec.getLsbD_append, h1]

/-- The window takes bits of both parts. -/
theorem extract_concat_split (a b : APInt) {off w : ℕ} (h1 : off < b.width) (h2 : b.width ≤ off + w) :
    (a.concat b).extract off w =
      (a.extract 0 (w + off - b.width)).concat (b.extract off (b.width - off)) := by
  refine ext_getLsbD (by simp; omega) fun i hi => ?_
  simp only [width_extract] at hi
  simp only [extract, concat, BitVec.getLsbD_extractLsb', BitVec.getLsbD_append, Nat.zero_add]
  by_cases hib : i < b.width - off
  · have h3 : off + i < b.width := by omega
    simp [hi, hib, h3]
  · have h3 : ¬ off + i < b.width := by omega
    have h4 : i - (b.width - off) < w + off - b.width := by omega
    have h5 : off + i - b.width = i - (b.width - off) := by omega
    simp [hi, hib, h3, h4, h5]

/-- Adjacent windows of one value join. -/
theorem concat_extract (a : APInt) (off w w' : ℕ) :
    (a.extract (off + w') w).concat (a.extract off w') = a.extract off (w + w') := by
  refine ext_getLsbD rfl fun i hi => ?_
  simp only [width_concat, width_extract] at hi
  simp only [extract, concat, BitVec.getLsbD_extractLsb', BitVec.getLsbD_append]
  by_cases hib : i < w'
  · simp [hi, hib]
  · have h1 : i - w' < w := by omega
    have h2 : off + w' + (i - w') = off + i := by omega
    simp [hi, hib, h1, h2]

end APInt

end TaseVerifier
