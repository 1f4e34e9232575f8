import Mathlib.Data.List.Basic
import Mathlib.Tactic.Linarith

/-! The buffer in shared memory through which a worker and the manager pass vectors of
words during a fork request. -/

namespace TaseVerifier

/-- The number of a basic block of the client. -/
abbrev MLBBID := BitVec 64

def DINFO_MAGIC_START : BitVec 64 := 0x0000DEADBEEF0000#64

def DINFO_MAGIC_END : BitVec 64 := 0x0000BEEFDEAD0000#64

/-- The words of the buffer. -/
def destWords : ℕ := 600

def dest_size : ℕ := 8 * destWords

structure Dinfo where
  words : List (BitVec 64)
  length_eq : words.length = destWords

namespace Dinfo

/-- An `int`: two magic words, the number of items and the items. -/
def neededSize (numItems : ℕ) : BitVec 32 := BitVec.ofNat 32 (8 + 8 + numItems * 8 + 8)

theorem send_length {d : Dinfo} {v : List (BitVec 64)} (h : v.length + 3 ≤ destWords) :
    (DINFO_MAGIC_START :: BitVec.ofNat 64 v.length ::
      (v ++ DINFO_MAGIC_END :: d.words.drop (v.length + 3))).length = destWords := by
  have hd := d.length_eq
  simp only [List.length_cons, List.length_append, List.length_drop]
  omega

/-- The send exits when the size that it computed is too large. Items that do not fit
although it is not overwrite the memory behind the buffer. -/
def send_vec_dinfo (d : Dinfo) (v : List (BitVec 64)) : Option Dinfo :=
  if dest_size ≤ ((neededSize v.length).signExtend 64).toNat then none
  else if h : v.length + 3 ≤ destWords then
    some ⟨DINFO_MAGIC_START :: BitVec.ofNat 64 v.length ::
      (v ++ DINFO_MAGIC_END :: d.words.drop (v.length + 3)), send_length h⟩
  else none

/-- Reads what lies between the magic words, and exits where one is missing. -/
def receive_vec_dinfo (d : Dinfo) : Option (List (BitVec 64)) :=
  match d.words with
  | start :: numItems :: items =>
    if start ≠ DINFO_MAGIC_START then none
    else if items[numItems.toNat]? = some DINFO_MAGIC_END then some (items.take numItems.toNat)
    else none
  | _ => none

variable {d d' : Dinfo} {v : List (BitVec 64)}

theorem neededSize_toNat (h : v.length + 3 ≤ destWords) :
    ((neededSize v.length).signExtend 64).toNat = 24 + 8 * v.length := by
  have hw : destWords = 600 := rfl
  have hnat : (neededSize v.length).toNat = 24 + 8 * v.length := by
    rw [neededSize, BitVec.toNat_ofNat, Nat.mod_eq_of_lt (by omega)]
    omega
  have hmsb : (neededSize v.length).msb = false := by
    rw [BitVec.msb_eq_false_iff_two_mul_lt, hnat]
    omega
  rw [BitVec.signExtend_eq_setWidth_of_msb_false hmsb, BitVec.toNat_setWidth, hnat,
    Nat.mod_eq_of_lt (by omega)]

/-- Exactly the vectors of fewer than 597 words are sent. -/
theorem send_isSome_iff : (d.send_vec_dinfo v).isSome ↔ v.length + 3 < destWords := by
  have hw : destWords = 600 := rfl
  have hs : dest_size = 4800 := rfl
  unfold send_vec_dinfo
  by_cases hfit : v.length + 3 ≤ destWords
  · rw [neededSize_toNat hfit, dif_pos hfit]
    split <;> simp <;> omega
  · rw [dif_neg hfit]
    split <;> simp <;> omega

theorem send_eq (h : d.send_vec_dinfo v = some d') :
    v.length + 3 < destWords ∧ d'.words = DINFO_MAGIC_START :: BitVec.ofNat 64 v.length ::
      (v ++ DINFO_MAGIC_END :: d.words.drop (v.length + 3)) := by
  refine ⟨send_isSome_iff.mp (by rw [h]; rfl), ?_⟩
  unfold send_vec_dinfo at h
  split at h
  · cases h
  · split at h
    · rw [← Option.some.inj h]
    · cases h

/-- What was sent is received, whatever the buffer held before. -/
theorem receive_send (h : d.send_vec_dinfo v = some d') : d'.receive_vec_dinfo = some v := by
  obtain ⟨hlt, heq⟩ := send_eq h
  have hw : destWords = 600 := rfl
  have hnat : (BitVec.ofNat 64 v.length).toNat = v.length := by
    rw [BitVec.toNat_ofNat, Nat.mod_eq_of_lt (by omega)]
  rw [receive_vec_dinfo, heq]
  simp [hnat]

end Dinfo

/-- `(uint64_t) pid`. -/
def ofPid (pid : ℤ) : BitVec 64 := BitVec.ofInt 64 pid

/-- A word as a `pid_t`. -/
def toPid (w : BitVec 64) : ℤ := (w.setWidth 32).toInt

/-- The pids that processes have. -/
def IsPid (pid : ℤ) : Prop := 0 < pid ∧ pid < 2 ^ 31

theorem toPid_ofPid {pid : ℤ} (h : IsPid pid) : toPid (ofPid pid) = pid := by
  obtain ⟨hpos, hlt⟩ := h
  have hnat : (BitVec.ofInt 64 pid).toNat = pid.toNat := by
    rw [BitVec.toNat_ofInt]
    omega
  rw [toPid, ofPid, BitVec.toInt_eq_toNat_of_lt]
  · rw [BitVec.toNat_setWidth, hnat]
    omega
  · rw [BitVec.toNat_setWidth, hnat]
    omega

end TaseVerifier
