import TaseVerifier.Memory.ObjectState

/-! What the scan for the poison value finds. `tase_buf_has_taint` visits the words from the
aligned start on, and so every word that has a byte in the buffer. The answer of
`isBufferEntirelyConcrete` rests on it: it is right both ways. -/

namespace TaseVerifier

namespace Memory

def isBufferEntirelyConcrete (addr : ℕ) (size : ℤ) (m : Memory) : Bool :=
  !taseBufHasTaint addr size m ||
    (List.range size.toNat).all fun i => (taseHelperRead (addr + i) 1 m).isConstant

@[simp] theorem taseHelperRead_byte (a : ℕ) (m : Memory) : taseHelperRead a 1 m = m.read8 a := by
  simp [taseHelperRead, read]

variable {m : Memory} {a size : ℕ}

/-- The words that have a byte in the range. -/
def Overlaps (a size w : ℕ) : Prop := w % 2 = 0 ∧ a < w + 2 ∧ w < a + size

theorem overlaps_iff {w : ℕ} :
    Overlaps a size w ↔ ∃ i, w = align a + 2 * i ∧ align a + 2 * i < a + size := by
  unfold Overlaps align
  refine ⟨fun h => ⟨(w - (a - a % 2)) / 2, by omega, by omega⟩, ?_⟩
  rintro ⟨i, rfl, hi⟩
  omega

theorem overlaps_align {i : ℕ} (hi : i < size) : Overlaps a size (align (a + i)) := by
  unfold Overlaps align
  omega

/-- The word of the byte meets the range. -/
def Covers (base s a : ℕ) : Prop := ∃ i < s, align a = align (base + i)

theorem taseBufHasTaint_iff : taseBufHasTaint a size m = true ↔
    ∃ w, Overlaps a size w ∧ m.word w = poisonVal := by
  simp only [taseBufHasTaint, List.any_eq_true, List.mem_range, beq_iff_eq, overlaps_iff]
  have hle : align a ≤ a := Nat.sub_le _ _
  constructor
  · rintro ⟨i, hi, hw⟩
    exact ⟨_, ⟨i, rfl, by omega⟩, hw⟩
  · rintro ⟨_, ⟨i, rfl, hi⟩, hw⟩
    exact ⟨i, by omega, hw⟩

/-- The scan of `TASESysModels.cpp` counts the same words. -/
theorem taseBufHasTaintSys_eq (ptr : ℕ) (size : ℤ) (m : Memory) :
    taseBufHasTaintSys ptr size m = taseBufHasTaint ptr size m := by
  have hcount : (ptr : ℤ) + size + 1 - align ptr = (ptr : ℤ) + size - align ptr + 1 := by omega
  rw [taseBufHasTaintSys, taseBufHasTaint, hcount]

/-- The scan depends on the words it visits. -/
theorem taseBufHasTaint_congr {m' : Memory} (h : ∀ b, Covers a size b → m' b = m b) (hs : 0 < size) :
    taseBufHasTaint a size m' = taseBufHasTaint a size m := by
  rw [Bool.eq_iff_iff, taseBufHasTaint_iff, taseBufHasTaint_iff]
  refine exists_congr fun w => and_congr_right fun hw => ?_
  obtain ⟨heven, hlo, hhi⟩ := hw
  have hcover : ∀ b, align b = w → Covers a size b := by
    rintro b rfl
    refine ⟨max a (align b) - a, by omega, ?_⟩
    unfold align at *
    omega
  have h₀ := h w (hcover w (align_of_even heven))
  have h₁ := h (w + 1) (hcover (w + 1) ((align_eq_iff heven).mpr (.inr rfl)))
  rw [word, word, h₀, h₁]

/-- Without taint every byte of the buffer lies in an unpoisoned word. -/
theorem word_of_taseBufHasTaint (h : taseBufHasTaint a size m = false) {i : ℕ} (hi : i < size) :
    m.word (align (a + i)) ≠ poisonVal := by
  intro hp
  rw [taseBufHasTaint_iff.mpr ⟨_, overlaps_align hi, hp⟩] at h
  cases h

theorem concrete_of_taseBufHasTaint (hm : m.Inv) (h : taseBufHasTaint a size m = false) {i : ℕ}
    (hi : i < size) : (m (a + i)).concrete = true :=
  (hm.concrete_of_word (word_of_taseBufHasTaint h hi)).1

/-- Every byte reads as a constant. -/
def ReadsConstant (a size : ℕ) (m : Memory) : Prop :=
  ∀ i < size, (m.read8 (a + i)).isConstant = true

theorem isBufferEntirelyConcrete_iff (hm : m.Inv) :
    m.isBufferEntirelyConcrete a size = true ↔ ReadsConstant a size m := by
  simp only [isBufferEntirelyConcrete, Bool.or_eq_true, Bool.not_eq_true', List.all_eq_true,
    List.mem_range, Int.toNat_natCast, taseHelperRead_byte]
  constructor
  · rintro (htaint | hall) i hi
    · rw [read8_of_concrete (concrete_of_taseBufHasTaint hm htaint hi)]
      rfl
    · exact hall i hi
  · exact fun h => .inr h

/-- The scan finds a poisoned word exactly when there is one, and so a buffer that passes for
concrete reads as constants. -/
theorem scan_and_buffer_exact (a size : ℕ) (m : Memory) :
    (taseBufHasTaint a size m = true ↔ ∃ w, Overlaps a size w ∧ m.word w = poisonVal) ∧
      (m.Inv → m.isBufferEntirelyConcrete a size = true → ReadsConstant a size m) :=
  ⟨taseBufHasTaint_iff, fun hm => (isBufferEntirelyConcrete_iff hm).mp⟩

end Memory

end TaseVerifier
