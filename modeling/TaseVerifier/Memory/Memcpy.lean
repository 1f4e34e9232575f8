import TaseVerifier.Memory.TaintScan

/-! The model of `memcpy`. Two buffers that look concrete have their constants written
back and are copied as native memory; all others are copied word by word or byte by byte
through their object states. Each path is compared with a copy of what the bytes
read as. -/

namespace TaseVerifier

namespace Memory

/-! ### The model -/

/-- A `size_t` passed as an `int`. -/
def toInt32 (n : ℕ) : ℤ := (BitVec.ofNat 32 n).toInt

/-- A word is read and written back. -/
def rewriteWord (a : ℕ) (m : Memory) : Memory :=
  taseHelperWrite (align a) (taseHelperRead (align a) 2 m) m

/-- `memcpy` on native memory. -/
def rawCopy (dst src s : ℕ) (m : Memory) : Memory := fun a =>
  if dst ≤ a ∧ a < dst + s then { m a with store := (m (src + (a - dst))).store } else m a

def copyByte (dst src i : ℕ) (m : Memory) : Memory :=
  taseHelperWrite (dst + i) (taseHelperRead (src + i) 1 m) m

/-- The loop of the aligned case, from index `i` on. -/
def copyWords (dst src s i : ℕ) (m : Memory) : Memory :=
  if i < s then
    if i % 2 = 0 ∧ m.word (src + i) ≠ poisonVal ∧ m.word (dst + i) ≠ poisonVal then
      copyWords dst src s (i + 2) (setWord (dst + i) (m.word (src + i)) m)
    else copyWords dst src s (i + 1) (copyByte dst src i m)
  else m
termination_by s - i

/-- The loop of the other case. -/
def copyBytes (dst src s : ℕ) (m : Memory) : Memory :=
  (List.range s).foldl (fun m i => copyByte dst src i m) m

/-- The memory and the two registers that a call sets. -/
structure Returned where
  memory : Memory
  rax : BitVec 64
  rcx : BitVec 64

section Model

variable (rodataBase rodataSize : ℕ)

def InRodata (base : ℕ) : Prop := rodataBase < base ∧ base < rodataBase + rodataSize

instance (base : ℕ) : Decidable (InRodata rodataBase rodataSize base) := by
  unfold InRodata
  infer_instance

def rewriteConstants (base size : ℕ) (m : Memory) : Memory :=
  if taseBufHasTaintSys base (toInt32 size) m = false then m
  else if InRodata rodataBase rodataSize base then m
  else (List.range size).foldl (fun m i => rewriteWord (base + i) m) m

/-- `model_memcpy_tase`, from its arguments on. The registers lie apart from the memory that
is copied. The loops of the slow path count in 32 bits, so from `2 ^ 32` bytes on they
do not end. -/
def modelMemcpyTase (dst src s : ℕ) (m : Memory) : Option Returned :=
  let copied :=
    if m.isBufferEntirelyConcrete dst (toInt32 s) ∧ m.isBufferEntirelyConcrete src (toInt32 s) then
      some (rawCopy dst src s (rewriteConstants rodataBase rodataSize src s
        (rewriteConstants rodataBase rodataSize dst s m)))
    else if 2 ^ 32 ≤ s then none
    else if dst % 2 = 0 ∧ src % 2 = 0 ∧ s % 2 = 0 then some (copyWords dst src s 0 m)
    else some (copyBytes dst src s m)
  copied.map fun m => ⟨m, BitVec.ofNat 64 dst, 0⟩

end Model

/-! ### Copies -/

/-- The first `n` bytes have been copied, as expressions. -/
structure Copy (dst src n : ℕ) (m m' : Memory) : Prop where
  inv : m'.Inv
  copied : ∀ i < n, m'.read8 (dst + i) = m.read8 (src + i)
  frame : ∀ a, (∀ i < n, a ≠ dst + i) → m'.read8 a = m.read8 a

/-- The ranges have no byte in common. -/
def Apart (dst src s : ℕ) : Prop := ∀ i < s, ∀ j < s, dst + i ≠ src + j

section SlowPath

variable {dst src s : ℕ} {m : Memory}

theorem Copy.zero (hm : m.Inv) : Copy dst src 0 m m :=
  ⟨hm, fun i hi => absurd hi (Nat.not_lt_zero i), fun _ _ => rfl⟩

/-- What one more byte reads as, given that it was still untouched. -/
theorem Copy.succ {n : ℕ} {m₁ m₂ : Memory} (h : Copy dst src n m m₁) (hinv : m₂.Inv)
    (hn : ∀ i < n, dst + i ≠ src + n)
    (hreads : ∀ b, m₂.read8 b = if b = dst + n then m₁.read8 (src + n) else m₁.read8 b) :
    Copy dst src (n + 1) m m₂ := by
  have hsrc : m₁.read8 (src + n) = m.read8 (src + n) :=
    h.frame _ fun i hi => (hn i hi).symm
  refine ⟨hinv, fun i hi => ?_, fun a ha => ?_⟩
  · rw [hreads]
    by_cases hin : i = n
    · rw [hin, if_pos rfl, hsrc]
    · rw [if_neg (by omega)]
      exact h.copied i (by omega)
  · rw [hreads, if_neg (ha n (Nat.lt_succ_self n))]
    exact h.frame a fun i hi => ha i (by omega)

theorem Copy.copyByte {n : ℕ} {m₁ : Memory} (h : Copy dst src n m m₁)
    (hn : ∀ i < n, dst + i ≠ src + n) : Copy dst src (n + 1) m (copyByte dst src n m₁) := by
  have hspec := taseHelperWrite_spec (a := dst + n) h.inv (h.inv (src + n)).typed.1
    (h.inv (src + n)).typed.2
  refine h.succ ?_ hn fun b => ?_
  · rw [Memory.copyByte, taseHelperRead_byte]
    exact hspec.1
  · rw [Memory.copyByte, taseHelperRead_byte]
    exact hspec.2 b

/-- An unpoisoned word can be copied as it is: both words are concrete, and stay so. -/
theorem Copy.setWord {n : ℕ} {m₁ : Memory} (h : Copy dst src n m m₁)
    (hn : ∀ i < n + 1, dst + i ≠ src + n ∧ dst + i ≠ src + (n + 1))
    (hdst : (dst + n) % 2 = 0) (hsrc : (src + n) % 2 = 0)
    (hs : m₁.word (src + n) ≠ poisonVal) (hd : m₁.word (dst + n) ≠ poisonVal) :
    Copy dst src (n + 2) m (setWord (dst + n) (m₁.word (src + n)) m₁) := by
  have hconc : ∀ {w a : ℕ}, w % 2 = 0 → m₁.word w ≠ poisonVal → align a = w →
      (m₁ a).concrete = true ∧ (m₁ a).known = none ∧ (m₁ a).flushed = false := by
    intro w a _ hp ha
    exact h.inv.concrete_of_word (by rwa [ha])
  have hlo : (m₁.word (src + n)).extractLsb' 0 8 = (m₁ (src + n)).store :=
    BitVec.extractLsb'_append_eq_right
  have hhi : (m₁.word (src + n)).extractLsb' 8 8 = (m₁ (src + n + 1)).store :=
    BitVec.extractLsb'_append_eq_left
  have happly : ∀ b, Memory.setWord (dst + n) (m₁.word (src + n)) m₁ b =
      if b = dst + n + 1 then { m₁ b with store := (m₁ (src + n + 1)).store }
      else if b = dst + n then { m₁ b with store := (m₁ (src + n)).store } else m₁ b := by
    intro b
    rw [Memory.setWord, hlo, hhi]
    by_cases h₁ : b = dst + n + 1
    · simp [h₁]
    · by_cases h₀ : b = dst + n
      · simp [h₀]
      · simp [h₁, h₀]
  have ha₁ : ∀ {w : ℕ}, w % 2 = 0 → align (w + 1) = w := fun hw =>
    (align_eq_iff hw).mpr (.inr rfl)
  have hinv : (Memory.setWord (dst + n) (m₁.word (src + n)) m₁).Inv := by
    intro b
    by_cases hb : align b = dst + n
    · obtain ⟨hc, hk, hf⟩ := hconc hdst hd hb
      refine okAt_of_concrete ?_ ?_ ?_ <;> rw [happly] <;> split_ifs <;> assumption
    · have hne : ∀ c, align c = align b → c ≠ dst + n + 1 ∧ c ≠ dst + n := by
        intro c hc
        rw [← not_or, or_comm, ← align_eq_iff hdst, hc]
        exact hb
      have h₀ := hne (align b) (align_of_even (align_even b))
      have h₁ := hne (align b + 1) ((align_eq_iff (align_even b)).mpr (.inr rfl))
      refine (h.inv b).congr ?_ ?_
      · rw [happly, if_neg h₀.1, if_neg h₀.2]
      · rw [happly, if_neg h₁.1, if_neg h₁.2]
  have hread : ∀ b, (Memory.setWord (dst + n) (m₁.word (src + n)) m₁).read8 b =
      if b = dst + (n + 1) then m₁.read8 (src + (n + 1))
      else if b = dst + n then m₁.read8 (src + n) else m₁.read8 b := by
    intro b
    have hs₀ := (hconc hsrc hs (align_of_even hsrc)).1
    have hs₁ := (hconc hsrc hs (ha₁ hsrc)).1
    have hd₀ := (hconc hdst hd (align_of_even hdst)).1
    have hd₁ := (hconc hdst hd (ha₁ hdst)).1
    split_ifs with h₁ h₀
    · rw [h₁, ← Nat.add_assoc, ← Nat.add_assoc, read8_of_concrete hs₁]
      simp [read8, happly, hd₁]
    · rw [h₀, read8_of_concrete hs₀]
      simp [read8, happly, hd₀]
    · exact read8_congr (by rw [happly, if_neg (by omega), if_neg h₀])
  have hsrc₀ : m₁.read8 (src + n) = m.read8 (src + n) :=
    h.frame _ fun i hi => ((hn i (by omega)).1).symm
  have hsrc₁ : m₁.read8 (src + (n + 1)) = m.read8 (src + (n + 1)) :=
    h.frame _ fun i hi => ((hn i (by omega)).2).symm
  refine ⟨hinv, fun i hi => ?_, fun a ha => ?_⟩
  · rw [hread]
    split_ifs with h₁ h₀
    · rw [show i = n + 1 by omega, hsrc₁]
    · rw [show i = n by omega, hsrc₀]
    · exact h.copied i (by omega)
  · rw [hread, if_neg (ha _ (by omega)), if_neg (ha _ (by omega))]
    exact h.frame a fun i hi => ha i (by omega)

theorem copyBytes_copies (hm : m.Inv) (hap : Apart dst src s) :
    Copy dst src s m (copyBytes dst src s m) := by
  suffices h : ∀ n ≤ s, Copy dst src n m (copyBytes dst src n m) from h s le_rfl
  intro n
  induction n with
  | zero => exact fun _ => Copy.zero hm
  | succ n ih =>
    intro hn
    have hstep := (ih (by omega)).copyByte fun i hi => hap i (by omega) n (by omega)
    simpa only [copyBytes, List.range_succ, List.foldl_append, List.foldl_cons, List.foldl_nil]
      using hstep

/-- The loop ends with all bytes copied: an even index with a whole word left is
below the even length. -/
theorem copyWords_copies (hdst : dst % 2 = 0) (hsrc : src % 2 = 0) (hs : s % 2 = 0)
    (hap : Apart dst src s) {i : ℕ} {m₁ : Memory} (hi : i ≤ s) (h : Copy dst src i m m₁) :
    Copy dst src s m (copyWords dst src s i m₁) := by
  fun_induction copyWords dst src s i m₁ with
  | case1 i m₁ hlt hword ih =>
    have hap' : ∀ j < i + 1, dst + j ≠ src + i ∧ dst + j ≠ src + (i + 1) := fun j hj =>
      ⟨hap j (by omega) i hlt, hap j (by omega) (i + 1) (by omega)⟩
    exact ih (by omega)
      (h.setWord hap' (by omega) (by omega) hword.2.1 hword.2.2)
  | case2 i m₁ hlt hword ih =>
    exact ih hlt (h.copyByte fun j hj => hap j (by omega) i hlt)
  | case3 i m₁ hlt =>
    obtain rfl : i = s := by omega
    exact h

end SlowPath

/-! ### The fast path -/

/-- The memory reads the same, and what was concrete still is. -/
structure Refreshed (m m' : Memory) : Prop where
  inv : m'.Inv
  reads : ∀ a, m'.read8 a = m.read8 a
  concrete : ∀ a, (m a).concrete = true → (m' a).concrete = true

/-- Every byte of the words that meet the range is constant. -/
def CoverConstant (base s : ℕ) (m : Memory) : Prop :=
  ∀ a, Covers base s a → (m.read8 a).isConstant = true

def CoverConcrete (base s : ℕ) (m : Memory) : Prop :=
  ∀ a, Covers base s a → (m a).concrete = true

section FastPath

variable {dst src s base : ℕ} {m : Memory}

theorem Refreshed.refl (hm : m.Inv) : Refreshed m m := ⟨hm, fun _ => rfl, fun _ h => h⟩

theorem Refreshed.trans {m₁ m₂ : Memory} (h₁ : Refreshed m m₁) (h₂ : Refreshed m₁ m₂) :
    Refreshed m m₂ :=
  ⟨h₂.inv, fun a => (h₂.reads a).trans (h₁.reads a), fun a h => h₂.concrete a (h₁.concrete a h)⟩

theorem Refreshed.coverConstant {m' : Memory} (h : Refreshed m m') (hc : CoverConstant base s m) :
    CoverConstant base s m' := by
  intro a ha
  rw [h.reads]
  exact hc a ha

theorem Refreshed.coverConcrete {m' : Memory} (h : Refreshed m m') (hc : CoverConcrete base s m) :
    CoverConcrete base s m' := fun a ha => h.concrete a (hc a ha)

theorem CoverConcrete.coverConstant (h : CoverConcrete base s m) : CoverConstant base s m := by
  intro a ha
  rw [read8_of_concrete (h a ha)]
  rfl

theorem constant_byte (hm : m.Inv) {a : ℕ} (h : (m.read8 a).isConstant = true) :
    ∃ v : BitVec 8, m.read8 a = .constant ⟨8, v⟩ := by
  have hw := (hm a).typed.2
  cases he : m.read8 a with
  | constant c =>
    obtain ⟨w, v⟩ := c
    rw [he] at hw
    obtain rfl : w = 8 := hw
    exact ⟨v, rfl⟩
  | _ =>
    rw [he] at h
    cases h

/-- A word of two constants is written back as native memory. -/
theorem rewriteWord_spec (hm : m.Inv) {a : ℕ} (h₀ : (m.read8 (align a)).isConstant = true)
    (h₁ : (m.read8 (align a + 1)).isConstant = true) :
    Refreshed m (rewriteWord a m) ∧ ∀ b, align b = align a → (rewriteWord a m b).concrete = true := by
  obtain ⟨v₀, hv₀⟩ := constant_byte hm h₀
  obtain ⟨v₁, hv₁⟩ := constant_byte hm h₁
  have heq : rewriteWord a m = write8 (align a + 1) v₁ (write8 (align a) v₀ m) := by
    rw [rewriteWord, taseHelperRead_word hm (align_even a) hv₀ hv₁,
      taseHelperWrite_word m (align_even a)]
  have hin : ∀ b, align b = align a → (rewriteWord a m b).concrete = true ∧
      (rewriteWord a m b).known = none ∧ (rewriteWord a m b).flushed = false := by
    intro b hb
    rw [heq]
    rcases (align_eq_iff (align_even a)).mp hb with rfl | rfl <;> simp
  have hout : ∀ b, align b ≠ align a → rewriteWord a m b = m b := by
    intro b hb
    have hne : b ≠ align a ∧ b ≠ align a + 1 := by
      rw [← not_or, ← align_eq_iff (align_even a)]
      exact hb
    simp [heq, hne.1, hne.2]
  refine ⟨⟨fun b => ?_, fun b => ?_, fun b hc => ?_⟩, fun b hb => (hin b hb).1⟩
  · by_cases hb : align b = align a
    · obtain ⟨hc, hk, hf⟩ := hin b hb
      exact okAt_of_concrete hc hk hf
    · have hsame : ∀ c, align c = align b → align c ≠ align a := fun c hc => by rwa [hc]
      exact (hm b).congr (hout _ (hsame _ (align_of_even (align_even b))))
        (hout _ (hsame _ ((align_eq_iff (align_even b)).mpr (.inr rfl))))
  · by_cases hb : align b = align a
    · rcases (align_eq_iff (align_even a)).mp hb with rfl | rfl
      · rw [hv₀, heq]
        simp [read8]
      · rw [hv₁, heq]
        simp [read8]
    · exact read8_congr (hout b hb)
  · by_cases hb : align b = align a
    · exact (hin b hb).1
    · rwa [hout b hb]

/-- The loop of `rewriteConstants`. -/
theorem rewriteWords_spec (hm : m.Inv) (hc : CoverConstant base s m) :
    Refreshed m ((List.range s).foldl (fun m i => rewriteWord (base + i) m) m) ∧
      CoverConcrete base s ((List.range s).foldl (fun m i => rewriteWord (base + i) m) m) := by
  induction s with
  | zero =>
    refine ⟨Refreshed.refl hm, fun a ha => ?_⟩
    obtain ⟨i, hi, -⟩ := ha
    exact absurd hi (Nat.not_lt_zero i)
  | succ n ih =>
    obtain ⟨hr, hcc⟩ := ih fun a ⟨i, hi, ha⟩ => hc a ⟨i, by omega, ha⟩
    have hconst := hr.coverConstant hc
    have hlast : ∀ a, align a = align (base + n) → Covers base (n + 1) a := fun a ha =>
      ⟨n, Nat.lt_succ_self n, ha⟩
    have hstep := rewriteWord_spec hr.inv (a := base + n)
      (hconst _ (hlast _ (align_of_even (align_even _))))
      (hconst _ (hlast _ ((align_eq_iff (align_even _)).mpr (.inr rfl))))
    simp only [List.range_succ, List.foldl_append, List.foldl_cons, List.foldl_nil]
    refine ⟨hr.trans hstep.1, fun a ⟨i, hi, ha⟩ => ?_⟩
    by_cases hin : i = n
    · exact hstep.2 a (by rw [ha, hin])
    · exact hstep.1.concrete a (hcc a ⟨i, by omega, ha⟩)

theorem toInt32_of_lt (hs : s < 2 ^ 31) : toInt32 s = s := by
  rw [toInt32, BitVec.toInt_eq_toNat_of_lt] <;> rw [BitVec.toNat_ofNat] <;> omega

/-- Without taint every word that meets the range is unpoisoned. -/
theorem word_of_taseBufHasTaintSys (hs : s < 2 ^ 31)
    (h : taseBufHasTaintSys base (toInt32 s) m = false) {a : ℕ} (ha : Covers base s a) :
    m.word (align a) ≠ poisonVal := by
  obtain ⟨i, hi, hai⟩ := ha
  rw [taseBufHasTaintSys_eq, toInt32_of_lt hs] at h
  rw [hai]
  exact word_of_taseBufHasTaint h hi

/-- `rewriteConstants` restores a constant buffer outside read-only data. -/
theorem rewriteConstants_spec {rodataBase rodataSize : ℕ} (hm : m.Inv) (hc : CoverConstant base s m)
    (hin : s < 2 ^ 31 ∧ ¬ InRodata rodataBase rodataSize base ∨ CoverConcrete base s m) :
    Refreshed m (rewriteConstants rodataBase rodataSize base s m) ∧
      CoverConcrete base s (rewriteConstants rodataBase rodataSize base s m) := by
  unfold rewriteConstants
  split_ifs with htaint hro
  · refine ⟨Refreshed.refl hm, ?_⟩
    rcases hin with ⟨hs, -⟩ | hcc
    · exact fun a ha => (hm.concrete_of_word (word_of_taseBufHasTaintSys hs htaint ha)).1
    · exact hcc
  · refine ⟨Refreshed.refl hm, ?_⟩
    rcases hin with ⟨-, hnot⟩ | hcc
    · exact absurd hro hnot
    · exact hcc
  · exact rewriteWords_spec hm hc

/-- Native memory is copied rightly between concrete words. -/
theorem rawCopy_copies (hm : m.Inv) (hdst : CoverConcrete dst s m) (hsrc : CoverConcrete src s m) :
    Copy dst src s m (rawCopy dst src s m) := by
  have hin : ∀ i < s, rawCopy dst src s m (dst + i) =
      { m (dst + i) with store := (m (src + i)).store } := by
    intro i hi
    rw [rawCopy, if_pos (by omega), Nat.add_sub_cancel_left]
  have hout : ∀ a, (∀ i < s, a ≠ dst + i) → rawCopy dst src s m a = m a := by
    intro a ha
    rw [rawCopy, if_neg]
    rintro ⟨hle, hlt⟩
    exact ha (a - dst) (by omega) (by omega)
  have hcover : ∀ {base i}, i < s → Covers base s (base + i) := fun hi => ⟨_, hi, rfl⟩
  refine ⟨fun a => ?_, fun i hi => ?_, fun a ha => read8_congr (hout a ha)⟩
  · by_cases hc : Covers dst s a
    · have hca := hdst a hc
      have hka := (hm a).known_eq_none hca
      have hfa := (hm a).concrete_not_flushed hca
      refine okAt_of_concrete ?_ ?_ ?_ <;> rw [rawCopy] <;> split_ifs <;> assumption
    · have hne : ∀ b, align b = align a → ∀ i < s, b ≠ dst + i := by
        rintro b hb i hi rfl
        exact hc ⟨i, hi, hb.symm⟩
      exact (hm a).congr (hout _ (hne _ (align_of_even (align_even a))))
        (hout _ (hne _ ((align_eq_iff (align_even a)).mpr (.inr rfl))))
  · rw [read8_of_concrete (hsrc _ (hcover hi))]
    have hc : (rawCopy dst src s m (dst + i)).concrete = true := by
      rw [hin i hi]
      exact hdst _ (hcover hi)
    rw [read8_of_concrete hc, hin i hi]

end FastPath

/-! ### The model is a copy -/

/-- The bytes read with the values that were copied, every other byte as before. -/
structure Copied (dst src s : ℕ) (m m' : Memory) : Prop where
  inv : m'.Inv
  copied : ∀ i < s, ∀ σ, (m'.read8 (dst + i)).eval σ = (m.read8 (src + i)).eval σ
  frame : ∀ a, (∀ i < s, a ≠ dst + i) → ∀ σ, (m'.read8 a).eval σ = (m.read8 a).eval σ

section Copied

variable (rodataBase rodataSize : ℕ) {dst src s : ℕ} {m : Memory}

/-- Every word that meets the range can be copied as native memory, once its constants
are written back. -/
def Restorable (base s : ℕ) (m : Memory) : Prop :=
  CoverConstant base s m ∧ (InRodata rodataBase rodataSize base → CoverConcrete base s m)

/-- Two buffers that read as constants are constant in every word that they meet; from
`2 ^ 31` bytes on, where the checks see another length, both buffers are concrete. -/
def Passes (dst src s : ℕ) (m : Memory) : Prop :=
  s < 2 ^ 31 ∧ (ReadsConstant dst s m → ReadsConstant src s m →
      Restorable rodataBase rodataSize dst s m ∧ Restorable rodataBase rodataSize src s m) ∨
    CoverConcrete dst s m ∧ CoverConcrete src s m

theorem Copy.toCopied {m' : Memory} (h : Copy dst src s m m') : Copied dst src s m m' :=
  ⟨h.inv, fun i hi _ => by rw [h.copied i hi], fun a ha _ => by rw [h.frame a ha]⟩

/-- A copy of a refreshed memory is a copy. -/
theorem Copy.of_refreshed {m₁ m' : Memory} (hr : Refreshed m m₁) (h : Copy dst src s m₁ m') :
    Copy dst src s m m' :=
  ⟨h.inv, fun i hi => (h.copied i hi).trans (hr.reads _), fun a ha => (h.frame a ha).trans (hr.reads _)⟩

theorem toInt32_toNat_le (s : ℕ) : (toInt32 s).toNat ≤ s := by
  rw [toInt32, BitVec.toInt_eq_toNat_cond]
  have hle : (BitVec.ofNat 32 s).toNat ≤ s := by
    rw [BitVec.toNat_ofNat]
    exact Nat.mod_le _ _
  split_ifs <;> omega

/-- A concrete buffer passes for concrete, whatever length is seen. -/
theorem isBufferEntirelyConcrete_of_cover {base : ℕ} (h : CoverConcrete base s m) :
    m.isBufferEntirelyConcrete base (toInt32 s) = true := by
  simp only [isBufferEntirelyConcrete, Bool.or_eq_true, List.all_eq_true, List.mem_range,
    taseHelperRead_byte]
  right
  intro i hi
  rw [read8_of_concrete (h _ ⟨i, lt_of_lt_of_le hi (toInt32_toNat_le s), rfl⟩)]
  rfl

/-- The fast path, between buffers that can be restored. -/
theorem fastPath_copies (hm : m.Inv)
    (hok : s < 2 ^ 31 ∧ Restorable rodataBase rodataSize dst s m ∧
        Restorable rodataBase rodataSize src s m ∨ CoverConcrete dst s m ∧ CoverConcrete src s m) :
    Copy dst src s m (rawCopy dst src s (rewriteConstants rodataBase rodataSize src s
      (rewriteConstants rodataBase rodataSize dst s m))) := by
  have hrestore : ∀ base : ℕ, s < 2 ^ 31 ∧ Restorable rodataBase rodataSize base s m ∨
      CoverConcrete base s m → CoverConstant base s m ∧
        (s < 2 ^ 31 ∧ ¬ InRodata rodataBase rodataSize base ∨ CoverConcrete base s m) := by
    rintro base (⟨hs, hc, hro⟩ | hcc)
    · by_cases hin : InRodata rodataBase rodataSize base
      · exact ⟨hc, .inr (hro hin)⟩
      · exact ⟨hc, .inl ⟨hs, hin⟩⟩
    · exact ⟨hcc.coverConstant, .inr hcc⟩
  obtain ⟨hdc, hdin⟩ := hrestore dst (hok.imp (fun h => ⟨h.1, h.2.1⟩) And.left)
  obtain ⟨hsc, hsin⟩ := hrestore src (hok.imp (fun h => ⟨h.1, h.2.2⟩) And.right)
  obtain ⟨hr₁, hd₁⟩ := rewriteConstants_spec hm hdc hdin
  obtain ⟨hr₂, hs₂⟩ := rewriteConstants_spec hr₁.inv (hr₁.coverConstant hsc) (hsin.imp_right hr₁.coverConcrete)
  exact Copy.of_refreshed (hr₁.trans hr₂) (rawCopy_copies hr₂.inv (hr₂.coverConcrete hd₁) hs₂)

/-- The model returns, and is a copy, where no buffer passes for concrete wrongly. -/
theorem modelMemcpyTase_copies (dst src s : ℕ) (m : Memory) (hm : m.Inv) (hap : Apart dst src s)
    (hok : Passes rodataBase rodataSize dst src s m) :
    ∃ r, modelMemcpyTase rodataBase rodataSize dst src s m = some r ∧
      Copied dst src s m r.memory ∧ r.rax = BitVec.ofNat 64 dst := by
  unfold modelMemcpyTase
  by_cases hfast : m.isBufferEntirelyConcrete dst (toInt32 s) = true ∧
      m.isBufferEntirelyConcrete src (toInt32 s) = true
  · rw [if_pos hfast]
    refine ⟨_, rfl, (fastPath_copies rodataBase rodataSize hm ?_).toCopied, rfl⟩
    obtain ⟨hs, hpass⟩ | hcc := hok
    · rw [toInt32_of_lt hs, isBufferEntirelyConcrete_iff hm, isBufferEntirelyConcrete_iff hm] at hfast
      exact .inl ⟨hs, hpass hfast.1 hfast.2⟩
    · exact .inr hcc
  · have hs : s < 2 ^ 31 := by
      rcases hok with h | ⟨hd, hsrc⟩
      · exact h.1
      · exact absurd ⟨isBufferEntirelyConcrete_of_cover hd, isBufferEntirelyConcrete_of_cover hsrc⟩
          hfast
    rw [if_neg hfast, if_neg (by omega)]
    split_ifs with heven
    · exact ⟨_, rfl, (copyWords_copies heven.1 heven.2.1 heven.2.2 hap (Nat.zero_le s)
        (Copy.zero hm)).toCopied, rfl⟩
    · exact ⟨_, rfl, (copyBytes_copies hm hap).toCopied, rfl⟩

end Copied

/-- A word of a symbolic byte and a constant is copied. -/
theorem modelMemcpyTase_copies_word :
    let m := oneWord 0 (.read (.root ⟨"a", 1, 0, []⟩) (.alloc 0 32)) (.alloc 7 8)
    m.Inv ∧ Apart 8 0 2 ∧ Passes 0 0 8 0 2 m ∧
      ∃ r, modelMemcpyTase 0 0 8 0 2 m = some r ∧ Copied 8 0 2 m r.memory ∧
        r.rax = BitVec.ofNat 64 8 := by
  intro m
  have hm : m.Inv := inv_oneWord rfl (by decide) (by decide)
  have hap : Apart 8 0 2 := by
    unfold Apart
    omega
  have hsymbolic : ¬ ReadsConstant 0 2 m := fun h => absurd (h 0 (by decide)) (by decide)
  have hpass : Passes 0 0 8 0 2 m := .inl ⟨by decide, fun _ h => absurd h hsymbolic⟩
  exact ⟨hm, hap, hpass, modelMemcpyTase_copies 0 0 8 0 2 m hm hap hpass⟩

/-- A constant that shares its word with a symbolic byte: writing the word back leaves the
first byte of the poison value in its place, and that is copied. -/
theorem modelMemcpyTase_copies_poison :
    let m := oneWord 0 (.alloc 5 8) (.read (.root ⟨"a", 1, 0, []⟩) (.alloc 0 32))
    m.Inv ∧ Apart 8 0 1 ∧
      ∃ r, modelMemcpyTase 0 0 8 0 1 m = some r ∧ r.memory.read8 8 = .alloc 0xAD 8 ∧
        ¬ Copied 8 0 1 m r.memory := by
  intro m
  have hm : m.Inv := inv_oneWord rfl (by decide) (by decide)
  have hap : Apart 8 0 1 := by
    unfold Apart
    omega
  have hread : (modelMemcpyTase 0 0 8 0 1 m).map (fun r => r.memory.read8 8) =
      some (.alloc 0xAD 8) := by decide
  obtain ⟨r, hr, hval⟩ := Option.map_eq_some_iff.mp hread
  refine ⟨hm, hap, r, hr, hval, fun hc => ?_⟩
  have heval := hc.copied 0 (by decide) fun _ _ => 0
  rw [hval] at heval
  revert heval
  decide

end Memory

end TaseVerifier
