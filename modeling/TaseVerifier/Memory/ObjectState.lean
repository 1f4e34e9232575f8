import Mathlib.Logic.Function.Basic
import TaseVerifier.Expr.CreateSound

/-! Mapped memory, byte by byte. Native code sees the concrete store; the interpreter
sees an expression for each byte that is not concrete. A byte with an expression
lies in a word that holds the poison value, so that native code notices it. Objects
are mapped at even addresses with even sizes: a word lies within one object, and an
offset into it is a distance between addresses. -/

namespace TaseVerifier

/-- A byte as its object state describes it. `updates` is the read of the object's update
list at the byte, which is its value while it is flushed. -/
structure MemByte where
  store : BitVec 8
  concrete : Bool
  flushed : Bool
  known : Option Expr
  updates : Expr
  deriving DecidableEq

abbrev Memory := ℕ → MemByte

def poisonVal : BitVec 16 := 0xDEAD#16

namespace Memory

/-! ### Words of native memory -/

/-- The two bytes from `a` on, the first one lowest. -/
def word (a : ℕ) (m : Memory) : BitVec 16 := (m (a + 1)).store ++ (m a).store

def setStore (a : ℕ) (v : BitVec 8) (m : Memory) : Memory :=
  Function.update m a { m a with store := v }

def setWord (a : ℕ) (v : BitVec 16) (m : Memory) : Memory :=
  setStore (a + 1) (v.extractLsb' 8 8) (setStore a (v.extractLsb' 0 8) m)

/-- The address of the word that `a` lies in. -/
def align (a : ℕ) : ℕ := a - a % 2

def isBytePoison (a : ℕ) (m : Memory) : Bool := m.word (align a) == poisonVal

/-- `tase_buf_has_taint` of `Executor.cpp`, at poison size two. The loop runs while the end of
the buffer lies behind the word pointer, so every word that begins inside is visited. -/
def taseBufHasTaint (ptr : ℕ) (size : ℤ) (m : Memory) : Bool :=
  (List.range (((ptr : ℤ) + size - align ptr + 1) / 2).toNat).any
    fun i => m.word (align ptr + 2 * i) == poisonVal

/-- `tase_buf_has_taint` of `TASESysModels.cpp`. -/
def taseBufHasTaintSys (ptr : ℕ) (size : ℤ) (m : Memory) : Bool :=
  (List.range (((ptr : ℤ) + size + 1 - align ptr) / 2).toNat).any
    fun i => m.word (align ptr + 2 * i) == poisonVal

/-! ### Bytes of an object state -/

def read8 (a : ℕ) (m : Memory) : Expr :=
  if (m a).concrete then .constant ⟨8, (m a).store⟩
  else match (m a).known with
    | some e => e
    | none => (m a).updates

/-- `write8` of a value. -/
def write8 (a : ℕ) (v : BitVec 8) (m : Memory) : Memory :=
  Function.update m a { m a with store := v, known := none, concrete := true, flushed := false }

def write8AsExpr (a : ℕ) (e : Expr) (m : Memory) : Memory :=
  Function.update m a { m a with known := some e, concrete := false, flushed := false }

/-- `write8` of an expression, at a constant offset. -/
def write8Expr (a : ℕ) (e : Expr) (m : Memory) : Memory :=
  match e with
  | .constant c => write8 a (c.val.setWidth 8) m
  | e => write8AsExpr a e m

/-- The bytes of the store from `a` on, as one value. -/
def storeValue (a numBytes : ℕ) (m : Memory) : APInt :=
  (List.range (numBytes - 1)).foldl (fun v i => APInt.concat ⟨8, (m (a + (i + 1))).store⟩ v)
    ⟨8, (m a).store⟩

/-- `ObjectState::read` at a constant offset, of one, two, four or eight bytes. -/
def read (a numBytes : ℕ) (m : Memory) : Expr :=
  if (numBytes = 2 ∨ numBytes = 4 ∨ numBytes = 8) ∧ taseBufHasTaint a numBytes m = false then
    .constant (storeValue a numBytes m)
  else
    (List.range (numBytes - 1)).foldl (fun res i => ConcatExpr.create (m.read8 (a + (i + 1))) res)
      (m.read8 a)

/-- `ObjectState::write` at a constant offset. A boolean is written as one byte. -/
def write (a : ℕ) (value : Expr) (m : Memory) : Memory :=
  match value with
  | .constant c =>
    if c.width = Width.Bool then write8 a (c.val.setWidth 8) m
    else (List.range (c.width / 8)).foldl
      (fun m i => write8 (a + i) (c.val.extractLsb' (8 * i) 8) m) m
  | value =>
    if value.getWidth = Width.Bool then write8Expr a (ZExtExpr.create value Width.Int8) m
    else (List.range (value.getWidth / 8)).foldl
      (fun m i => write8Expr (a + i) (ExtractExpr.create value (8 * i) Width.Int8) m) m

/-- Both bytes of a word are kept as expressions, and the word is poisoned. -/
def poisonPair (a : ℕ) (m : Memory) : Memory :=
  setWord a poisonVal
    (write8AsExpr (a + 1) (m.read8 (a + 1)) (write8AsExpr a (m.read8 a) m))

def isNice (a : ℕ) (m : Memory) : Bool := (m a).concrete && !(m a).flushed

/-- `applyPsnOnWrite` at a constant offset, after the value was written. -/
def applyPsnOnWrite (a : ℕ) (value : Expr) (m : Memory) : Memory :=
  let width := value.getWidth
  let numBytes := if width = Width.Bool then 1 else width / 8
  let last := a + numBytes - 1
  let aligned := a % 2 = 0 ∧ last % 2 = 1
  let m :=
    if value.isConstant ∨ width = Width.Int8 ∨ width = Width.Bool then m
    else if width = Width.Int16 then
      -- the bytes are not kept as expressions here
      if aligned then setWord a poisonVal m else m
    else if width = Width.Int32 then
      if aligned then poisonPair (a + 2) (poisonPair a m) else poisonPair (a + 1) m
    else if width = Width.Int64 then
      if aligned then (List.range 4).foldl (fun m i => poisonPair (a + 2 * i) m) m
      else (List.range 3).foldl (fun m i => poisonPair (a + 2 * i + 1) m) m
    else m
  let m := if a % 2 = 1 ∧ ¬ (m.isNice a ∧ m.isNice (a - 1)) then poisonPair (a - 1) m else m
  if last % 2 = 0 ∧ ¬ (m.isNice last ∧ m.isNice (last + 1)) then poisonPair last m else m

/-- `tase_helper_read`; `applyPsnOnRead` changes nothing at a constant offset. -/
def taseHelperRead (addr byteWidth : ℕ) (m : Memory) : Expr := m.read addr byteWidth

def taseHelperWrite (addr : ℕ) (val : Expr) (m : Memory) : Memory :=
  applyPsnOnWrite addr val (m.write addr val)

/-! ### The invariants -/

/-- The cache invariants, the two extra invariants and the type, at one byte. -/
structure OkAt (m : Memory) (a : ℕ) : Prop where
  known_not_concrete : (m a).known.isSome = true → (m a).concrete = false
  cached : (m a).flushed = false → (m a).concrete = true ∨ (m a).known.isSome = true
  unpoisoned : m.isBytePoison a = false →
    (m a).concrete = true ∧ (m a).known = none ∧ (m a).flushed = false
  concrete_not_flushed : (m a).concrete = true → (m a).flushed = false
  typed : (m.read8 a).wellTyped = true ∧ (m.read8 a).getWidth = 8

def Inv (m : Memory) : Prop := ∀ a, m.OkAt a

theorem align_even (a : ℕ) : align a % 2 = 0 := by
  unfold align
  omega

theorem align_of_even {a : ℕ} (h : a % 2 = 0) : align a = a := by
  unfold align
  omega

theorem align_cases (a : ℕ) : a = align a ∨ a = align a + 1 := by
  unfold align
  omega

theorem align_eq_iff {a w : ℕ} (hw : w % 2 = 0) : align a = w ↔ a = w ∨ a = w + 1 := by
  unfold align
  omega

@[simp] theorem setStore_apply (a b : ℕ) (v : BitVec 8) (m : Memory) :
    setStore a v m b = if b = a then { m a with store := v } else m b := by
  simp [setStore, Function.update_apply]

@[simp] theorem write8_apply (a b : ℕ) (v : BitVec 8) (m : Memory) :
    write8 a v m b = if b = a then
      { m a with store := v, known := none, concrete := true, flushed := false } else m b := by
  simp [write8, Function.update_apply]

@[simp] theorem write8AsExpr_apply (a b : ℕ) (e : Expr) (m : Memory) :
    write8AsExpr a e m b = if b = a then
      { m a with known := some e, concrete := false, flushed := false } else m b := by
  simp [write8AsExpr, Function.update_apply]

/-- A word lies in two bytes only. -/
theorem word_congr {m m' : Memory} {w : ℕ} (h₀ : (m' w).store = (m w).store)
    (h₁ : (m' (w + 1)).store = (m (w + 1)).store) : m'.word w = m.word w := by
  simp only [word, h₀, h₁]

theorem read8_congr {m m' : Memory} {a : ℕ} (h : m' a = m a) : m'.read8 a = m.read8 a := by
  simp only [read8, h]

/-- The invariants at a byte depend on its word only. -/
theorem OkAt.congr {m m' : Memory} {a : ℕ} (h : m.OkAt a) (h₀ : m' (align a) = m (align a))
    (h₁ : m' (align a + 1) = m (align a + 1)) : m'.OkAt a := by
  have ha : m' a = m a := by
    rcases align_cases a with h | h <;> rw [h] <;> assumption
  have hp : m'.isBytePoison a = m.isBytePoison a := by
    simp only [isBytePoison, word_congr (congrArg MemByte.store h₀) (congrArg MemByte.store h₁)]
  exact ⟨by rw [ha]; exact h.known_not_concrete, by rw [ha]; exact h.cached,
    by rw [ha, hp]; exact h.unpoisoned, by rw [ha]; exact h.concrete_not_flushed,
    by rw [read8_congr ha]; exact h.typed⟩

/-- A concrete byte in a word that need not be poisoned. -/
theorem okAt_of_concrete {m : Memory} {a : ℕ} (hc : (m a).concrete = true)
    (hk : (m a).known = none) (hf : (m a).flushed = false) : m.OkAt a := by
  refine ⟨?_, fun _ => .inl hc, fun _ => ⟨hc, hk, hf⟩, fun _ => hf, ?_⟩
  · simp [hk]
  · simp [read8, hc]

/-- A byte kept as an expression in a poisoned word. -/
theorem okAt_of_known {m : Memory} {a : ℕ} {e : Expr} (hc : (m a).concrete = false)
    (hk : (m a).known = some e) (hp : m.isBytePoison a = true)
    (ht : e.wellTyped = true ∧ e.getWidth = 8) : m.OkAt a := by
  refine ⟨fun _ => hc, fun _ => .inr (by simp [hk]), ?_, ?_, ?_⟩
  · simp [hp]
  · simp [hc]
  · simpa [read8, hc, hk] using ht

theorem OkAt.known_eq_none {m : Memory} {a : ℕ} (h : m.OkAt a) (hc : (m a).concrete = true) :
    (m a).known = none := by
  cases hk : (m a).known with
  | none => rfl
  | some e =>
    have := h.known_not_concrete (by simp [hk])
    rw [hc] at this
    cases this

/-! ### Poisoning a word -/

section PoisonPair

variable {m : Memory} {w : ℕ}

theorem poisonPair_apply (m : Memory) (w b : ℕ) :
    poisonPair w m b =
      if b = w then
        { m w with store := 0xAD, known := some (m.read8 w), concrete := false, flushed := false }
      else if b = w + 1 then
        { m (w + 1) with
          store := 0xDE, known := some (m.read8 (w + 1)), concrete := false, flushed := false }
      else m b := by
  have hlo : poisonVal.extractLsb' 0 8 = 0xAD := by decide
  have hhi : poisonVal.extractLsb' 8 8 = 0xDE := by decide
  by_cases h₀ : b = w
  · subst h₀
    simp [poisonPair, setWord, hlo]
  · by_cases h₁ : b = w + 1
    · subst h₁
      simp [poisonPair, setWord, hhi]
    · simp [poisonPair, setWord, h₀, h₁]

@[simp] theorem read8_poisonPair (m : Memory) (w b : ℕ) :
    (poisonPair w m).read8 b = m.read8 b := by
  by_cases h₀ : b = w
  · subst h₀
    simp [read8, poisonPair_apply]
  · by_cases h₁ : b = w + 1
    · subst h₁
      simp [read8, poisonPair_apply]
    · simp [read8, poisonPair_apply, h₀, h₁]

theorem word_poisonPair (m : Memory) (w : ℕ) : (poisonPair w m).word w = poisonVal := by
  simp only [word, poisonPair_apply]
  simp
  decide

/-- Poisoning restores the invariants of a word and leaves the others. -/
theorem inv_poisonPair (hw : w % 2 = 0) (hm : ∀ a, align a ≠ w → m.OkAt a)
    (ht : ∀ a, align a = w → (m.read8 a).wellTyped = true ∧ (m.read8 a).getWidth = 8) :
    (poisonPair w m).Inv := by
  intro a
  by_cases ha : align a = w
  · have hp : (poisonPair w m).isBytePoison a = true := by
      rw [isBytePoison, ha, word_poisonPair]
      rfl
    rcases (align_eq_iff hw).mp ha with rfl | rfl
    · exact okAt_of_known (e := m.read8 a) (by simp [poisonPair_apply]) (by simp [poisonPair_apply])
        hp (ht a ha)
    · exact okAt_of_known (e := m.read8 (w + 1)) (by simp [poisonPair_apply])
        (by simp [poisonPair_apply]) hp (ht _ ha)
  · have hne : ∀ b, align b = align a → b ≠ w ∧ b ≠ w + 1 := by
      intro b hb
      rw [← not_or, ← align_eq_iff hw, hb]
      exact ha
    have h₀ := hne (align a) (align_of_even (align_even a))
    have h₁ := hne (align a + 1) ((align_eq_iff (align_even a)).mpr (.inr rfl))
    refine (hm a ha).congr ?_ ?_
    · rw [poisonPair_apply, if_neg h₀.1, if_neg h₀.2]
    · rw [poisonPair_apply, if_neg h₁.1, if_neg h₁.2]

end PoisonPair

/-! ### Writing a byte -/

section WriteByte

variable {m : Memory} {a : ℕ} {e : Expr}

theorem ExtractExpr_create_self (e : Expr) (off : ℕ) : ExtractExpr.create e off e.getWidth = e := by
  have hpos : ∃ n, ExtractExpr.height e = n + 1 := by
    cases e <;> exact ⟨_, rfl⟩
  obtain ⟨n, hn⟩ := hpos
  simp [ExtractExpr.create, hn, ExtractExpr.createF]

/-- A byte is written as one byte. -/
theorem write_byte (hw : e.getWidth = 8) : m.write a e = write8Expr a e m := by
  have hself : ExtractExpr.create e 0 Width.Int8 = e := by
    have := ExtractExpr_create_self e 0
    rwa [hw] at this
  cases e with
  | constant c =>
    obtain ⟨w, x⟩ := c
    obtain rfl : w = 8 := hw
    simp [write, write8Expr, Width.Bool, List.range_succ]
  | _ =>
    simp only [write]
    rw [if_neg (by rw [hw]; decide), hw]
    simp [List.range_succ, hself]

theorem write8Expr_apply (m : Memory) {b : ℕ} (h : b ≠ a) : write8Expr a e m b = m b := by
  unfold write8Expr
  split
  · simp [h]
  · simp [h]

theorem known_write8Expr (m : Memory) (hc : (write8Expr a e m a).concrete = true) :
    (write8Expr a e m a).known = none := by
  unfold write8Expr at hc ⊢
  split at hc
  · simp
  · simp at hc

/-- The byte reads as the expression written. -/
theorem read8_write8Expr (m : Memory) (hw : e.getWidth = 8) (b : ℕ) :
    (write8Expr a e m).read8 b = if b = a then e else m.read8 b := by
  by_cases h : b = a
  · subst h
    rw [if_pos rfl]
    unfold write8Expr
    split
    next c =>
      obtain ⟨w, x⟩ := c
      obtain rfl : w = 8 := hw
      simp [read8]
    · simp [read8]
  · rw [if_neg h]
    unfold write8Expr
    split <;> exact read8_congr (by simp [h])

/-- For one byte only the end of the write is poisoned. -/
theorem applyPsnOnWrite_byte (hw : e.getWidth = 8) :
    applyPsnOnWrite a e m =
      if m.isNice (align a) = true ∧ m.isNice (align a + 1) = true then m
      else poisonPair (align a) m := by
  have hbyte : (8 : ℕ) / 8 = 1 := rfl
  unfold applyPsnOnWrite
  simp only [hw, Width.Bool, Width.Int8, Nat.reduceEqDiff, if_false, true_or, or_true, if_true, hbyte,
    Nat.add_sub_cancel]
  rcases align_cases a with ha | ha
  · have hev : a % 2 = 0 := by rw [ha]; exact align_even a
    rw [← ha, hev]
    by_cases hn : m.isNice a = true ∧ m.isNice (a + 1) = true
    · simp [hn]
    · simp [hn]
  · have hodd : a % 2 = 1 := by
      have := align_even a
      omega
    have hsib : a - 1 = align a := by omega
    rw [hodd, hsib, ← ha]
    by_cases hn : m.isNice a = true ∧ m.isNice (align a) = true
    · simp [hn]
    · have hn' : ¬ (m.isNice (align a) = true ∧ m.isNice a = true) := fun h => hn h.symm
      simp [hn, hn']

/-- Writing a byte changes what that byte reads and nothing else, and keeps the
invariants. -/
theorem taseHelperWrite_spec (hm : m.Inv) (het : e.wellTyped = true) (hw : e.getWidth = 8) :
    (taseHelperWrite a e m).Inv ∧
      ∀ b, (taseHelperWrite a e m).read8 b = if b = a then e else m.read8 b := by
  rw [taseHelperWrite, write_byte hw, applyPsnOnWrite_byte hw]
  have hreads := read8_write8Expr (a := a) m hw
  have htyped : ∀ b, ((write8Expr a e m).read8 b).wellTyped = true ∧
      ((write8Expr a e m).read8 b).getWidth = 8 := by
    intro b
    rw [hreads]
    split_ifs
    · exact ⟨het, hw⟩
    · exact (hm b).typed
  have hout : ∀ b, align b ≠ align a → (write8Expr a e m).OkAt b := by
    intro b hb
    have hne : ∀ c, align c = align b → c ≠ a := fun c hc h => hb (by rw [← hc, h])
    refine (hm b).congr ?_ ?_
    · exact write8Expr_apply m (hne _ (align_of_even (align_even b)))
    · exact write8Expr_apply m (hne _ ((align_eq_iff (align_even b)).mpr (.inr rfl)))
  split_ifs with hn
  · refine ⟨fun b => ?_, hreads⟩
    by_cases hb : align b = align a
    · have hnice : (write8Expr a e m).isNice b = true := by
        rcases (align_eq_iff (align_even a)).mp hb with h | h <;> rw [h]
        · exact hn.1
        · exact hn.2
      simp only [isNice, Bool.and_eq_true, Bool.not_eq_true'] at hnice
      refine okAt_of_concrete hnice.1 ?_ hnice.2
      by_cases hba : b = a
      · subst hba
        exact known_write8Expr m hnice.1
      · rw [write8Expr_apply m hba] at hnice ⊢
        exact (hm b).known_eq_none hnice.1
    · exact hout b hb
  · exact ⟨inv_poisonPair (align_even a) hout fun b _ => htyped b, fun b => by
      rw [read8_poisonPair, hreads]⟩

/-- Writing a byte leaves the other words. -/
theorem taseHelperWrite_apply (m : Memory) (hw : e.getWidth = 8) {b : ℕ} (hb : align b ≠ align a) :
    taseHelperWrite a e m b = m b := by
  have hba : b ≠ a := fun h => hb (by rw [h])
  have hword := (align_eq_iff (align_even a) (a := b)).not.mp hb
  rw [not_or] at hword
  rw [taseHelperWrite, write_byte hw, applyPsnOnWrite_byte hw]
  split_ifs
  · exact write8Expr_apply m hba
  · rw [poisonPair_apply, if_neg hword.1, if_neg hword.2]
    exact write8Expr_apply m hba

end WriteByte

/-! ### Reading words and values -/

section Values

variable {m : Memory}

/-- An unpoisoned word is concrete. -/
theorem Inv.concrete_of_word (hm : m.Inv) {a : ℕ} (h : m.word (align a) ≠ poisonVal) :
    (m a).concrete = true ∧ (m a).known = none ∧ (m a).flushed = false :=
  (hm a).unpoisoned (by simpa [isBytePoison] using h)

theorem read8_of_concrete {a : ℕ} (h : (m a).concrete = true) :
    m.read8 a = .constant ⟨8, (m a).store⟩ := by
  simp [read8, h]

theorem taseBufHasTaint_word {w : ℕ} (hw : w % 2 = 0) :
    taseBufHasTaint w (2 : ℕ) m = (m.word w == poisonVal) := by
  have hcount : (((w : ℤ) + (2 : ℕ) - (w : ℕ) + 1) / 2).toNat = 1 := by omega
  simp only [taseBufHasTaint, align_of_even hw, hcount]
  simp [List.range_succ]

/-- A word of two constant bytes reads as a constant. -/
theorem taseHelperRead_word (hm : m.Inv) {w : ℕ} (hw : w % 2 = 0) {v₀ v₁ : BitVec 8}
    (h₀ : m.read8 w = .constant ⟨8, v₀⟩) (h₁ : m.read8 (w + 1) = .constant ⟨8, v₁⟩) :
    taseHelperRead w 2 m = .constant ⟨16, v₁ ++ v₀⟩ := by
  have ha₁ : align (w + 1) = w := (align_eq_iff hw).mpr (.inr rfl)
  unfold taseHelperRead read
  split_ifs with hfast
  · have hword : m.word w ≠ poisonVal := by
      have := hfast.2
      rw [taseBufHasTaint_word hw] at this
      simpa using this
    have hc₀ := (hm.concrete_of_word (a := w) (by rwa [align_of_even hw])).1
    have hc₁ := (hm.concrete_of_word (a := w + 1) (by rwa [ha₁])).1
    rw [read8_of_concrete hc₀] at h₀
    rw [read8_of_concrete hc₁] at h₁
    simp only [Expr.constant.injEq, APInt.mk.injEq, heq_eq_eq, true_and] at h₀ h₁
    simp [storeValue, List.range_succ, h₀, h₁, APInt.concat]
  · simp [List.range_succ, h₀, h₁, ConcatExpr.create, ConcatExpr.merge, APInt.concat]

/-- Writing a constant word makes both bytes concrete. -/
theorem taseHelperWrite_word (m : Memory) {w : ℕ} (hw : w % 2 = 0) (v₀ v₁ : BitVec 8) :
    taseHelperWrite w (.constant ⟨16, v₁ ++ v₀⟩) m = write8 (w + 1) v₁ (write8 w v₀ m) := by
  have hlo : (v₁ ++ v₀).extractLsb' 0 8 = v₀ := BitVec.extractLsb'_append_eq_right
  have hhi : (v₁ ++ v₀).extractLsb' 8 8 = v₁ := BitVec.extractLsb'_append_eq_left
  have hwrite : m.write w (.constant ⟨16, v₁ ++ v₀⟩) = write8 (w + 1) v₁ (write8 w v₀ m) := by
    simp [write, Width.Bool, List.range_succ, hlo, hhi]
  rw [taseHelperWrite, hwrite]
  unfold applyPsnOnWrite
  have hlast : (w + 16 / 8 - 1) % 2 = 1 := by omega
  simp [Expr.isConstant, Width.Bool, hw]
  omega

end Values

/-- A memory of zeros, except that the word at `w` is kept as two expressions. -/
def oneWord (w : ℕ) (e₀ e₁ : Expr) : Memory := fun a =>
  if a = w then ⟨0xAD, false, false, some e₀, .alloc 0 8⟩
  else if a = w + 1 then ⟨0xDE, false, false, some e₁, .alloc 0 8⟩
  else ⟨0, true, false, none, .alloc 0 8⟩

theorem read8_oneWord (w : ℕ) (e₀ e₁ : Expr) (a : ℕ) :
    (oneWord w e₀ e₁).read8 a = if a = w then e₀ else if a = w + 1 then e₁ else .alloc 0 8 := by
  by_cases h₀ : a = w
  · simp [read8, oneWord, h₀]
  · by_cases h₁ : a = w + 1
    · simp [read8, oneWord, h₁]
    · simp [read8, oneWord, h₀, h₁, Expr.alloc, APInt.ofNat]

theorem inv_oneWord {w : ℕ} {e₀ e₁ : Expr} (hw : w % 2 = 0)
    (h₀ : e₀.wellTyped = true ∧ e₀.getWidth = 8) (h₁ : e₁.wellTyped = true ∧ e₁.getWidth = 8) :
    (oneWord w e₀ e₁).Inv := by
  have hp : (oneWord w e₀ e₁).word w = poisonVal := by
    have hstores : 0xDE#8 ++ 0xAD#8 = poisonVal := by decide
    simpa [word, oneWord] using hstores
  intro a
  by_cases ha : align a = w
  · have hpa : (oneWord w e₀ e₁).isBytePoison a = true := by simp [isBytePoison, ha, hp]
    rcases (align_eq_iff hw).mp ha with rfl | rfl
    · exact okAt_of_known (e := e₀) (by simp [oneWord]) (by simp [oneWord]) hpa h₀
    · exact okAt_of_known (e := e₁) (by simp [oneWord]) (by simp [oneWord]) hpa h₁
  · have hne := (align_eq_iff hw).not.mp ha
    rw [not_or] at hne
    refine okAt_of_concrete ?_ ?_ ?_ <;> simp [oneWord, hne.1, hne.2]

end Memory

end TaseVerifier
