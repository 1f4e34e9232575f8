import TaseVerifier.Memory.ObjectBytes

/-! The poison of an object state. Native code sees the store only, so a byte whose value
is not in the store has to lie in a poisoned word. The interpreter poisons words after each
of its reads and writes; what it does to a word depends on the two bytes of the word alone,
so the invariants are followed word by word. -/

namespace TaseVerifier.ObjectState

variable {arrays : ConstArrays} {hasTaint : ObjectState → ℕ → ℕ → Bool} {os os' : ObjectState}
  {v w : ℕ}

/-- The word that a byte lies in is poisoned. The object starts at an even address. -/
def isBytePoison (os : ObjectState) (i : ℕ) : Bool := os.word (i - i % 2) == poisonVal

/-- The invariants beyond those of the cache. -/
structure Tase (os : ObjectState) : Prop where
  of_unpoisoned : ∀ i < os.size, os.isBytePoison i = false →
    os.isByteConcrete i = true ∧ os.isByteKnownSymbolic i = false ∧ os.isByteFlushed i = false
  of_concrete : ∀ i < os.size, os.isByteConcrete i = true → os.isByteFlushed i = false

instance (os : ObjectState) : Decidable os.Tase :=
  decidable_of_iff ((∀ i < os.size, os.isBytePoison i = false →
      os.isByteConcrete i = true ∧ os.isByteKnownSymbolic i = false ∧ os.isByteFlushed i = false) ∧
      ∀ i < os.size, os.isByteConcrete i = true → os.isByteFlushed i = false)
    ⟨fun h => ⟨h.1, h.2⟩, fun h => ⟨h.1, h.2⟩⟩

/-! ### Words -/

/-- What holds of a byte in a poisoned word. -/
def Status.Sound (s : Status) : Prop := s.Cached ∧ (s.concrete = true → s.flushed = false)

theorem Status.sound_expr (value : Expr) : (Status.expr value).Sound := ⟨cached_expr value, by simp [expr]⟩

theorem Status.sound_ofByte (e : Expr) : (Status.ofByte e).Sound :=
  ⟨cached_ofByte e, fun _ => flushed_ofByte e⟩

theorem Status.sound_flushForWrite (s : Status) : s.flushForWrite.Sound :=
  ⟨⟨fun _ => rfl, by simp [flushForWrite, markOut], by simp [flushForWrite]⟩, by
    simp [flushForWrite, markOut]⟩

theorem Status.eq_nice {s : Status} (h : s.Cached) (hc : s.concrete = true) (hf : s.flushed = false) :
    s = .nice := by
  have hk := h.of_concrete hc
  obtain ⟨concrete, flushed, known⟩ := s
  simp_all [nice]

def SoundWord (os : ObjectState) (w : ℕ) : Prop := (os.status w).Sound ∧ (os.status (w + 1)).Sound

/-- The invariants, for one word. -/
structure Settled (os : ObjectState) (w : ℕ) : Prop where
  sound : os.SoundWord w
  poisoned : os.word w = poisonVal ∨ os.status w = .nice ∧ os.status (w + 1) = .nice

theorem isBytePoison_first (hw : w % 2 = 0) : os.isBytePoison w = (os.word w == poisonVal) := by
  simp [isBytePoison, hw]

theorem isBytePoison_second (hw : w % 2 = 0) : os.isBytePoison (w + 1) = (os.word w == poisonVal) := by
  simp [isBytePoison, show w + 1 - (w + 1) % 2 = w by omega]

/-- A property of all bytes, word by word. -/
theorem forall_byte_iff {p : ℕ → Prop} {size : ℕ} (hs : size % 2 = 0) :
    (∀ i < size, p i) ↔ ∀ w, w % 2 = 0 → w < size → p w ∧ p (w + 1) := by
  constructor
  · intro h w hw hlt
    exact ⟨h w hlt, h (w + 1) (by omega)⟩
  · intro h i hi
    obtain hi' | hi' : i % 2 = 0 ∨ i % 2 = 1 := by omega
    · exact (h i hi' hi).1
    · have := (h (i - 1) (by omega) (by omega)).2
      rwa [show i - 1 + 1 = i by omega] at this

theorem status_eq_nice {i : ℕ} : os.status i = .nice ↔
    os.isByteConcrete i = true ∧ os.isByteKnownSymbolic i = false ∧ os.isByteFlushed i = false := by
  simp [status, Status.nice, isByteKnownSymbolic, and_comm]

/-- The invariants hold if and only if they hold of each word. -/
theorem settled_iff (hs : os.size % 2 = 0) :
    os.Cached ∧ os.Tase ↔ ∀ w, w % 2 = 0 → w < os.size → os.Settled w := by
  constructor
  · rintro ⟨hc, ht⟩ w hw hlt
    refine ⟨⟨⟨hc w hlt, ht.of_concrete w hlt⟩, hc (w + 1) (by omega), ht.of_concrete (w + 1) (by omega)⟩, ?_⟩
    by_cases hp : os.word w = poisonVal
    · exact .inl hp
    · have h₁ := ht.of_unpoisoned w hlt (by simp [isBytePoison_first hw, hp])
      have h₂ := ht.of_unpoisoned (w + 1) (by omega) (by simp [isBytePoison_second hw, hp])
      exact .inr ⟨status_eq_nice.mpr h₁, status_eq_nice.mpr h₂⟩
  · intro h
    refine ⟨?_, ?_, ?_⟩
    · refine (forall_byte_iff hs).mpr fun w hw hlt => ?_
      exact ⟨(h w hw hlt).sound.1.1, (h w hw hlt).sound.2.1⟩
    · refine (forall_byte_iff hs).mpr fun w hw hlt => ?_
      rw [isBytePoison_first hw, isBytePoison_second hw]
      rcases (h w hw hlt).poisoned with hp | ⟨h₁, h₂⟩
      · simp [hp]
      · exact ⟨fun _ => status_eq_nice.mp h₁, fun _ => status_eq_nice.mp h₂⟩
    · refine (forall_byte_iff hs).mpr fun w hw hlt => ?_
      exact ⟨(h w hw hlt).sound.1.2, (h w hw hlt).sound.2.2⟩

/-! ### Poisoning -/

theorem status_setWord (i : ℕ) (value : BitVec 16) : (os.setWord v value).status i = os.status i := rfl

theorem word_setWord_self (value : BitVec 16) : (os.setWord v value).word v = value := by
  have h : v ≠ v + 1 := by omega
  simp only [word, setWord, Function.update_self, Function.update_of_ne h]
  exact BitVec.extractLsb'_append_extractLsb'

theorem word_setWord_of_ne (hv : v % 2 = 0) (hw : w % 2 = 0) (h : w ≠ v) (value : BitVec 16) :
    (os.setWord v value).word w = os.word w := by
  have h₁ : w ≠ v + 1 := by omega
  have h₂ : w + 1 ≠ v := by omega
  have h₃ : w + 1 ≠ v + 1 := by omega
  simp only [word, setWord]
  rw [Function.update_of_ne h₃, Function.update_of_ne h₂, Function.update_of_ne h₁, Function.update_of_ne h]

/-- The pair of bytes that `poisonPair` keeps. -/
theorem poisonPair_eq (h : os.poisonPair arrays v = .ok os') : ∃ b₁ b₂ root writes,
    os' = setWord v poisonVal (write8AsExpr (v + 1) b₂ (write8AsExpr v b₁
      { os with root := root, writes := writes })) := by
  unfold poisonPair at h
  cases h₁ : os.read8 arrays v with
  | error e =>
    rw [h₁] at h
    cases h
  | ok b₁ =>
    rw [h₁] at h
    cases h₂ : b₁.2.read8 arrays (v + 1) with
    | error e =>
      simp only [bind, Except.bind, h₂] at h
      cases h
    | ok b₂ =>
      simp only [bind, Except.bind, h₂] at h
      cases h
      obtain ⟨root₁, writes₁, e₁⟩ := read8_eq h₁
      obtain ⟨root₂, writes₂, e₂⟩ := read8_eq h₂
      rw [e₁] at e₂
      exact ⟨b₁.1, b₂.1, root₂, writes₂, by rw [e₂]⟩

/-- Words that were sound or settled stay so. -/
structure Poisons (os os' : ObjectState) : Prop where
  address : os'.address = os.address
  size : os'.size = os.size
  sound : ∀ {w}, w % 2 = 0 → os.SoundWord w → os'.SoundWord w
  settled : ∀ {w}, w % 2 = 0 → os.Settled w → os'.Settled w

theorem Poisons.refl (os : ObjectState) : Poisons os os := ⟨rfl, rfl, fun _ h => h, fun _ h => h⟩

theorem Poisons.trans {os₁ os₂ os₃ : ObjectState} (h : Poisons os₁ os₂) (h' : Poisons os₂ os₃) :
    Poisons os₁ os₃ :=
  ⟨h'.address.trans h.address, h'.size.trans h.size, fun hw hs => h'.sound hw (h.sound hw hs),
    fun hw hs => h'.settled hw (h.settled hw hs)⟩

/-- A step that acts on one word only. -/
theorem Poisons.of_word (ha : os'.address = os.address) (hs : os'.size = os.size)
    (hself : os.SoundWord v → os'.Settled v)
    (hother : ∀ w, w % 2 = 0 → w ≠ v →
      os'.status w = os.status w ∧ os'.status (w + 1) = os.status (w + 1) ∧ os'.word w = os.word w) :
    Poisons os os' := by
  refine ⟨ha, hs, @fun w hw h => ?_, @fun w hw h => ?_⟩
  · by_cases hv : w = v
    · subst hv
      exact (hself h).sound
    · obtain ⟨h₁, h₂, -⟩ := hother w hw hv
      rwa [SoundWord, h₁, h₂]
  · by_cases hv : w = v
    · subst hv
      exact hself h.sound
    · obtain ⟨h₁, h₂, h₃⟩ := hother w hw hv
      exact ⟨by rw [SoundWord, h₁, h₂]; exact h.sound, by rw [h₁, h₂, h₃]; exact h.poisoned⟩

theorem settled_setWord (h : os.SoundWord v) : (os.setWord v poisonVal).Settled v :=
  ⟨h, .inl (word_setWord_self _)⟩

theorem poisons_setWord (hv : v % 2 = 0) : Poisons os (os.setWord v poisonVal) :=
  .of_word rfl rfl settled_setWord fun _ hw hne => ⟨rfl, rfl, word_setWord_of_ne hv hw hne _⟩

theorem poisons_poisonPair (hv : v % 2 = 0) (h : os.poisonPair arrays v = .ok os') :
    Poisons os os' ∧ os'.Settled v := by
  obtain ⟨b₁, b₂, root, writes, rfl⟩ := poisonPair_eq h
  set os₁ := write8AsExpr (v + 1) b₂ (write8AsExpr v b₁ { os with root := root, writes := writes })
    with hos₁
  have hframe : Frame { os with root := root, writes := writes } os₁ :=
    (frame_write8AsExpr v b₁).trans (frame_write8AsExpr (v + 1) b₂)
  have hstatus : ∀ i, os₁.status i =
      if i = v + 1 then .expr b₂ else if i = v then .expr b₁ else os.status i := by
    intro i
    rw [hos₁, status_write8AsExpr, status_write8AsExpr]
    rfl
  have hstore : os₁.store = os.store := by
    rw [hos₁, store_write8AsExpr, store_write8AsExpr]
  have hself : (os₁.setWord v poisonVal).Settled v := by
    refine settled_setWord ⟨?_, ?_⟩
    · rw [hstatus, if_neg (by omega), if_pos rfl]
      exact Status.sound_expr b₁
    · rw [hstatus, if_pos rfl]
      exact Status.sound_expr b₂
  refine ⟨.of_word hframe.address hframe.size (fun _ => hself) fun w hw hne => ⟨?_, ?_, ?_⟩, hself⟩
  · rw [status_setWord, hstatus, if_neg (by omega), if_neg hne]
  · rw [status_setWord, hstatus, if_neg (by omega), if_neg (by omega)]
  · rw [word_setWord_of_ne hv hw hne]
    simp only [word, hstore]

/-- A loop that poisons words. -/
theorem poisons_foldlM {ws : List ℕ} (hws : ∀ v ∈ ws, v % 2 = 0)
    (h : ws.foldlM (fun os v => poisonPair arrays v os) os = .ok os') :
    Poisons os os' ∧ ∀ v ∈ ws, os'.Settled v := by
  induction ws generalizing os with
  | nil =>
    cases h
    exact ⟨.refl _, by simp⟩
  | cons v ws ih =>
    rw [List.foldlM_cons] at h
    cases h₁ : os.poisonPair arrays v with
    | error e =>
      rw [h₁] at h
      cases h
    | ok os₁ =>
      rw [h₁] at h
      obtain ⟨p₁, s₁⟩ := poisons_poisonPair (hws v (by simp)) h₁
      obtain ⟨p₂, s₂⟩ := ih (fun u hu => hws u (by simp [hu])) h
      refine ⟨p₁.trans p₂, fun u hu => ?_⟩
      rcases List.mem_cons.mp hu with rfl | hu
      · exact p₂.settled (hws u (by simp)) s₁
      · exact s₂ u hu

theorem poisons_poisonEnd {atEnd : Bool} (hv : atEnd = true → v % 2 = 0)
    (h : os.poisonEnd arrays atEnd v = .ok os') :
    Poisons os os' ∧ (atEnd = true → os.SoundWord v → os'.Settled v) := by
  unfold poisonEnd at h
  split_ifs at h with hc
  · obtain ⟨p, s⟩ := poisons_poisonPair (hv hc.1) h
    exact ⟨p, fun _ _ => s⟩
  · cases h
    refine ⟨.refl _, fun hat hs => ⟨hs, .inr ?_⟩⟩
    -- both bytes are concrete and not flushed, and the cache knows nothing else of them
    have hnice : os.isNice v = true ∧ os.isNice (v + 1) = true := by
      by_contra hn
      exact hc ⟨hat, hn⟩
    simp only [isNice, Bool.and_eq_true, Bool.not_eq_true'] at hnice
    exact ⟨Status.eq_nice hs.1.1 hnice.1.1 hnice.1.2, Status.eq_nice hs.2.1 hnice.2.1 hnice.2.2⟩

variable {o : ℕ} {value : Expr}

/-- The words that `poisonMiddle` keeps as expressions, at a value of more than one word. -/
def middleWords (o n : ℕ) (aligned : Bool) : List ℕ :=
  if aligned then (List.range (n / 2)).map (o + 2 * ·) else (List.range (n / 2 - 1)).map (o + 2 * · + 1)

theorem mem_middleWords {n : ℕ} {aligned : Bool} (hn : n % 2 = 0) (ha : aligned = true ↔ o % 2 = 0) :
    w ∈ middleWords o n aligned ↔ w % 2 = 0 ∧ o ≤ w ∧ w + 2 ≤ o + n := by
  unfold middleWords
  split_ifs with h
  · have ho := ha.mp h
    simp only [List.mem_map, List.mem_range]
    constructor
    · rintro ⟨k, hk, rfl⟩
      omega
    · intro hw
      exact ⟨(w - o) / 2, by omega, by omega⟩
  · have ho : o % 2 = 1 := by
      have : ¬ o % 2 = 0 := fun h' => h (ha.mpr h')
      omega
    simp only [List.mem_map, List.mem_range]
    constructor
    · rintro ⟨k, hk, rfl⟩
      omega
    · intro hw
      exact ⟨(w - o) / 2, by omega, by omega⟩

theorem poisonMiddle_eq {aligned : Bool} (hc : value.isConstant = false)
    (hw : value.getWidth = Width.Int32 ∨ value.getWidth = Width.Int64) :
    os.poisonMiddle arrays o value aligned =
      (middleWords o (value.getWidth / 8) aligned).foldlM (fun os v => poisonPair arrays v os) os := by
  rcases hw with h | h <;> cases aligned
  · simp [poisonMiddle, middleWords, hc, h, Width.Int16, Width.Int32]
  · simp [poisonMiddle, middleWords, hc, h, Width.Int16, Width.Int32, List.range_succ]
  · simp [poisonMiddle, middleWords, hc, h, Width.Int16, Width.Int32, Width.Int64, List.foldlM_map]
  · simp [poisonMiddle, middleWords, hc, h, Width.Int16, Width.Int32, Width.Int64, List.foldlM_map]

/-- A value of more than one word. -/
theorem poisons_middleWords {n : ℕ} {aligned : Bool} (hn : n % 2 = 0) (ha : aligned = true ↔ o % 2 = 0)
    (h : (middleWords o n aligned).foldlM (fun os v => poisonPair arrays v os) os = .ok os') :
    Poisons os os' ∧ ∀ w, w % 2 = 0 → o ≤ w → w + 2 ≤ o + n → os'.Settled w := by
  obtain ⟨p, s⟩ := poisons_foldlM (fun v hv => ((mem_middleWords hn ha).mp hv).1) h
  exact ⟨p, fun w hw h₁ h₂ => s w ((mem_middleWords hn ha).mpr ⟨hw, h₁, h₂⟩)⟩

/-- The words that lie within the value. -/
theorem poisons_poisonMiddle {aligned : Bool} (hw : IsAccessWidth value.getWidth)
    (ha : aligned = true ↔ o % 2 = 0 ∧ (o + numBytes value.getWidth - 1) % 2 = 1)
    (h : os.poisonMiddle arrays o value aligned = .ok os') :
    Poisons os os' ∧ (value.isConstant = false → ∀ w, w % 2 = 0 → o ≤ w →
      w + 2 ≤ o + numBytes value.getWidth → os.SoundWord w → os'.Settled w) := by
  cases hc : value.isConstant with
  | true =>
    rw [poisonMiddle, hc] at h
    cases h
    exact ⟨.refl _, by simp⟩
  | false =>
    rcases hw with hw | hw | hw | hw | hw
    · rw [poisonMiddle, hc, hw] at h
      cases h
      exact ⟨.refl _, fun _ w _ h₁ h₂ => absurd h₂ (by rw [hw]; simp [numBytes]; omega)⟩
    · rw [poisonMiddle, hc, hw] at h
      cases h
      exact ⟨.refl _, fun _ w _ h₁ h₂ => absurd h₂ (by
        rw [hw]; simp [numBytes, Width.Int8, Width.Bool]; omega)⟩
    · rw [hw, show numBytes Width.Int16 = 2 from rfl] at ha ⊢
      rw [poisonMiddle, hc, hw] at h
      cases h
      split_ifs with hal
      · refine ⟨poisons_setWord (ha.mp hal).1, fun _ w hw h₁ h₂ hs => ?_⟩
        obtain rfl : w = o := by omega
        exact settled_setWord hs
      · exact ⟨.refl _, fun _ w hw h₁ h₂ => absurd (ha.mpr (by omega)) hal⟩
    · rw [poisonMiddle_eq hc (.inl hw), hw, show Width.Int32 / 8 = 4 from rfl] at h
      rw [hw, show numBytes Width.Int32 = 4 from rfl] at ha ⊢
      obtain ⟨p, s⟩ := poisons_middleWords rfl (ha.trans (by omega)) h
      exact ⟨p, fun _ w hw h₁ h₂ _ => s w hw h₁ h₂⟩
    · rw [poisonMiddle_eq hc (.inr hw), hw, show Width.Int64 / 8 = 8 from rfl] at h
      rw [hw, show numBytes Width.Int64 = 8 from rfl] at ha ⊢
      obtain ⟨p, s⟩ := poisons_middleWords rfl (ha.trans (by omega)) h
      exact ⟨p, fun _ w hw h₁ h₂ _ => s w hw h₁ h₂⟩

/-- The parts of `applyPsnOnWrite` at a constant offset, in an object at an even address. -/
theorem applyPsnOnWriteConstant_eq (hw : IsAccessWidth value.getWidth) (ha : os.address % 2 = 0) :
    os.applyPsnOnWriteConstant arrays o value =
      (os.poisonMiddle arrays o value (o % 2 = 0 ∧ (o + numBytes value.getWidth - 1) % 2 = 1) >>=
        poisonEnd arrays (o % 2 = 1) (o - 1)) >>=
        poisonEnd arrays ((o + numBytes value.getWidth - 1) % 2 = 0) (o + numBytes value.getWidth - 1) := by
  have hadd : ∀ i, (os.address + i) % 2 = i % 2 := by omega
  unfold IsAccessWidth at hw
  simp only [applyPsnOnWriteConstant, if_neg (not_not.mpr hw), hadd, bind_assoc]
  rfl

theorem isAccessWidth_of_applyPsnOnWriteConstant
    (h : os.applyPsnOnWriteConstant arrays o value = .ok os') : IsAccessWidth value.getWidth := by
  by_contra hn
  unfold IsAccessWidth at hn
  rw [applyPsnOnWriteConstant, if_pos hn] at h
  cases h

theorem ok_of_bind {α β : Type} {x : Except Failure α} {f : α → Except Failure β} {b : β}
    (h : x >>= f = .ok b) : ∃ a, x = .ok a ∧ f a = .ok b := by
  cases x with
  | error e => cases h
  | ok a => exact ⟨a, rfl, h⟩

/-- The words that the value touches are settled, all others stay as they are. -/
theorem poisons_applyPsnOnWriteConstant (ha : os.address % 2 = 0)
    (h : os.applyPsnOnWriteConstant arrays o value = .ok os') :
    Poisons os os' ∧ ∀ w, w % 2 = 0 → os.SoundWord w →
      (value.isConstant = true → o ≤ w → w + 2 ≤ o + numBytes value.getWidth → os.Settled w) →
      o ≤ w + 1 → w < o + numBytes value.getWidth → os'.Settled w := by
  have hw := isAccessWidth_of_applyPsnOnWriteConstant h
  rw [applyPsnOnWriteConstant_eq hw ha] at h
  obtain ⟨os₂, h, h₃⟩ := ok_of_bind h
  obtain ⟨os₁, h₁, h₂⟩ := ok_of_bind h
  obtain ⟨p₁, s₁⟩ := poisons_poisonMiddle hw (by simp) h₁
  obtain ⟨p₂, s₂⟩ := poisons_poisonEnd (by simp; omega) h₂
  obtain ⟨p₃, s₃⟩ := poisons_poisonEnd (by simp) h₃
  refine ⟨(p₁.trans p₂).trans p₃, fun w hw hs hin hlo hhi => ?_⟩
  by_cases hfirst : w + 1 = o
  · have := s₂ (by simp; omega) (p₁.sound (by omega) (by rwa [show o - 1 = w by omega]))
    rw [show o - 1 = w by omega] at this
    exact p₃.settled hw this
  by_cases hlast : w + 1 = o + numBytes value.getWidth
  · have hwl : o + numBytes value.getWidth - 1 = w := by omega
    have := s₃ (by simp; omega) (p₂.sound (by omega) (p₁.sound (by omega) (by rwa [hwl])))
    rwa [hwl] at this
  · refine p₃.settled hw (p₂.settled hw ?_)
    cases hc : value.isConstant with
    | true => exact p₁.settled hw (hin hc (by omega) (by omega))
    | false => exact s₁ hc w hw (by omega) (by omega) hs

/-! ### Writes -/

/-- The invariants, with the layout that the poison of words needs. -/
structure Intact (os : ObjectState) : Prop where
  address : os.address % 2 = 0
  size : os.size % 2 = 0
  settled : ∀ w, w % 2 = 0 → w < os.size → os.Settled w

theorem intact_iff : os.Intact ↔
    os.address % 2 = 0 ∧ os.size % 2 = 0 ∧ os.Cached ∧ os.Tase :=
  ⟨fun h => ⟨h.address, h.size, (settled_iff h.size).mpr h.settled⟩,
    fun ⟨ha, hs, h⟩ => ⟨ha, hs, (settled_iff hs).mp h⟩⟩

theorem extract_constant (c : APInt) (off w : ℕ) :
    ∃ b, ExtractExpr.create (.constant c) off w = .constant b := by
  unfold ExtractExpr.create ExtractExpr.height ExtractExpr.createF
  split_ifs
  · exact ⟨_, rfl⟩
  · exact ⟨_, rfl⟩

theorem zext_constant (c : APInt) (w : ℕ) : ∃ b, ZExtExpr.create (.constant c) w = .constant b := by
  unfold ZExtExpr.create CastExpr.create
  split_ifs
  · exact ⟨_, rfl⟩
  · exact extract_constant c 0 w
  · exact ⟨_, rfl⟩

theorem valueByte_constant (c : APInt) (i : ℕ) : ∃ b, valueByte (.constant c) i = .constant b := by
  unfold valueByte
  split_ifs with hb
  · exact zext_constant c Width.Int8
  · exact extract_constant c (8 * i) Width.Int8

theorem status_valueByte (h : value.isConstant = true) (i : ℕ) :
    Status.ofByte (valueByte value i) = .nice := by
  cases value with
  | constant c =>
    obtain ⟨b, hb⟩ := valueByte_constant c i
    rw [hb]
    rfl
  | _ => cases h

theorem Intact.writeConstant {os₁ : ObjectState} (hi : os.Intact)
    (h : os.writeConstant o value = .ok os₁) (h' : os₁.applyPsnOnWriteConstant arrays o value = .ok os') :
    os'.Intact := by
  have hw := isAccessWidth_of_applyPsnOnWriteConstant h'
  rw [writeConstant_eq hw] at h
  cases h
  set n := numBytes value.getWidth
  have hf : Frame os (os.writeBytes o n (valueByte value)) := frame_writeBytes o n
  obtain ⟨p, s⟩ := poisons_applyPsnOnWriteConstant (by rw [hf.address, hi.address]) h'
  refine ⟨by rw [p.address, hf.address, hi.address], by rw [p.size, hf.size, hi.size], fun w hw hlt => ?_⟩
  rw [p.size, hf.size] at hlt
  have hold := hi.settled w hw hlt
  have hbyte : ∀ i, (os.status i).Sound → ((os.writeBytes o n (valueByte value)).status i).Sound := by
    intro i h
    rw [status_writeBytes]
    split_ifs
    · exact Status.sound_ofByte _
    · exact h
  by_cases htouch : o ≤ w + 1 ∧ w < o + n
  · refine s w hw ⟨hbyte w hold.sound.1, hbyte (w + 1) hold.sound.2⟩ (fun hc h₁ h₂ => ?_) htouch.1 htouch.2
    refine ⟨⟨hbyte w hold.sound.1, hbyte (w + 1) hold.sound.2⟩, .inr ⟨?_, ?_⟩⟩
    · rw [status_writeBytes, if_pos (by omega), status_valueByte hc]
    · rw [status_writeBytes, if_pos (by omega), status_valueByte hc]
  · refine p.settled hw ⟨⟨hbyte w hold.sound.1, hbyte (w + 1) hold.sound.2⟩, ?_⟩
    rw [status_writeBytes, status_writeBytes, if_neg (by omega), if_neg (by omega)]
    simp only [word, store_writeBytes]
    rw [if_neg (by omega), if_neg (by omega)]
    exact hold.poisoned

/-- The bytes of the object are as those of a poisoned word may be. -/
def SoundBytes (os : ObjectState) : Prop := ∀ i < os.size, (os.status i).Sound

theorem soundBytes_write8Symbolic {offset : Expr} (h : os.write8Symbolic offset value = .ok os') :
    os'.address = os.address ∧ os'.size = os.size ∧ os'.SoundBytes := by
  unfold write8Symbolic at h
  split_ifs at h with hc
  obtain ⟨os₁, h₁, h₂⟩ := ok_of_bind h
  cases h₂
  have f := flushRangeForWrite_effect h₁
  refine ⟨f.address, f.size, fun i hi => ?_⟩
  have hi' : i ∈ List.range' 0 os.size := by
    have : i < os₁.size := hi
    rw [f.size] at this
    simpa [List.mem_range'_1] using this
  rw [status_extend, f.status, if_pos hi']
  exact Status.sound_flushForWrite _

theorem soundBytes_writeSymbolic {offset : Expr} (hs : os.SoundBytes)
    (h : os.writeSymbolic offset value = .ok os') :
    os'.address = os.address ∧ os'.size = os.size ∧ os'.SoundBytes := by
  unfold writeSymbolic at h
  split_ifs at h with hb h8
  · exact soundBytes_write8Symbolic h
  · generalize List.range (value.getWidth / 8) = is at h
    induction is generalizing os with
    | nil =>
      cases h
      exact ⟨rfl, rfl, hs⟩
    | cons i is ih =>
      rw [List.foldlM_cons] at h
      obtain ⟨os₁, h₁, h₂⟩ := ok_of_bind h
      obtain ⟨ha, hz, hs₁⟩ := soundBytes_write8Symbolic h₁
      obtain ⟨ha', hz', hs'⟩ := ih hs₁ h₂
      exact ⟨ha'.trans ha, hz'.trans hz, hs'⟩

theorem poisonAll_spec (os : ObjectState) : os.poisonAll.address = os.address ∧
    os.poisonAll.size = os.size ∧ (∀ i, os.poisonAll.status i = os.status i) ∧
      ∀ w, w % 2 = 0 → w + 1 < os.size → os.poisonAll.word w = poisonVal := by
  suffices h : ∀ n, ((List.range n).foldl (fun os i => setWord (2 * i) poisonVal os) os).address =
      os.address ∧ ((List.range n).foldl (fun os i => setWord (2 * i) poisonVal os) os).size = os.size ∧
      (∀ i, ((List.range n).foldl (fun os i => setWord (2 * i) poisonVal os) os).status i = os.status i) ∧
      ∀ w, w % 2 = 0 → w < 2 * n →
        ((List.range n).foldl (fun os i => setWord (2 * i) poisonVal os) os).word w = poisonVal by
    obtain ⟨ha, hs, hst, hw⟩ := h (os.size / 2)
    exact ⟨ha, hs, hst, fun w hw₀ hlt => hw w hw₀ (by omega)⟩
  intro n
  induction n with
  | zero => exact ⟨rfl, rfl, fun _ => rfl, fun w _ hlt => by omega⟩
  | succ n ih =>
    obtain ⟨ha, hs, hst, hw⟩ := ih
    simp only [List.range_succ, List.foldl_append, List.foldl_cons, List.foldl_nil]
    refine ⟨ha, hs, hst, fun w hw₀ hlt => ?_⟩
    by_cases hne : w = 2 * n
    · rw [hne]
      exact word_setWord_self _
    · rw [word_setWord_of_ne (by omega) hw₀ hne]
      exact hw w hw₀ (by omega)

theorem Intact.poisonAll (ha : os.address % 2 = 0) (hs : os.size % 2 = 0) (h : os.SoundBytes) :
    os.poisonAll.Intact := by
  obtain ⟨ha', hs', hst, hw⟩ := poisonAll_spec os
  refine ⟨by rw [ha', ha], by rw [hs', hs], fun w hw₀ hlt => ?_⟩
  rw [hs'] at hlt
  refine ⟨⟨?_, ?_⟩, .inl (hw w hw₀ (by omega))⟩
  · rw [hst]
    exact h w hlt
  · rw [hst]
    exact h (w + 1) (by omega)

theorem Intact.soundBytes (h : os.Intact) : os.SoundBytes :=
  (forall_byte_iff h.size).mpr fun w hw hlt => (h.settled w hw hlt).sound

/-- `write` followed by `applyPsnOnWrite`. -/
theorem Intact.write {offset : Expr} {os₁ : ObjectState} (hi : os.Intact)
    (h : os.write offset value = .ok os₁) (h' : os₁.applyPsnOnWrite arrays offset value = .ok os') :
    os'.Intact := by
  unfold ObjectState.write at h
  unfold applyPsnOnWrite at h'
  split at h
  next c hc =>
    simp only [hc] at h'
    exact hi.writeConstant h h'
  next hc =>
    split at h'
    next c hc' => exact absurd hc' (hc c)
    · obtain ⟨ha, hs, hsound⟩ := soundBytes_writeSymbolic hi.soundBytes h
      split_ifs at h' with hodd
      cases h'
      exact Intact.poisonAll (by rw [ha, hi.address]) (by rw [hs, hi.size]) hsound

/-! ### Reads -/

/-- Native code sees the same memory. -/
structure SameStore (os os' : ObjectState) : Prop where
  address : os'.address = os.address
  size : os'.size = os.size
  store : os'.store = os.store

theorem SameStore.trans {os₁ os₂ os₃ : ObjectState} (h : SameStore os₁ os₂) (h' : SameStore os₂ os₃) :
    SameStore os₁ os₃ :=
  ⟨h'.address.trans h.address, h'.size.trans h.size, h'.store.trans h.store⟩

/-- Nothing but the update list differs. -/
def SameCache (os os' : ObjectState) : Prop :=
  ∃ root writes, os' = { os with root := root, writes := writes }

theorem SameCache.refl (os : ObjectState) : SameCache os os := ⟨os.root, os.writes, rfl⟩

theorem SameCache.trans {os₁ os₂ os₃ : ObjectState} (h : SameCache os₁ os₂) (h' : SameCache os₂ os₃) :
    SameCache os₁ os₃ := by
  obtain ⟨_, _, rfl⟩ := h
  obtain ⟨root, writes, rfl⟩ := h'
  exact ⟨root, writes, rfl⟩

theorem SameCache.sameStore (h : SameCache os os') : SameStore os os' := by
  obtain ⟨_, _, rfl⟩ := h
  exact ⟨rfl, rfl, rfl⟩

theorem SameCache.intact (h : SameCache os os') (hi : os.Intact) : os'.Intact := by
  obtain ⟨_, _, rfl⟩ := h
  exact ⟨hi.address, hi.size, fun w hw hlt => ⟨(hi.settled w hw hlt).sound, (hi.settled w hw hlt).poisoned⟩⟩

/-- What the reads of single bytes keep, a read of several bytes keeps. -/
theorem readBytes_rel {R : ObjectState → ObjectState → Prop} (htrans : ∀ {a b c}, R a b → R b c → R a c)
    {byte : ℕ → ObjectState → Except Failure (Expr × ObjectState)}
    (hbyte : ∀ {i os e os'}, byte i os = .ok (e, os') → R os os') {n : ℕ} {e : Expr}
    (h : readBytes byte n os = .ok (e, os')) : R os os' := by
  unfold readBytes at h
  obtain ⟨first, h₁, h₂⟩ := ok_of_bind h
  have hfirst : R os first.2 := hbyte h₁
  generalize List.range' 1 (n - 1) = is at h₂
  clear h h₁
  induction is generalizing first with
  | nil =>
    cases h₂
    exact hfirst
  | cons i is ih =>
    rw [List.foldlM_cons] at h₂
    obtain ⟨res, h₃, h₄⟩ := ok_of_bind h₂
    obtain ⟨next, h₅, h₆⟩ := ok_of_bind h₃
    cases h₆
    exact ih (ConcatExpr.create next.1 first.1, next.2) (htrans hfirst (hbyte h₅)) h₄

theorem sameCache_readConstant {width : ℕ} {e : Expr}
    (h : os.readConstant arrays hasTaint o width = .ok (e, os')) : SameCache os os' := by
  unfold readConstant at h
  split_ifs at h with hb h8 ht
  · obtain ⟨res, h₁, h₂⟩ := ok_of_bind h
    cases h₂
    exact read8_eq h₁
  · cases h
    exact .refl _
  · exact readBytes_rel SameCache.trans read8_eq h

theorem sameStore_read8Symbolic {offset e : Expr} (h : os.read8Symbolic arrays offset = .ok (e, os')) :
    SameStore os os' := by
  unfold read8Symbolic at h
  split_ifs at h with hc
  obtain ⟨os₁, h₁, h₂⟩ := ok_of_bind h
  cases h₂
  have f := flushRangeForRead_effect h₁
  have hu : SameCache os₁ (os₁.getUpdates arrays).2 := getUpdates_eq os₁
  exact SameStore.trans ⟨f.address, f.size, f.store⟩ hu.sameStore

theorem sameStore_readSymbolic {offset e : Expr} {width : ℕ}
    (h : os.readSymbolic arrays offset width = .ok (e, os')) : SameStore os os' := by
  unfold readSymbolic at h
  split_ifs at h with hb h8
  · obtain ⟨res, h₁, h₂⟩ := ok_of_bind h
    cases h₂
    exact sameStore_read8Symbolic h₁
  · exact readBytes_rel SameStore.trans sameStore_read8Symbolic h

theorem sameStore_read {offset e : Expr} {width : ℕ}
    (h : os.read arrays hasTaint offset width = .ok (e, os')) : SameStore os os' := by
  unfold read at h
  split at h
  · exact (sameCache_readConstant h).sameStore
  · exact sameStore_readSymbolic h

/-- After a read at an offset that is not constant every byte has its value in the table. -/
theorem applyPsnOnRead_spec {offset : Expr} (hc : offset.isConstant = false)
    (h : os.applyPsnOnRead arrays offset = .ok os') :
    SameStore os os' ∧ ∀ i < os.size, ∃ e, os'.status i = .expr e := by
  rw [applyPsnOnRead, hc, if_neg (by simp)] at h
  suffices hl : ∀ (is : List ℕ) {os os' : ObjectState}, is.foldlM (fun os i => do
      let byteVal ← os.read8 arrays i
      pure (write8AsExpr i byteVal.1 byteVal.2)) os = Except.ok os' →
      SameStore os os' ∧ ∀ i, (i ∈ is ∨ ∃ e, os.status i = .expr e) → ∃ e, os'.status i = .expr e by
    obtain ⟨hs, hst⟩ := hl _ h
    exact ⟨hs, fun i hi => hst i (.inl (by simpa using hi))⟩
  intro is
  induction is with
  | nil =>
    rintro os os' h
    cases h
    exact ⟨⟨rfl, rfl, rfl⟩, fun i hi => hi.resolve_left (by simp)⟩
  | cons j is ih =>
    intro os os' h
    rw [List.foldlM_cons] at h
    obtain ⟨os₁, h₁, h₂⟩ := ok_of_bind h
    obtain ⟨res, h₃, h₄⟩ := ok_of_bind h₁
    cases h₄
    obtain ⟨root, writes, he⟩ := read8_eq h₃
    obtain ⟨hs, hst⟩ := ih h₂
    have hf := @frame_write8AsExpr res.2 j res.1
    refine ⟨SameStore.trans ⟨?_, ?_, ?_⟩ hs, fun i hi => hst i ?_⟩
    · rw [hf.address, he]
    · rw [hf.size, he]
    · rw [store_write8AsExpr, he]
    · by_cases hij : i = j
      · exact .inr ⟨res.1, by rw [status_write8AsExpr, if_pos hij]⟩
      · rcases hi with hi | hi
        · exact .inl ((List.mem_cons.mp hi).resolve_left hij)
        · refine .inr ?_
          rw [status_write8AsExpr, if_neg hij, he]
          exact hi

/-! ### Runs -/

/-- A memory operation of the interpreter. -/
inductive Step where
  | write (offset value : Expr)
  | read (offset : Expr) (width : ℕ)

/-- The operation and the poison that follows it. -/
def step (arrays : ConstArrays) (hasTaint : ObjectState → ℕ → ℕ → Bool) :
    Step → ObjectState → Except Failure ObjectState
  | .write offset value, os => do
    let os ← os.write offset value
    os.applyPsnOnWrite arrays offset value
  | .read offset width, os => do
    let res ← os.read arrays hasTaint offset width
    res.2.applyPsnOnRead arrays offset

/-- The states of a run, from its start. An assertion that fails ends the run. -/
def states (arrays : ConstArrays) (hasTaint : ObjectState → ℕ → ℕ → Bool) :
    List Step → ObjectState → List ObjectState
  | [], os => [os]
  | s :: ss, os => os :: match step arrays hasTaint s os with
    | .ok os' => states arrays hasTaint ss os'
    | .error _ => []

/-- Every word of the object is poisoned. -/
def AllPoisoned (os : ObjectState) : Prop := ∀ i < os.size, os.isBytePoison i = true

instance (os : ObjectState) : Decidable os.AllPoisoned :=
  inferInstanceAs (Decidable (∀ i < os.size, os.isBytePoison i = true))

/-- A read at an offset that is not constant finds every word poisoned. -/
def Step.FindsPoison : Step → ObjectState → Prop
  | .write _ _, _ => True
  | .read offset _, os => offset.isConstant = false → os.AllPoisoned

/-- Every step that a run takes finds the poison it needs. -/
def FindsPoison (arrays : ConstArrays) (hasTaint : ObjectState → ℕ → ℕ → Bool) :
    List Step → ObjectState → Prop
  | [], _ => True
  | s :: ss, os => match step arrays hasTaint s os with
    | .ok os' => s.FindsPoison os ∧ FindsPoison arrays hasTaint ss os'
    | .error _ => True

instance : ∀ (s : Step) (os : ObjectState), Decidable (s.FindsPoison os)
  | .write _ _, _ => isTrue trivial
  | .read offset _, os => inferInstanceAs (Decidable (offset.isConstant = false → os.AllPoisoned))

instance decidableFindsPoison : ∀ (ss : List Step) (os : ObjectState),
    Decidable (FindsPoison arrays hasTaint ss os)
  | [], _ => isTrue trivial
  | s :: ss, os => match h : step arrays hasTaint s os with
    | .ok os' =>
      have := decidableFindsPoison ss os'
      decidable_of_iff (s.FindsPoison os ∧ FindsPoison arrays hasTaint ss os') (by
        simp only [FindsPoison, h])
    | .error _ => isTrue (by simp only [FindsPoison, h])

theorem read_symbolic_step {offset : Expr} {width : ℕ} (hc : offset.isConstant = false)
    (h : step arrays hasTaint (.read offset width) os = .ok os') :
    SameStore os os' ∧ ∀ i < os.size, ∃ e, os'.status i = .expr e := by
  obtain ⟨res, h₁, h₂⟩ := ok_of_bind h
  have hs := sameStore_read h₁
  obtain ⟨hs', hst⟩ := applyPsnOnRead_spec hc h₂
  exact ⟨hs.trans hs', fun i hi => hst i (by rwa [hs.size])⟩

theorem SameStore.isBytePoison (h : SameStore os os') (i : ℕ) :
    os'.isBytePoison i = os.isBytePoison i := by
  simp [ObjectState.isBytePoison, word, h.store]

theorem SameStore.word (h : SameStore os os') (w : ℕ) : os'.word w = os.word w := by
  simp [ObjectState.word, h.store]

/-- One step keeps the invariants if it finds the poison it needs. -/
theorem Intact.step {s : Step} (hi : os.Intact) (hp : s.FindsPoison os)
    (h : step arrays hasTaint s os = .ok os') : os'.Intact := by
  cases s with
  | write offset value =>
    obtain ⟨os₁, h₁, h₂⟩ := ok_of_bind h
    exact hi.write h₁ h₂
  | read offset width =>
    cases hc : offset.isConstant with
    | true =>
      obtain ⟨res, h₁, h₂⟩ := ok_of_bind h
      rw [applyPsnOnRead, hc] at h₂
      cases h₂
      cases offset with
      | constant c =>
        obtain ⟨b, hb⟩ := zext_constant c Width.Int32
        simp only [ObjectState.read, hb] at h₁
        exact (sameCache_readConstant h₁).intact hi
      | _ => cases hc
    | false =>
      obtain ⟨hs, hst⟩ := read_symbolic_step hc h
      refine ⟨by rw [hs.address, hi.address], by rw [hs.size, hi.size], fun w hw hlt => ?_⟩
      rw [hs.size] at hlt
      have hsize := hi.size
      obtain ⟨e₁, h₁⟩ := hst w hlt
      obtain ⟨e₂, h₂⟩ := hst (w + 1) (by omega)
      refine ⟨⟨by rw [h₁]; exact Status.sound_expr e₁, by rw [h₂]; exact Status.sound_expr e₂⟩, .inl ?_⟩
      have := hp hc w hlt
      rw [isBytePoison_first hw] at this
      rw [hs.word]
      simpa using this

/-- A step that does not find the poison it needs breaks the invariants. -/
theorem findsPoison_of_tase {s : Step} (h : step arrays hasTaint s os = .ok os') (ht : os'.Tase) :
    s.FindsPoison os := by
  cases s with
  | write offset value => trivial
  | read offset width =>
    intro hc i hi
    obtain ⟨hs, hst⟩ := read_symbolic_step hc h
    obtain ⟨e, he⟩ := hst i hi
    by_contra hp
    have hconc := (ht.of_unpoisoned i (by rwa [hs.size]) (by rw [hs.isBytePoison]; simpa using hp)).1
    have hsym : os'.isByteConcrete i = false := congrArg Status.concrete he
    rw [hconc] at hsym
    cases hsym

/-! ### New objects -/

theorem Intact.ofArray {address size : ℕ} {array : KleeArray}
    (h : (ofArray address size array).applyPsnOnMakeSymbolic = .ok os) : os.Intact := by
  unfold applyPsnOnMakeSymbolic at h
  split_ifs at h with hodd
  cases h
  obtain ⟨hf, -, hst⟩ := makeSymbolic_spec ⟨address, size, fun _ => 0, none, none, none, some array, []⟩
  refine Intact.poisonAll (by omega) (by omega) fun i hi => ?_
  rw [ObjectState.ofArray, hst i (hf.size ▸ hi)]
  exact ⟨⟨by simp, by simp, by simp⟩, by simp⟩

/-- An object for which the invariants hold, or a symbolic one that was just made. -/
def Start (os : ObjectState) : Prop :=
  (os.address % 2 = 0 ∧ os.size % 2 = 0 ∧ os.Cached ∧ os.Tase) ∨
    ∃ address size array, (ofArray address size array).applyPsnOnMakeSymbolic = .ok os

theorem Start.intact (h : os.Start) : os.Intact := by
  rcases h with h | ⟨address, size, array, h⟩
  · exact intact_iff.mpr h
  · exact .ofArray h

theorem Intact.tase (h : os.Intact) : os.Tase := ((settled_iff h.size).mpr h.settled).2

theorem Intact.states_iff {ss : List Step} (hi : os.Intact) :
    (∀ os' ∈ states arrays hasTaint ss os, os'.Tase) ↔ FindsPoison arrays hasTaint ss os := by
  induction ss generalizing os with
  | nil => simp [states, FindsPoison, hi.tase]
  | cons s ss ih =>
    simp only [states, FindsPoison, List.mem_cons, forall_eq_or_imp, hi.tase, true_and]
    cases h : ObjectState.step arrays hasTaint s os with
    | error e => simp
    | ok os' =>
      constructor
      · intro hall
        have hp : s.FindsPoison os := by
          refine findsPoison_of_tase h (hall os' ?_)
          cases ss <;> simp [states]
        exact ⟨hp, (ih (hi.step hp h)).mp hall⟩
      · rintro ⟨hp, hss⟩
        exact (ih (hi.step hp h)).mpr hss

/-- The invariants hold in every state of a run if and only if each of its reads at an
offset that is not constant is made while every word of the object is poisoned. -/
theorem tase_states_iff (arrays : ConstArrays) (hasTaint : ObjectState → ℕ → ℕ → Bool)
    (ss : List Step) (os : ObjectState) (h : os.Start) :
    (∀ os' ∈ states arrays hasTaint ss os, os'.Tase) ↔ FindsPoison arrays hasTaint ss os :=
  h.intact.states_iff

theorem tase_states_iff_poisoned_byte :
    let byte := Expr.read (.root ⟨"b", 1, 0, []⟩) (.alloc 0 32)
    let index := Expr.read (.root ⟨"i", 1, 0, []⟩) (.alloc 0 32)
    let os := ofContents 0 2 fun _ => 0
    os.Start ∧ ∀ os' ∈ states constArray (fun _ _ _ => true)
      [.write (.alloc 0 64) byte, .read index Width.Int8] os, os'.Tase := by
  have h : (ofContents 0 2 fun _ => 0).Start := .inl (by decide)
  exact ⟨h, (tase_states_iff _ _ _ _ h).mpr (by decide +kernel)⟩

/-- A read at a symbolic offset moves the bytes of words that are not poisoned to the table. -/
theorem tase_states_symbolic_read :
    let index := Expr.read (.root ⟨"i", 1, 0, []⟩) (.alloc 0 32)
    let os := ofContents 0 2 fun _ => 0
    os.Start ∧ ¬ ∀ os' ∈ states constArray (fun _ _ _ => true) [.read index Width.Int8] os, os'.Tase :=
  ⟨.inl (by decide), by decide +kernel⟩

end TaseVerifier.ObjectState
