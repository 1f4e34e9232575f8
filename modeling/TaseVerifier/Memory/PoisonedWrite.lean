import TaseVerifier.Memory.ObjectPoison

/-! What a write reads back as once the words it touches are poisoned. The poison covers
bytes of the store, so a byte whose value is there has to move to the table first. -/

namespace TaseVerifier.ObjectState

variable {arrays : ConstArrays} {os os' : ObjectState} {v o : ℕ} {value : Expr}

/-- The expression that `read8` returns for a byte. -/
def byteExpr (arrays : ConstArrays) (os : ObjectState) (i : ℕ) : Except Failure Expr :=
  (os.read8 arrays i).map Prod.fst

/-- The value that a byte reads back as. -/
def readBack (arrays : ConstArrays) (os : ObjectState) (i : ℕ) (σ : Assignment) : Except Failure APInt :=
  (os.byteExpr arrays i).map (Expr.eval σ)

/-! ### The bytes of an object -/

/-- A byte's expression comes from its status, its byte in the store and the update list. -/
theorem byteExpr_eq (i : ℕ) : os.byteExpr arrays i =
    if (os.status i).concrete then .ok (.constant ⟨8, os.store i⟩)
    else match (os.status i).known with
      | some e => .ok e
      | none => if (os.status i).flushed then
          .ok (ReadExpr.create (os.getUpdates arrays).1 (.alloc i 32))
        else .error .unflushed := by
  unfold byteExpr read8 status
  cases os.isByteConcrete i <;> cases os.known i <;> cases os.isByteFlushed i <;> rfl

theorem byteExpr_of_expr {i : ℕ} {e : Expr} (h : os.status i = .expr e) :
    os.byteExpr arrays i = .ok e := by
  rw [byteExpr_eq, h]
  rfl

theorem byteExpr_of_nice {i : ℕ} (h : os.status i = .nice) :
    os.byteExpr arrays i = .ok (.constant ⟨8, os.store i⟩) := by
  rw [byteExpr_eq, h]
  rfl

theorem byteExpr_congr {i : ℕ} (hst : os'.status i = os.status i) (hs : os'.store i = os.store i)
    (hu : (os'.getUpdates arrays).1 = (os.getUpdates arrays).1) :
    os'.byteExpr arrays i = os.byteExpr arrays i := by
  rw [byteExpr_eq, byteExpr_eq, hst, hs, hu]

theorem getUpdates_frame (h : Frame os os') : (os'.getUpdates arrays).1 = (os.getUpdates arrays).1 := by
  unfold getUpdates
  rw [h.root, h.writes, h.size]
  cases os.root <;> rfl

theorem getUpdates_getUpdates : ((os.getUpdates arrays).2.getUpdates arrays).1 =
    (os.getUpdates arrays).1 := by
  obtain ⟨_, _, _, _, _, _, root, _⟩ := os
  cases root <;> rfl

/-- A read of a byte that satisfies the cache invariants succeeds, and later reads give the same. -/
theorem read8_spec {i : ℕ} (h : (os.status i).Cached) : ∃ e os', os.read8 arrays i = .ok (e, os') ∧
    SameCache os os' ∧ (os'.getUpdates arrays).1 = (os.getUpdates arrays).1 := by
  have hcase : (os.isByteConcrete i = true) ∨ (os.known i).isSome = true ∨ os.isByteFlushed i = true := by
    have := h.of_unflushed
    simp only [status] at this
    cases hf : os.isByteFlushed i with
    | true => simp
    | false => simpa using this hf
  unfold read8
  cases hc : os.isByteConcrete i with
  | true => exact ⟨_, _, rfl, .refl os, rfl⟩
  | false =>
    cases hk : os.known i with
    | some e => exact ⟨_, _, rfl, .refl os, rfl⟩
    | none =>
      have hf : os.isByteFlushed i = true := by simpa [hc, hk] using hcase
      simp only [hf, if_true]
      exact ⟨_, _, rfl, getUpdates_eq os, getUpdates_getUpdates⟩

/-- Every byte reads back as before. -/
structure SameReads (arrays : ConstArrays) (os os' : ObjectState) : Prop where
  size : os'.size = os.size
  cached : os.Cached → os'.Cached
  byteExpr : ∀ i, os'.byteExpr arrays i = os.byteExpr arrays i

theorem SameReads.refl (os : ObjectState) : SameReads arrays os os := ⟨rfl, id, fun _ => rfl⟩

theorem SameReads.trans {os₁ os₂ os₃ : ObjectState} (h : SameReads arrays os₁ os₂)
    (h' : SameReads arrays os₂ os₃) : SameReads arrays os₁ os₃ :=
  ⟨h'.size.trans h.size, fun hc => h'.cached (h.cached hc),
    fun i => (h'.byteExpr i).trans (h.byteExpr i)⟩

/-- A relation that a state of a kind is in with the state after its words are poisoned. -/
structure PoisonRel (arrays : ConstArrays) (P : ObjectState → Prop)
    (R : ObjectState → ObjectState → Prop) : Prop where
  refl : ∀ {os}, P os → R os os
  trans : ∀ {os₁ os₂ os₃}, R os₁ os₂ → R os₂ os₃ → R os₁ os₃
  keeps : ∀ {os os'}, P os → R os os' → P os'
  size : ∀ {os os'}, R os os' → os'.size = os.size
  poisonPair : ∀ {os v}, P os → v + 1 < os.size →
    ∃ os', os.poisonPair arrays v = .ok os' ∧ R os os'

theorem store_setWord_of_ne {i : ℕ} (h₁ : i ≠ v) (h₂ : i ≠ v + 1) (x : BitVec 16) :
    (os.setWord v x).store i = os.store i := by
  simp only [setWord]
  rw [Function.update_of_ne h₂, Function.update_of_ne h₁]

/-! ### Poisoning keeps the values -/

/-- Both bytes of the word are kept before it is poisoned. -/
theorem sameReads_poisonPair (hc : os.Cached) (hv : v + 1 < os.size) :
    ∃ os', os.poisonPair arrays v = .ok os' ∧ SameReads arrays os os' := by
  obtain ⟨e₁, os₁, h₁, ⟨root₁, writes₁, he₁⟩, hu₁⟩ := @read8_spec arrays os v (hc v (by omega))
  have hst₁ : ∀ i, os₁.status i = os.status i := fun i => by rw [he₁]; rfl
  obtain ⟨e₂, os₂, h₂, ⟨root₂, writes₂, he₂⟩, hu₂⟩ :=
    @read8_spec arrays os₁ (v + 1) (by rw [hst₁]; exact hc (v + 1) hv)
  have hst₂ : ∀ i, os₂.status i = os.status i := fun i => by rw [he₂, ← hst₁]; rfl
  have hs₂ : os₂.store = os.store := by rw [he₂, he₁]
  set os₃ := write8AsExpr (v + 1) e₂ (write8AsExpr v e₁ os₂) with hos₃
  have hf : Frame os₂ os₃ := (frame_write8AsExpr v e₁).trans (frame_write8AsExpr (v + 1) e₂)
  have hst₃ : ∀ i, (os₃.setWord v poisonVal).status i =
      if i = v + 1 then .expr e₂ else if i = v then .expr e₁ else os.status i := by
    intro i
    rw [status_setWord, hos₃, status_write8AsExpr, status_write8AsExpr, hst₂]
  have hsize : (os₃.setWord v poisonVal).size = os.size := by
    rw [show (os₃.setWord v poisonVal).size = os₃.size from rfl, hf.size, he₂, he₁]
  refine ⟨os₃.setWord v poisonVal, ?_, hsize, fun _ i hi => ?_, fun i => ?_⟩
  · simp only [poisonPair, h₁, h₂, bind, Except.bind]
    rfl
  · rw [hst₃]
    split_ifs
    · exact Status.cached_expr e₂
    · exact Status.cached_expr e₁
    · exact hc i (hsize ▸ hi)
  · by_cases hi₂ : i = v + 1
    · rw [byteExpr_of_expr (by rw [hst₃, if_pos hi₂]), hi₂,
        ← @byteExpr_congr arrays os os₁ (v + 1) (hst₁ _) (by rw [he₁]) hu₁, ObjectState.byteExpr, h₂]
      rfl
    · by_cases hi₁ : i = v
      · rw [byteExpr_of_expr (by rw [hst₃, if_neg hi₂, if_pos hi₁]), hi₁, ObjectState.byteExpr, h₁]
        rfl
      · refine byteExpr_congr (by rw [hst₃, if_neg hi₂, if_neg hi₁]) ?_ ?_
        · rw [store_setWord_of_ne hi₁ hi₂, hos₃, store_write8AsExpr, store_write8AsExpr, hs₂]
        · have hw : ((os₃.setWord v poisonVal).getUpdates arrays).1 = (os₂.getUpdates arrays).1 :=
            getUpdates_frame ⟨hf.address, hf.size, hf.root, hf.writes⟩
          rw [hw, hu₂, hu₁]

theorem sameReads_poisonRel : PoisonRel arrays Cached (SameReads arrays) where
  refl _ := .refl _
  trans := .trans
  keeps hc hr := hr.cached hc
  size := SameReads.size
  poisonPair := sameReads_poisonPair

/-- A word that is poisoned with its value still in the store. -/
def PoisonsStore (os : ObjectState) (o : ℕ) (value : Expr) : Prop :=
  value.isConstant = false ∧ value.getWidth = Width.Int16 ∧ (os.address + o) % 2 = 0

namespace PoisonRel

variable {P : ObjectState → Prop} {R : ObjectState → ObjectState → Prop} (h : PoisonRel arrays P R)
include h

theorem foldlM {ws : List ℕ} (hp : P os) (hws : ∀ v ∈ ws, v + 1 < os.size) :
    ∃ os', ws.foldlM (fun os v => ObjectState.poisonPair arrays v os) os = .ok os' ∧ R os os' := by
  induction ws generalizing os with
  | nil => exact ⟨os, rfl, h.refl hp⟩
  | cons v ws ih =>
    obtain ⟨os₁, h₁, r₁⟩ := h.poisonPair hp (hws v (by simp))
    obtain ⟨os₂, h₂, r₂⟩ := ih (h.keeps hp r₁) fun u hu => by
      rw [h.size r₁]
      exact hws u (by simp [hu])
    refine ⟨os₂, ?_, h.trans r₁ r₂⟩
    rw [List.foldlM_cons, h₁]
    exact h₂

theorem poisonEnd (v : ℕ) (atEnd : Bool) (hp : P os) (hv : atEnd = true → v + 1 < os.size) :
    ∃ os', os.poisonEnd arrays atEnd v = .ok os' ∧ R os os' := by
  unfold ObjectState.poisonEnd
  split_ifs with hend
  · exact h.poisonPair hp (hv hend.1)
  · exact ⟨os, rfl, h.refl hp⟩

/-- Both ends of a value, after its middle. -/
theorem ends {n : ℕ} (hp : P os) (hs : os.size % 2 = 0) (hn : 0 < n) (hin : o + n ≤ os.size) :
    ∃ os', (os.poisonEnd arrays (o % 2 = 1) (o - 1) >>=
      ObjectState.poisonEnd arrays ((o + n - 1) % 2 = 0) (o + n - 1)) = .ok os' ∧ R os os' := by
  obtain ⟨os₁, h₁, r₁⟩ := h.poisonEnd (o - 1) (o % 2 = 1) hp (by
    simp only [decide_eq_true_eq]
    omega)
  obtain ⟨os₂, h₂, r₂⟩ := h.poisonEnd (o + n - 1) ((o + n - 1) % 2 = 0)
    (h.keeps hp r₁) (by
      simp only [decide_eq_true_eq]
      rw [h.size r₁]
      omega)
  refine ⟨os₂, ?_, h.trans r₁ r₂⟩
  rw [h₁]
  exact h₂

theorem poisonMiddle (o : ℕ) (value : Expr) (aligned : Bool) (hp : P os) (hw : IsAccessWidth value.getWidth)
    (ha : aligned = true ↔ o % 2 = 0 ∧ (o + numBytes value.getWidth - 1) % 2 = 1)
    (hin : o + numBytes value.getWidth ≤ os.size)
    (hodd : value.isConstant = false → value.getWidth = Width.Int16 → o % 2 = 1) :
    ∃ os', os.poisonMiddle arrays o value aligned = .ok os' ∧ R os os' := by
  cases hconst : value.isConstant with
  | true => exact ⟨os, by simp [ObjectState.poisonMiddle, hconst, pure, Except.pure], h.refl hp⟩
  | false =>
    have hlarge : ∀ {w}, value.getWidth = w → w = Width.Int32 ∨ w = Width.Int64 →
        ∃ os', os.poisonMiddle arrays o value aligned = .ok os' ∧ R os os' := by
      rintro w rfl hw'
      rw [poisonMiddle_eq hconst hw']
      refine h.foldlM hp fun v hv => ?_
      have hn : numBytes value.getWidth = value.getWidth / 8 := by
        rcases hw' with h | h <;> rw [h] <;> rfl
      rw [hn] at ha hin
      have he : value.getWidth / 8 % 2 = 0 ∧ 0 < value.getWidth / 8 := by
        rcases hw' with h | h <;> rw [h] <;> decide
      have := (mem_middleWords he.1 (ha.trans (by omega))).mp hv
      omega
    rcases hw with hw | hw | hw | hw | hw
    · exact ⟨os, by simp [ObjectState.poisonMiddle, hconst, hw, pure, Except.pure, Width.Bool,
        Width.Int16, Width.Int32, Width.Int64], h.refl hp⟩
    · exact ⟨os, by simp [ObjectState.poisonMiddle, hconst, hw, pure, Except.pure, Width.Int8,
        Width.Int16, Width.Int32, Width.Int64], h.refl hp⟩
    · have hal : aligned = false := by
        have := hodd hconst hw
        by_contra hne
        have := (ha.mp (by simpa using hne)).1
        omega
      exact ⟨os, by simp [ObjectState.poisonMiddle, hconst, hw, hal, pure, Except.pure],
        h.refl hp⟩
    · exact hlarge hw (.inl rfl)
    · exact hlarge hw (.inr rfl)

theorem applyPsnOnWrite (hp : P os) (haddr : os.address % 2 = 0) (hsize : os.size % 2 = 0)
    (hw : IsAccessWidth value.getWidth) (hin : o + numBytes value.getWidth ≤ os.size)
    (hstore : ¬ os.PoisonsStore o value) :
    ∃ os', os.applyPsnOnWriteConstant arrays o value = .ok os' ∧ R os os' := by
  rw [applyPsnOnWriteConstant_eq hw haddr, bind_assoc]
  obtain ⟨os₁, h₁, r₁⟩ := h.poisonMiddle o value
    (o % 2 = 0 ∧ (o + numBytes value.getWidth - 1) % 2 = 1) hp hw (by simp) hin
    fun h₁ h₂ => by
      have : ¬ (os.address + o) % 2 = 0 := fun h₃ => hstore ⟨h₁, h₂, h₃⟩
      omega
  obtain ⟨os₂, h₂, r₂⟩ := h.ends (o := o) (n := numBytes value.getWidth) (h.keeps hp r₁)
    (by rw [h.size r₁, hsize]) (numBytes_pos hw) (by rwa [h.size r₁])
  refine ⟨os₂, ?_, h.trans r₁ r₂⟩
  rw [h₁]
  exact h₂

end PoisonRel

/-! ### The word that loses its bytes -/

theorem applyPsnOnWriteConstant_poisonsStore (haddr : os.address % 2 = 0) (hp : os.PoisonsStore o value) :
    os.applyPsnOnWriteConstant arrays o value = .ok (os.setWord o poisonVal) := by
  obtain ⟨hc, hw, ha⟩ := hp
  have ho : o % 2 = 0 := by omega
  have hlast : (o + 1) % 2 = 1 := by omega
  rw [applyPsnOnWriteConstant_eq (by rw [hw]; decide) haddr, hw, show numBytes Width.Int16 = 2 from rfl]
  simp [poisonMiddle, poisonEnd, hc, hw, ho, hlast, pure, Except.pure, bind, Except.bind]

/-- The byte of the poison at either place of a word. -/
def poisonByte (k : ℕ) : BitVec 8 := poisonVal.extractLsb' (8 * k) 8

theorem store_setWord {k : ℕ} (hk : k < 2) : (os.setWord v poisonVal).store (v + k) = poisonByte k := by
  obtain rfl | rfl : k = 0 ∨ k = 1 := by omega
  · simp [setWord, poisonByte]
  · simp [setWord, poisonByte]

/-- Some byte of the value is constant, and is not the byte of the poison. -/
def LosesByte (value : Expr) : Prop := ∃ k < 2, ∃ c,
  ExtractExpr.create value (8 * k) Width.Int8 = .constant c ∧ c.val.setWidth 8 ≠ poisonByte k

theorem Status.ofByte_of_not_constant {e : Expr} (h : e.isConstant = false) :
    Status.ofByte e = .expr e := by
  cases e <;> first | rfl | cases h

section Word

variable {k : ℕ} (hw : value.getWidth = Width.Int16) (hk : k < 2)

include hw hk

theorem status_wordByte : (os.writeBytes o 2 (valueByte value)).status (o + k) =
    Status.ofByte (ExtractExpr.create value (8 * k) Width.Int8) := by
  rw [status_writeBytes, if_pos (by omega), Nat.add_sub_cancel_left, valueByte, hw, if_neg (by decide)]

theorem store_wordByte {c : APInt} (hc : ExtractExpr.create value (8 * k) Width.Int8 = .constant c) :
    (os.writeBytes o 2 (valueByte value)).store (o + k) = c.val.setWidth 8 := by
  rw [store_writeBytes, if_pos (by omega), Nat.add_sub_cancel_left, valueByte, hw, if_neg (by decide), hc]
  rfl

/-- The bytes of the word: those in the table stay, those in the store turn into poison. -/
theorem wordByte_cases :
    (∃ c, ExtractExpr.create value (8 * k) Width.Int8 = .constant c ∧
      (os.writeBytes o 2 (valueByte value)).byteExpr arrays (o + k) =
        .ok (.constant ⟨8, c.val.setWidth 8⟩) ∧
      ((os.writeBytes o 2 (valueByte value)).setWord o poisonVal).byteExpr arrays (o + k) =
        .ok (.constant ⟨8, poisonByte k⟩)) ∨
    (ExtractExpr.create value (8 * k) Width.Int8).isConstant = false ∧
      ((os.writeBytes o 2 (valueByte value)).setWord o poisonVal).byteExpr arrays (o + k) =
        (os.writeBytes o 2 (valueByte value)).byteExpr arrays (o + k) := by
  have hst := @status_wordByte os o value k hw hk
  cases hc : (ExtractExpr.create value (8 * k) Width.Int8).isConstant with
  | true =>
    cases he : ExtractExpr.create value (8 * k) Width.Int8 with
    | constant c =>
      rw [he] at hst
      refine .inl ⟨c, rfl, ?_, ?_⟩
      · rw [byteExpr_of_nice hst, store_wordByte hw hk he]
      · rw [byteExpr_of_nice (by rw [status_setWord, hst]; rfl), store_setWord hk]
    | _ =>
      rw [he] at hc
      cases hc
  | false =>
    rw [Status.ofByte_of_not_constant hc] at hst
    refine .inr ⟨rfl, ?_⟩
    rw [byteExpr_of_expr hst, byteExpr_of_expr (by rw [status_setWord, hst])]

end Word

/-- A value that is not constant, at a word of its own, reads back unless one of its bytes is lost. -/
theorem readBack_setWord_iff (hw : value.getWidth = Width.Int16) (hin : o + 2 ≤ os.size) :
    (∀ i < os.size, ∀ σ, ((os.writeBytes o 2 (valueByte value)).setWord o poisonVal).readBack arrays i σ =
      (os.writeBytes o 2 (valueByte value)).readBack arrays i σ) ↔ ¬ LosesByte value := by
  constructor
  · rintro h ⟨k, hk, c, hc, hne⟩
    have hk' := h (o + k) (by omega) fun _ _ => 0
    rcases @wordByte_cases arrays os o value k hw hk with ⟨c', hc', h₁, h₂⟩ | ⟨hfalse, -⟩
    · rw [hc] at hc'
      cases hc'
      simp only [readBack, h₁, h₂, Except.map, Expr.eval, Except.ok.injEq, APInt.mk.injEq,
        heq_eq_eq, true_and] at hk'
      exact hne hk'.symm
    · rw [hc] at hfalse
      cases hfalse
  · intro hl i _ σ
    unfold readBack
    congr 1
    by_cases hi : o ≤ i ∧ i < o + 2
    · obtain ⟨k, hk, rfl⟩ : ∃ k < 2, i = o + k := ⟨i - o, by omega, by omega⟩
      rcases @wordByte_cases arrays os o value k hw hk with ⟨c, hc, h₁, h₂⟩ | ⟨-, h⟩
      · have : c.val.setWidth 8 = poisonByte k := by
          by_contra hne
          exact hl ⟨k, hk, c, hc, hne⟩
        rw [h₁, h₂, this]
      · exact h
    · exact byteExpr_congr rfl (store_setWord_of_ne (by omega) (by omega) _)
        (getUpdates_frame ⟨rfl, rfl, rfl, rfl⟩)

/-- A write and the poison that follows it. Every byte reads back as the write left it, unless
the value is a word at an even address that is not constant, and has a constant byte. -/
theorem write_readBack_iff (arrays : ConstArrays) (os : ObjectState) (offset value : Expr) (c : APInt)
    (haddr : os.address % 2 = 0) (hsize : os.size % 2 = 0) (hcache : os.Cached)
    (hoff : ZExtExpr.create offset Width.Int32 = .constant c) (hw : IsAccessWidth value.getWidth)
    (hin : c.toNat + numBytes value.getWidth ≤ os.size) :
    ∃ os₁ os₂, os.write offset value = .ok os₁ ∧ os₁.applyPsnOnWrite arrays offset value = .ok os₂ ∧
      ((∀ i < os.size, ∀ σ, os₂.readBack arrays i σ = os₁.readBack arrays i σ) ↔
        ¬ (os.PoisonsStore c.toNat value ∧ LosesByte value)) := by
  set os₁ := os.writeBytes c.toNat (numBytes value.getWidth) (valueByte value) with hos₁
  have hf : Frame os os₁ := frame_writeBytes _ _
  have hwrite : os.write offset value = .ok os₁ := by
    simp only [ObjectState.write, hoff, writeConstant_eq hw, hos₁]
  have hpsn : os₁.applyPsnOnWrite arrays offset value = os₁.applyPsnOnWriteConstant arrays c.toNat value := by
    simp only [applyPsnOnWrite, hoff]
  have hps : os₁.PoisonsStore c.toNat value ↔ os.PoisonsStore c.toNat value := by
    simp only [PoisonsStore, hf.address]
  by_cases hp : os.PoisonsStore c.toNat value
  · refine ⟨os₁, os₁.setWord c.toNat poisonVal, hwrite, ?_, ?_⟩
    · rw [hpsn, applyPsnOnWriteConstant_poisonsStore (by rw [hf.address, haddr]) (hps.mpr hp)]
    · have hn : numBytes value.getWidth = 2 := by
        rw [hp.2.1]
        rfl
      rw [hn] at hos₁ hin
      rw [hos₁, readBack_setWord_iff hp.2.1 hin]
      simp [hp]
  · obtain ⟨os₂, h₂, s₂⟩ := (@sameReads_poisonRel arrays).applyPsnOnWrite
      (hcache.writeBytes _ _ : os₁.Cached) (by rw [hf.address, haddr]) (by rw [hf.size, hsize]) hw
      (by rwa [hf.size]) (fun h => hp (hps.mp h))
    refine ⟨os₁, os₂, hwrite, hpsn.trans h₂, iff_of_true (fun i _ σ => ?_) fun h => hp h.1⟩
    rw [readBack, readBack, s₂.byteExpr]

theorem write_readBack_unaligned :
    let value := Expr.concat (.read (.root ⟨"b", 1, 0, []⟩) (.alloc 0 32)) (.alloc 65 8)
    let os := ofContents 0 4 fun _ => 0
    ∃ os₁ os₂, os.write (.alloc 1 64) value = .ok os₁ ∧
      os₁.applyPsnOnWrite constArray (.alloc 1 64) value = .ok os₂ ∧
      ∀ i < os.size, ∀ σ, os₂.readBack constArray i σ = os₁.readBack constArray i σ := by
  intro value os
  obtain ⟨os₁, os₂, h₁, h₂, h⟩ := write_readBack_iff constArray os (.alloc 1 64) value (APInt.ofNat 32 1)
    (by decide) (by decide) (by decide) (by decide) (by decide) (by decide)
  exact ⟨os₁, os₂, h₁, h₂, h.mpr fun hp => absurd hp.1.2.2 (by decide)⟩

/-- The constant byte of a word is replaced by the byte of the poison. -/
theorem write_readBack_lost :
    let value := Expr.concat (.read (.root ⟨"b", 1, 0, []⟩) (.alloc 0 32)) (.alloc 65 8)
    let os := ofContents 0 2 fun _ => 0
    os.Cached ∧ os.Tase ∧ ∃ os₁ os₂, os.write (.alloc 0 64) value = .ok os₁ ∧
      os₁.applyPsnOnWrite constArray (.alloc 0 64) value = .ok os₂ ∧ ∀ σ,
      os₁.readBack constArray 0 σ = .ok (APInt.ofNat 8 65) ∧
        os₂.readBack constArray 0 σ = .ok (APInt.ofNat 8 0xAD) :=
  ⟨by decide, by decide, _, _, rfl, rfl, fun _ => ⟨rfl, rfl⟩⟩

end TaseVerifier.ObjectState
