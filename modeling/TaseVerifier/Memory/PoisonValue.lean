import TaseVerifier.Memory.ObjectFlat
import TaseVerifier.Memory.PoisonedWrite

/-! Poisoning and the values of bytes. The words that are poisoned after a write keep their
values as expressions, so the object stays valid and every byte has the value it had. A write of
two bytes is the exception: its word is poisoned as it is. -/

namespace TaseVerifier.ObjectState

variable {arrays : ConstArrays} {os os' : ObjectState} {v o : ℕ} {value : Expr}

/-- The object stays where it is, and keeps its values. -/
structure SameObject (os os' : ObjectState) : Prop where
  valid : os'.Valid
  same : SameValues os os'
  address : os'.address = os.address

/-- A byte is as it was, or has been kept as an expression of its value. -/
def KeptByte (os os' : ObjectState) (i : ℕ) : Prop :=
  os'.status i = os.status i ∧ (os.isByteConcrete i = true → os'.store i = os.store i) ∨
    ∃ e, os'.status i = .expr e ∧ IsByte e ∧ ∀ σ, e.eval σ = os.value σ i

theorem updateValue_frame (hf : Frame os os') (σ : Assignment) (i : ℕ) :
    os'.updateValue σ i = os.updateValue σ i := by
  have hinitial : os'.initialContents σ = os.initialContents σ := by
    funext k
    simp only [initialContents, hf.root]
  rw [updateValue, updateValue, hf.writes, hinitial]

theorem KeptByte.value_eq {i : ℕ} (hf : Frame os os') (h : KeptByte os os' i) (σ : Assignment) :
    os'.value σ i = os.value σ i := by
  rcases h with ⟨hst, hstore⟩ | ⟨e, hst, -, heval⟩
  · have hcache : os'.cacheExpr i = os.cacheExpr i := by
      rw [cacheExpr_eq, cacheExpr_eq, hst]
      split_ifs with hc
      · rw [hstore hc]
      · rfl
    rw [ObjectState.value, ObjectState.value, hcache]
    simp only [updateValue_frame hf]
  · have hcache : os'.cacheExpr i = some e := by
      rw [cacheExpr_eq, hst]
      rfl
    rw [ObjectState.value, hcache]
    exact heval σ

theorem valid_of_keptBytes (hv : os.Valid) (hf : Frame os os')
    (hk : ∀ i < os.size, KeptByte os os' i) : os'.Valid ∧ SameValues os os' := by
  refine ⟨⟨by rw [hf.size]; exact hv.size_lt, fun i hi => ?_, fun i hi e he => ?_,
    by rw [hf.writes]; exact hv.writes, by rw [hf.root]; exact hv.root, fun i hi hfl e he σ => ?_⟩,
    hf.size, fun σ i hi => KeptByte.value_eq hf (hk i hi) σ⟩
  all_goals rw [hf.size] at hi
  · rcases hk i hi with ⟨hst, -⟩ | ⟨e, hst, -⟩
    · rw [hst]
      exact hv.cached i hi
    · rw [hst]
      exact Status.cached_expr e
  · have he' : (os'.status i).known = some e := he
    rcases hk i hi with ⟨hst, -⟩ | ⟨e', hst, hbyte, -⟩
    · rw [hst] at he'
      exact hv.isByte i hi e he'
    · rw [hst] at he'
      cases he'
      exact hbyte
  · have hfl' : (os'.status i).flushed = true := hfl
    rcases hk i hi with ⟨hst, hstore⟩ | ⟨e', hst, -⟩
    · rw [hst] at hfl'
      have hcache : os.cacheExpr i = some e := by
        rw [cacheExpr_eq, hst] at he
        rw [cacheExpr_eq]
        split_ifs at he ⊢ with hc
        · rwa [hstore hc] at he
        · exact he
      rw [updateValue_frame hf]
      exact hv.flushed i hi hfl' e hcache σ
    · rw [hst] at hfl'
      cases hfl'

/-- Both bytes of a word are kept before it is poisoned. -/
theorem sameObject_poisonPair (hv : os.Valid) (hin : v + 1 < os.size) :
    ∃ os', os.poisonPair arrays v = .ok os' ∧ SameObject os os' := by
  obtain ⟨e₁, os₁, h₁, r₁⟩ := @read8_reads arrays os v hv (by omega)
  obtain ⟨e₂, os₂, h₂, r₂⟩ := @read8_reads arrays os₁ (v + 1) r₁.valid (by rwa [r₁.same.size])
  have hs := r₁.same.trans r₂.same
  have hbyte : ∀ i < os.size, ∀ {e : Expr}, (∀ σ, e.eval σ = os.value σ i) →
      ∀ σ, e.eval σ = os₂.value σ i := fun i hi _ he σ => (he σ).trans (hs.value σ i hi).symm
  set os₃ := write8AsExpr (v + 1) e₂ (write8AsExpr v e₁ os₂) with hos₃
  have hf : Frame os₂ (os₃.setWord v poisonVal) := by
    have hf := (@frame_write8AsExpr os₂ v e₁).trans (frame_write8AsExpr (v + 1) e₂)
    exact ⟨hf.address, hf.size, hf.root, hf.writes⟩
  have hst : ∀ i, (os₃.setWord v poisonVal).status i =
      if i = v + 1 then .expr e₂ else if i = v then .expr e₁ else os₂.status i := fun i => by
    rw [status_setWord, hos₃, status_write8AsExpr, status_write8AsExpr]
  have hkept : ∀ i < os₂.size, KeptByte os₂ (os₃.setWord v poisonVal) i := by
    intro i hi
    rw [KeptByte, hst]
    rw [hs.size] at hi
    split_ifs with hi₂ hi₁
    · subst hi₂
      exact .inr ⟨e₂, rfl, r₂.isByte, hbyte _ hi fun σ =>
        (r₂.eval σ trivial).trans (r₁.same.value σ _ hi)⟩
    · subst hi₁
      exact .inr ⟨e₁, rfl, r₁.isByte, hbyte _ hi fun σ => r₁.eval σ trivial⟩
    · refine .inl ⟨rfl, fun _ => ?_⟩
      rw [store_setWord_of_ne hi₁ hi₂, hos₃, store_write8AsExpr, store_write8AsExpr]
  obtain ⟨hvalid, hsame⟩ := valid_of_keptBytes r₂.valid hf hkept
  refine ⟨os₃.setWord v poisonVal, ?_, hvalid, hs.trans hsame, ?_⟩
  · simp only [poisonPair, h₁, h₂, bind, Except.bind]
    rfl
  · obtain ⟨_, _, rfl⟩ := read8_eq h₁
    obtain ⟨_, _, rfl⟩ := read8_eq h₂
    exact hf.address

theorem sameObject_poisonRel : PoisonRel arrays Valid SameObject where
  refl hv := ⟨hv, .refl _, rfl⟩
  trans r r' := ⟨r'.valid, r.same.trans r'.same, r'.address.trans r.address⟩
  keeps _ r := r.valid
  size r := r.same.size
  poisonPair := sameObject_poisonPair

/-- A value of another size than two bytes keeps its value when its words are poisoned. -/
theorem sameObject_applyPsnOnWrite {offset : Expr} {c : APInt} (hv : os.Valid)
    (haddr : os.address % 2 = 0) (hsize : os.size % 2 = 0)
    (hoff : ZExtExpr.create offset Width.Int32 = .constant c) (hw : IsAccessWidth value.getWidth)
    (h16 : value.getWidth ≠ Width.Int16) (hin : c.toNat + numBytes value.getWidth ≤ os.size) :
    ∃ os', os.applyPsnOnWrite arrays offset value = .ok os' ∧ SameObject os os' := by
  obtain ⟨os', h, r⟩ := (@sameObject_poisonRel arrays).applyPsnOnWrite hv haddr hsize hw hin
    fun hp => h16 hp.2.1
  exact ⟨os', by rw [applyPsnOnWrite, hoff]; exact h, r⟩

end TaseVerifier.ObjectState
