import TaseVerifier.Memory.ObjectValue
import TaseVerifier.Expr.CreateCall

/-! Object states refine a flat array of bytes: a run of reads and writes returns
expressions whose values are those of the same run on the array. -/

namespace TaseVerifier.ObjectState

variable {arrays : ConstArrays} {hasTaint : ObjectState → ℕ → ℕ → Bool} {os os' : ObjectState}
  {σ : Assignment} {m : ℕ → BitVec 8} {o n : ℕ}

/-! ### The flat array -/

/-- The values of `n` bytes as one value, the first byte lowest. -/
def concatBytes (byte : ℕ → APInt) (n : ℕ) : APInt :=
  (List.range' 1 (n - 1)).foldl (fun v i => (byte i).concat v) (byte 0)

def flatRead (m : ℕ → BitVec 8) (o width : ℕ) : APInt :=
  if width = Width.Bool then APInt.extract ⟨8, m o⟩ 0 1 else concatBytes (fun i => ⟨8, m (o + i)⟩) (width / 8)

/-- Byte `i` of a value; a boolean is one byte. -/
def flatByte (v : APInt) (i : ℕ) : BitVec 8 :=
  if v.width = Width.Bool then v.val.setWidth 8 else v.val.extractLsb' (8 * i) 8

def flatWrite (m : ℕ → BitVec 8) (o : ℕ) (v : APInt) : ℕ → BitVec 8 :=
  (List.range (numBytes v.width)).foldl (fun m i => Function.update m (o + i) (flatByte v i)) m

/-- The object has the bytes of the array. -/
def Represents (σ : Assignment) (os : ObjectState) (m : ℕ → BitVec 8) : Prop :=
  ∀ i < os.size, os.value σ i = ⟨8, m i⟩

theorem Represents.same (h : Represents σ os m) (hs : SameValues os os') : Represents σ os' m :=
  fun i hi => (hs.value σ i (hs.size ▸ hi)).trans (h i (hs.size ▸ hi))

theorem Represents.writesByte {index byte : Assignment → APInt} {j : ℕ} {b : BitVec 8} (hv : os.Valid)
    (h : Represents σ os m) (hw : WritesByte os os' index byte) (hi : index σ = APInt.ofNat 32 j)
    (hj : j < 2 ^ 32) (hb : byte σ = ⟨8, b⟩) : Represents σ os' (Function.update m j b) := by
  intro i hlt
  rw [hw.size] at hlt
  rw [hw.value σ i hlt, hi]
  simp only [ofNat_inj hj (lt_trans hlt hv.size_lt)]
  by_cases hij : j = i
  · subst hij
    simp [hb]
  · rw [if_neg hij, Function.update_of_ne (Ne.symm hij)]
    exact h i hlt

/-! ### Offsets -/

/-- An offset cut to 32 bits. -/
theorem cut_offset {offset : Expr} (h : offset.wellTyped = true) :
    IsIndex (ZExtExpr.create offset Width.Int32) ∧ ∀ σ,
      ((ZExtExpr.create offset Width.Int32).eval σ).toNat = (offset.eval σ).toNat % 2 ^ 32 := by
  have hr := fun σ => @CreateCall.cast_returns σ .ZExt offset Width.Int32 ⟨h, by decide⟩
  refine ⟨⟨(hr fun _ _ => 0).1, (hr fun _ _ => 0).2.1⟩, fun σ => ?_⟩
  rw [ZExtExpr.create, (hr σ).2.2]
  simp [CreateCall.value, CastKind.apply, APInt.zext, APInt.toNat, Width.Int32]

/-- Nothing is cut off an offset in bounds. -/
theorem cut_of_inBounds {offset : Expr} (h : offset.wellTyped = true) {size width : ℕ}
    (hs : size < 2 ^ 32) (hw : IsAccessWidth width) {σ : Assignment}
    (hin : (offset.eval σ).toNat + numBytes width ≤ size) :
    ((ZExtExpr.create offset Width.Int32).eval σ).toNat = (offset.eval σ).toNat := by
  have hpos := numBytes_pos hw
  rw [(cut_offset h).2 σ, Nat.mod_eq_of_lt (by omega)]

/-- A read at an offset that is not constant once it is cut. -/
theorem read_eq_symbolic {offset : Expr} (width : ℕ)
    (h : (ZExtExpr.create offset Width.Int32).isConstant = false) :
    os.read arrays hasTaint offset width =
      os.readSymbolic arrays (ZExtExpr.create offset Width.Int32) width := by
  unfold ObjectState.read
  generalize ZExtExpr.create offset Width.Int32 = e at h
  cases e with
  | constant c => cases h
  | _ => rfl

theorem write_eq_symbolic {offset : Expr} (value : Expr)
    (h : (ZExtExpr.create offset Width.Int32).isConstant = false) :
    os.write offset value = os.writeSymbolic (ZExtExpr.create offset Width.Int32) value := by
  unfold ObjectState.write
  generalize ZExtExpr.create offset Width.Int32 = e at h
  cases e with
  | constant c => cases h
  | _ => rfl

theorem add_offset {index : Expr} (h : IsIndex index) (k : ℕ) :
    IsIndex (AddExpr.create index (.alloc k 32)) ∧ ∀ σ,
      (AddExpr.create index (.alloc k 32)).eval σ = APInt.ofNat 32 ((index.eval σ).toNat + k) := by
  have hw : (Expr.binary .Add index (.alloc k 32)).wellTyped = true :=
    Expr.wellTyped_binary h.1 rfl h.2 rfl
  have ha := AddExpr.create_agrees index (.alloc k 32) ⟨hw, h.2⟩
  refine ⟨⟨ha.wellTyped, ha.getWidth.trans h.2⟩, fun σ => ?_⟩
  have hadd : ∀ a b, (APInt.ofNat 32 a).add (APInt.ofNat 32 b) = APInt.ofNat 32 (a + b) := by
    intro a b
    rw [APInt.ofNat, APInt.ofNat, APInt.add_mk, ← BitVec.ofNat_add]
    rfl
  calc (AddExpr.create index (.alloc k 32)).eval σ
      = (index.eval σ).add (APInt.ofNat 32 k) := ha.eval σ
    _ = APInt.ofNat 32 ((index.eval σ).toNat + k) := by rw [eval_index h, hadd, ← eval_index h]

/-! ### Reads of several bytes -/

theorem readBytes_succ (byte : ℕ → ObjectState → Except Failure (Expr × ObjectState)) (n : ℕ)
    (os : ObjectState) : readBytes byte (n + 2) os = readBytes byte (n + 1) os >>= fun res =>
      byte (n + 1) res.2 >>= fun next => .ok (ConcatExpr.create next.1 res.1, next.2) := by
  unfold readBytes
  rw [bind_assoc]
  congr 1
  funext first
  rw [show n + 2 - 1 = n + 1 from rfl, show n + 1 - 1 = n from rfl, List.range'_concat,
    List.foldlM_append, Nat.one_mul, Nat.add_comm 1 n]
  congr 1
  funext res
  rw [List.foldlM_cons]
  cases byte (n + 1) res.2 <;> rfl

theorem concatBytes_succ (byte : ℕ → APInt) (n : ℕ) :
    concatBytes byte (n + 2) = (byte (n + 1)).concat (concatBytes byte (n + 1)) := by
  unfold concatBytes
  rw [show n + 2 - 1 = n + 1 from rfl, show n + 1 - 1 = n from rfl, List.range'_concat,
    List.foldl_append, Nat.one_mul, Nat.add_comm 1 n]
  rfl

/-- A read of a value: the state keeps its bytes, and the expression has the value. -/
structure Reads (os os' : ObjectState) (e : Expr) (width : ℕ) (P : Assignment → Prop)
    (v : Assignment → APInt) : Prop where
  valid : os'.Valid
  same : SameValues os os'
  wellTyped : e.wellTyped = true
  getWidth : e.getWidth = width
  eval : ∀ σ, P σ → e.eval σ = v σ

theorem readBytes_reads {byte : ℕ → ObjectState → Except Failure (Expr × ObjectState)}
    {P : Assignment → Prop} {index : ℕ → Assignment → ℕ} (hv : os.Valid) (n : ℕ)
    (hbyte : ∀ k < n + 1, ∀ os₁ : ObjectState, os₁.Valid → os₁.size = os.size →
      ∃ e os₂, byte k os₁ = .ok (e, os₂) ∧ ReadsByte os₁ os₂ e P (index k))
    (hindex : ∀ σ, P σ → ∀ k < n + 1, index k σ < os.size) :
    ∃ e os', readBytes byte (n + 1) os = .ok (e, os') ∧ Reads os os' e (8 * (n + 1)) P fun σ =>
      concatBytes (fun k => os.value σ (index k σ)) (n + 1) := by
  induction n with
  | zero =>
    obtain ⟨e, os', h, hr⟩ := hbyte 0 (by omega) os hv rfl
    refine ⟨e, os', ?_, hr.valid, hr.same, hr.isByte.1, hr.isByte.2, fun σ hσ => hr.eval σ hσ⟩
    simp [readBytes, h, bind, Except.bind, pure, Except.pure]
  | succ n ih =>
    obtain ⟨e₁, os₁, h₁, hr₁⟩ := ih (fun k hk => hbyte k (by omega)) fun σ hσ k hk =>
      hindex σ hσ k (by omega)
    obtain ⟨e₂, os₂, h₂, hr₂⟩ := hbyte (n + 1) (by omega) os₁ hr₁.valid hr₁.same.size
    have ha := ConcatExpr.create_agrees (Expr.wellTyped_concat.mpr ⟨hr₂.isByte.1, hr₁.wellTyped⟩)
    refine ⟨_, os₂, ?_, hr₂.valid, hr₁.same.trans hr₂.same, ha.wellTyped, ?_, fun σ hσ => ?_⟩
    · rw [readBytes_succ, h₁]
      simp only [bind, Except.bind, h₂]
    · rw [ha.getWidth, Expr.getWidth, hr₂.isByte.2, hr₁.getWidth, Width.Int8]
      omega
    · rw [ha.eval, Expr.eval, hr₁.eval σ hσ, hr₂.eval σ hσ, concatBytes_succ,
        hr₁.same.value σ _ (hindex σ hσ (n + 1) (by omega))]

/-- A poison test that finds bytes outside the store. -/
def TaintSound (hasTaint : ObjectState → ℕ → ℕ → Bool) : Prop :=
  ∀ os o n, hasTaint os o n = false → ∀ i < n, os.isByteConcrete (o + i) = true

/-- The value at an offset, as the object has it. -/
def valueAt (σ : Assignment) (os : ObjectState) (o width : ℕ) : APInt :=
  if width = Width.Bool then (os.value σ o).extract 0 1
  else concatBytes (fun i => os.value σ (o + i)) (width / 8)

theorem bytes_of_isAccessWidth {w : ℕ} (hw : IsAccessWidth w) (hb : w ≠ Width.Bool) :
    ∃ n, w / 8 = n + 1 ∧ numBytes w = n + 1 ∧ w % 8 = 0 ∧ w = 8 * (n + 1) := by
  rcases hw with rfl | rfl | rfl | rfl | rfl
  · exact absurd rfl hb
  · exact ⟨0, rfl, rfl, rfl, rfl⟩
  · exact ⟨1, rfl, rfl, rfl, rfl⟩
  · exact ⟨3, rfl, rfl, rfl, rfl⟩
  · exact ⟨7, rfl, rfl, rfl, rfl⟩

theorem concatBytes_congr {f g : ℕ → APInt} (h : ∀ i < n + 1, f i = g i) :
    concatBytes f (n + 1) = concatBytes g (n + 1) := by
  induction n with
  | zero => exact h 0 (by omega)
  | succ n ih => rw [concatBytes_succ, concatBytes_succ, ih fun i hi => h i (by omega), h (n + 1) (by omega)]

theorem storeValue_eq (hc : ∀ i < n + 1, os.isByteConcrete (o + i) = true) (σ : Assignment) :
    os.storeValue o (n + 1) = concatBytes (fun i => os.value σ (o + i)) (n + 1) := by
  have hval : ∀ i < n + 1, os.value σ (o + i) = ⟨8, os.store (o + i)⟩ := by
    intro i hi
    rw [value, cacheExpr, if_pos (hc i hi)]
    rfl
  exact concatBytes_congr fun i hi => (hval i hi).symm

theorem width_concatBytes {byte : ℕ → APInt} (hb : ∀ i < n + 1, (byte i).width = 8) :
    (concatBytes byte (n + 1)).width = 8 * (n + 1) := by
  induction n with
  | zero => exact hb 0 (by omega)
  | succ n ih =>
    rw [concatBytes_succ]
    have := ih fun i hi => hb i (by omega)
    simp only [APInt.concat, this, hb (n + 1) (by omega)]
    omega

theorem agrees_lowBit {e : Expr} (h : IsByte e) :
    Agrees (.extract e 0 Width.Bool) (ExtractExpr.create e 0 Width.Bool) :=
  ExtractExpr.create_agrees (Expr.wellTyped_extract.mpr ⟨h.1, by decide, by rw [h.2]; decide⟩)

theorem readConstant_reads {width : ℕ} (ht : TaintSound hasTaint) (hv : os.Valid)
    (hw : IsAccessWidth width) (hin : o + numBytes width ≤ os.size) :
    ∃ e os', os.readConstant arrays hasTaint o width = .ok (e, os') ∧
      Reads os os' e width (fun _ => True) fun σ => os.valueAt σ o width := by
  unfold readConstant valueAt
  by_cases hb : width = Width.Bool
  · subst hb
    obtain ⟨e, os', h, hr⟩ := @read8_reads arrays os o hv (by simp [numBytes] at hin; omega)
    have ha := agrees_lowBit hr.isByte
    refine ⟨_, os', by rw [if_pos rfl, h]; rfl, hr.valid, hr.same, ha.wellTyped, ha.getWidth, fun σ hσ => ?_⟩
    rw [ha.eval, Expr.eval, hr.eval σ hσ, if_pos rfl]
    rfl
  · obtain ⟨n, hn, hn', h8, hwn⟩ := bytes_of_isAccessWidth hw hb
    simp only [if_neg hb, h8, ne_eq, not_true_eq_false, if_false, hn]
    rw [hn'] at hin
    split_ifs with hfast
    · have hc := ht os o (n + 1) hfast.2
      refine ⟨_, os, rfl, hv, .refl os, rfl, ?_, fun σ _ => storeValue_eq hc σ⟩
      rw [Expr.getWidth, storeValue_eq hc fun _ _ => 0, width_concatBytes, hwn]
      intro i hi
      rw [value, cacheExpr, if_pos (hc i hi)]
      rfl
    · obtain ⟨e, os', h, hr⟩ := @readBytes_reads os (fun i => read8 arrays (o + i)) (fun _ => True)
        (fun i _ => o + i) hv n (fun k hk os₁ hv₁ hs₁ => read8_reads hv₁ (by omega))
        fun _ _ k hk => by omega
      exact ⟨e, os', h, hr.valid, hr.same, hr.wellTyped, hwn ▸ hr.getWidth, hr.eval⟩

theorem readSymbolic_reads {offset : Expr} {width : ℕ} (hv : os.Valid) (ho : IsIndex offset)
    (hf : offset.folded = true) (hc : offset.isConstant = false) (hw : IsAccessWidth width) :
    ∃ e os', os.readSymbolic arrays offset width = .ok (e, os') ∧
      Reads os os' e width (fun σ => (offset.eval σ).toNat + numBytes width ≤ os.size) fun σ =>
        os.valueAt σ (offset.eval σ).toNat width := by
  unfold readSymbolic valueAt
  by_cases hb : width = Width.Bool
  · subst hb
    obtain ⟨e, os', h, hr⟩ := @read8Symbolic_reads arrays os offset hv ho hc
    have ha := agrees_lowBit hr.isByte
    refine ⟨_, os', by rw [if_pos rfl, h]; rfl, hr.valid, hr.same, ha.wellTyped, ha.getWidth, fun σ hσ => ?_⟩
    rw [ha.eval, Expr.eval, hr.eval σ (by simp [numBytes] at hσ; omega), if_pos rfl]
    rfl
  · obtain ⟨n, hn, hn', h8, hwn⟩ := bytes_of_isAccessWidth hw hb
    simp only [if_neg hb, h8, ne_eq, not_true_eq_false, if_false, hn]
    rw [hn']
    have hsize := hv.size_lt
    obtain ⟨e, os', h, hr⟩ := @readBytes_reads os
      (fun i => read8Symbolic arrays (AddExpr.create offset (.alloc i 32)))
      (fun σ => (offset.eval σ).toNat + (n + 1) ≤ os.size) (fun i σ => (offset.eval σ).toNat + i) hv n
      (fun k hk os₁ hv₁ hs₁ => by
        obtain ⟨hidx, heval⟩ := add_offset ho k
        obtain ⟨e, os₂, h, hr⟩ := @read8Symbolic_reads arrays os₁ _ hv₁ hidx
          (AddExpr.create_symbolic (show 32 ≠ Width.Bool by decide) hf hc)
        refine ⟨e, os₂, h, hr.valid, hr.same, hr.isByte, fun σ hσ => ?_⟩
        have hidx : ((AddExpr.create offset (.alloc k 32)).eval σ).toNat = (offset.eval σ).toNat + k := by
          rw [heval σ, toNat_ofNat (by omega)]
        have := hr.eval σ (by rw [hidx, hs₁]; omega)
        rwa [hidx] at this)
      fun σ hσ k hk => by omega
    exact ⟨e, os', h, hr.valid, hr.same, hr.wellTyped, hwn ▸ hr.getWidth, hr.eval⟩

theorem read_reads {offset : Expr} {width : ℕ} (ht : TaintSound hasTaint) (hv : os.Valid)
    (ho : offset.wellTyped = true) (hf : offset.folded = true) (hw : IsAccessWidth width)
    (hin : ∀ c, ZExtExpr.create offset Width.Int32 = .constant c → c.toNat + numBytes width ≤ os.size) :
    ∃ e os', os.read arrays hasTaint offset width = .ok (e, os') ∧
      Reads os os' e width (fun σ => (offset.eval σ).toNat + numBytes width ≤ os.size) fun σ =>
        os.valueAt σ (offset.eval σ).toNat width := by
  have hcut {σ : Assignment} := cut_of_inBounds (σ := σ) ho hv.size_lt hw
  cases hc : (ZExtExpr.create offset Width.Int32).isConstant with
  | true =>
    obtain ⟨c, hz⟩ := Expr.isConstant_iff.mp hc
    obtain ⟨e, os', h, hr⟩ := @readConstant_reads arrays hasTaint os c.toNat width ht hv hw (hin c hz)
    refine ⟨e, os', by rw [ObjectState.read, hz]; exact h, hr.valid, hr.same, hr.wellTyped,
      hr.getWidth, fun σ hσ => ?_⟩
    have hcσ : c.toNat = (offset.eval σ).toNat := by
      rw [← hcut hσ, hz]
      rfl
    rw [hr.eval σ trivial, hcσ]
  | false =>
    obtain ⟨e, os', h, hr⟩ := @readSymbolic_reads arrays os _ width hv (cut_offset ho).1
      (ZExtExpr.folded_create hf) hc hw
    refine ⟨e, os', (read_eq_symbolic width hc).trans h, hr.valid, hr.same, hr.wellTyped,
      hr.getWidth, fun σ hσ => ?_⟩
    rw [hr.eval σ (by rwa [hcut hσ]), hcut hσ]

/-! ### Writes of several bytes -/

/-- A write of a value: the object has the bytes of the array after the same write. -/
structure Writes (os os' : ObjectState) (P : Assignment → Prop) (offset : Assignment → ℕ)
    (v : Assignment → APInt) : Prop where
  valid : os'.Valid
  size : os'.size = os.size
  represents : ∀ σ, P σ → ∀ m, Represents σ os m → Represents σ os' (flatWrite m (offset σ) (v σ))

theorem valueByte_spec {value : Expr} (hv : value.wellTyped = true) (hw : IsAccessWidth value.getWidth)
    {i : ℕ} (hi : i < numBytes value.getWidth) : IsByte (valueByte value i) ∧
      ∀ σ, (valueByte value i).eval σ = ⟨8, flatByte (value.eval σ) i⟩ := by
  have hwidth := fun σ => value.width_eval σ hv
  by_cases hb : value.getWidth = Width.Bool
  · have hr := fun σ => @CreateCall.cast_returns σ .ZExt value Width.Int8 ⟨hv, by decide⟩
    have hbyte : valueByte value i = CastExpr.create .ZExt value Width.Int8 := if_pos hb
    rw [hbyte]
    refine ⟨⟨(hr fun _ _ => 0).1, (hr fun _ _ => 0).2.1⟩, fun σ => ?_⟩
    rw [(hr σ).2.2, flatByte, if_pos ((hwidth σ).trans hb)]
    rfl
  · obtain ⟨n, hn, hn', h8, hwn⟩ := bytes_of_isAccessWidth hw hb
    have ht : (Expr.extract value (8 * i) Width.Int8).wellTyped = true :=
      Expr.wellTyped_extract.mpr ⟨hv, by decide, by rw [Width.Int8]; omega⟩
    have ha := ExtractExpr.create_agrees ht
    have hbyte : valueByte value i = ExtractExpr.create value (8 * i) Width.Int8 := if_neg hb
    rw [hbyte]
    refine ⟨⟨ha.wellTyped, ha.getWidth⟩, fun σ => ?_⟩
    rw [ha.eval, Expr.eval, flatByte, if_neg (by rw [hwidth σ]; exact hb)]
    rfl

/-- The first `n` bytes of a value in the flat array. -/
def flatBytes (m : ℕ → BitVec 8) (o : ℕ) (v : APInt) (n : ℕ) : ℕ → BitVec 8 :=
  (List.range n).foldl (fun m i => Function.update m (o + i) (flatByte v i)) m

theorem flatBytes_succ (m : ℕ → BitVec 8) (o : ℕ) (v : APInt) (n : ℕ) :
    flatBytes m o v (n + 1) = Function.update (flatBytes m o v n) (o + n) (flatByte v n) := by
  simp [flatBytes, List.range_succ]

theorem writeBytes_writes {value : Expr} (hv : os.Valid) (ht : value.wellTyped = true)
    (hw : IsAccessWidth value.getWidth) (hn : n ≤ numBytes value.getWidth) (hin : o + n ≤ os.size) :
    (os.writeBytes o n (valueByte value)).Valid ∧ (os.writeBytes o n (valueByte value)).size = os.size ∧
      ∀ σ m, Represents σ os m →
        Represents σ (os.writeBytes o n (valueByte value)) (flatBytes m o (value.eval σ) n) := by
  induction n with
  | zero => exact ⟨hv, rfl, fun _ _ h => h⟩
  | succ n ih =>
    obtain ⟨hv₁, hs₁, hr₁⟩ := ih (by omega) (by omega)
    obtain ⟨hb, heval⟩ := valueByte_spec ht hw (show n < numBytes value.getWidth by omega)
    have hwr := write8Expr_writes hv₁ (show o + n < _ by rw [hs₁]; omega) hb
    have hsize := hv.size_lt
    rw [writeBytes_succ]
    refine ⟨hwr.valid, hwr.size.trans hs₁, fun σ m h => ?_⟩
    rw [flatBytes_succ]
    exact (hr₁ σ m h).writesByte hv₁ hwr rfl (by omega) (heval σ)

theorem writeConstant_writes {value : Expr} (hv : os.Valid) (ht : value.wellTyped = true)
    (hw : IsAccessWidth value.getWidth) (hin : o + numBytes value.getWidth ≤ os.size) :
    ∃ os', os.writeConstant o value = .ok os' ∧
      Writes os os' (fun _ => True) (fun _ => o) fun σ => value.eval σ := by
  obtain ⟨hv', hs', hr'⟩ := writeBytes_writes hv ht hw le_rfl hin
  refine ⟨_, writeConstant_eq hw o os, hv', hs', fun σ _ m h => ?_⟩
  rw [flatWrite, value.width_eval σ ht]
  exact hr' σ m h

section Symbolic

variable {offset value : Expr} (ho : IsIndex offset) (hf : offset.folded = true)
  (hc : offset.isConstant = false) (ht : value.wellTyped = true) (hw : IsAccessWidth value.getWidth)

include ho hf hc ht hw

/-- The first `n` bytes of a value at a symbolic offset. -/
theorem foldlM_writes (hv : os.Valid) (hb : value.getWidth ≠ Width.Bool)
    (hn : n ≤ numBytes value.getWidth) :
    ∃ os', (List.range n).foldlM (fun os i => write8Symbolic (AddExpr.create offset (.alloc i 32))
        (ExtractExpr.create value (8 * i) Width.Int8) os) os = .ok os' ∧ os'.Valid ∧ os'.size = os.size ∧
      ∀ σ, (offset.eval σ).toNat + numBytes value.getWidth ≤ os.size → ∀ m, Represents σ os m →
        Represents σ os' (flatBytes m (offset.eval σ).toNat (value.eval σ) n) := by
  induction n with
  | zero => exact ⟨os, rfl, hv, rfl, fun _ _ _ h => h⟩
  | succ n ih =>
    obtain ⟨os₁, h₁, hv₁, hs₁, hr₁⟩ := ih (by omega)
    obtain ⟨hbyte, heval⟩ := valueByte_spec ht hw (show n < numBytes value.getWidth by omega)
    rw [valueByte, if_neg hb] at hbyte heval
    obtain ⟨hidx, hadd⟩ := add_offset ho n
    obtain ⟨os₂, h₂, hwr⟩ := write8Symbolic_writes hv₁ hidx
      (AddExpr.create_symbolic (show 32 ≠ Width.Bool by decide) hf hc) hbyte
    have hsize := hv.size_lt
    refine ⟨os₂, ?_, hwr.valid, hwr.size.trans hs₁, fun σ hσ m h => ?_⟩
    · rw [List.range_succ, List.foldlM_append, h₁]
      simp only [bind, Except.bind, List.foldlM_cons, List.foldlM_nil, h₂]
      rfl
    · rw [flatBytes_succ]
      exact (hr₁ σ hσ m h).writesByte hv₁ hwr (hadd σ) (by omega) (heval σ)

theorem writeSymbolic_writes (hv : os.Valid) :
    ∃ os', os.writeSymbolic offset value = .ok os' ∧
      Writes os os' (fun σ => (offset.eval σ).toNat + numBytes value.getWidth ≤ os.size)
        (fun σ => (offset.eval σ).toNat) fun σ => value.eval σ := by
  have hsize := hv.size_lt
  unfold writeSymbolic
  by_cases hb : value.getWidth = Width.Bool
  · obtain ⟨hbyte, heval⟩ := valueByte_spec ht hw (show 0 < numBytes value.getWidth by rw [hb]; decide)
    rw [valueByte, if_pos hb] at hbyte heval
    obtain ⟨os', h, hwr⟩ := write8Symbolic_writes hv ho hc hbyte
    rw [if_pos hb]
    refine ⟨os', h, hwr.valid, hwr.size, fun σ hσ m hm => ?_⟩
    have := hm.writesByte hv hwr (eval_index ho σ) (by omega) (heval σ)
    rw [flatWrite, value.width_eval σ ht, hb]
    exact this
  · obtain ⟨n, hn, hn', h8, -⟩ := bytes_of_isAccessWidth hw hb
    obtain ⟨os', h, hv', hs', hr'⟩ := foldlM_writes ho hf hc ht hw hv hb le_rfl
    rw [hn'] at h hr'
    simp only [if_neg hb, h8, ne_eq, not_true_eq_false, if_false, hn]
    refine ⟨os', h, hv', hs', fun σ hσ m hm => ?_⟩
    rw [flatWrite, value.width_eval σ ht, hn']
    exact hr' σ (by rwa [hn'] at hσ) m hm

end Symbolic

theorem write_writes {offset value : Expr} (hv : os.Valid) (ho : offset.wellTyped = true)
    (hf : offset.folded = true) (ht : value.wellTyped = true) (hw : IsAccessWidth value.getWidth)
    (hin : ∀ c, ZExtExpr.create offset Width.Int32 = .constant c →
      c.toNat + numBytes value.getWidth ≤ os.size) :
    ∃ os', os.write offset value = .ok os' ∧
      Writes os os' (fun σ => (offset.eval σ).toNat + numBytes value.getWidth ≤ os.size)
        (fun σ => (offset.eval σ).toNat) fun σ => value.eval σ := by
  have hcut {σ : Assignment} := cut_of_inBounds (σ := σ) ho hv.size_lt hw
  cases hc : (ZExtExpr.create offset Width.Int32).isConstant with
  | true =>
    obtain ⟨c, hz⟩ := Expr.isConstant_iff.mp hc
    obtain ⟨os', h, hr⟩ := writeConstant_writes hv ht hw (hin c hz)
    refine ⟨os', by rw [ObjectState.write, hz]; exact h, hr.valid, hr.size, fun σ hσ m hm => ?_⟩
    have hcσ : c.toNat = (offset.eval σ).toNat := by
      rw [← hcut hσ, hz]
      rfl
    rw [← hcσ]
    exact hr.represents σ trivial m hm
  | false =>
    obtain ⟨os', h, hr⟩ := writeSymbolic_writes (cut_offset ho).1 (ZExtExpr.folded_create hf) hc ht hw hv
    refine ⟨os', (write_eq_symbolic value hc).trans h, hr.valid, hr.size, fun σ hσ m hm => ?_⟩
    have hrep := hr.represents σ (by rwa [hcut hσ]) m hm
    rwa [hcut hσ] at hrep

/-! ### Runs -/

/-- A read or a write of an object. -/
inductive Call where
  | write (offset value : Expr)
  | read (offset : Expr) (width : ℕ)

namespace Call

def offset : Call → Expr
  | .write offset _ => offset
  | .read offset _ => offset

def width : Call → ℕ
  | .write _ value => value.getWidth
  | .read _ width => width

/-- The operands are well typed, the width is one that the object takes, and an offset that
is constant once it is cut to 32 bits is in bounds. -/
structure Ok (size : ℕ) (c : Call) : Prop where
  offset_wellTyped : c.offset.wellTyped = true
  offset_folded : c.offset.folded = true
  value_wellTyped : ∀ offset value, c = .write offset value → value.wellTyped = true
  width : IsAccessWidth c.width
  bounds : ∀ k, ZExtExpr.create c.offset Width.Int32 = .constant k → k.toNat + numBytes c.width ≤ size

/-- The offset is in bounds under an assignment. -/
def InBounds (σ : Assignment) (size : ℕ) (c : Call) : Prop :=
  (c.offset.eval σ).toNat + numBytes c.width ≤ size

end Call

/-- The calls in turn, with what the reads return. -/
def run (arrays : ConstArrays) (hasTaint : ObjectState → ℕ → ℕ → Bool) :
    List Call → ObjectState → Except Failure (List Expr × ObjectState)
  | [], os => pure ([], os)
  | .write offset value :: cs, os => do
    let os ← os.write offset value
    run arrays hasTaint cs os
  | .read offset width :: cs, os => do
    let res ← os.read arrays hasTaint offset width
    let rest ← run arrays hasTaint cs res.2
    pure (res.1 :: rest.1, rest.2)

/-- The calls in turn on a flat array. -/
def flatRun (σ : Assignment) : List Call → (ℕ → BitVec 8) → List APInt
  | [], _ => []
  | .write offset value :: cs, m => flatRun σ cs (flatWrite m (offset.eval σ).toNat (value.eval σ))
  | .read offset width :: cs, m => flatRead m (offset.eval σ).toNat width :: flatRun σ cs m

theorem valueAt_eq {width : ℕ} (h : Represents σ os m) (hw : IsAccessWidth width)
    (hin : o + numBytes width ≤ os.size) : os.valueAt σ o width = flatRead m o width := by
  unfold valueAt flatRead
  split_ifs with hb
  · subst hb
    rw [h o (by simp [numBytes] at hin; omega)]
  · obtain ⟨n, hn, hn', -, -⟩ := bytes_of_isAccessWidth hw hb
    rw [hn]
    exact concatBytes_congr fun i hi => h (o + i) (by omega)

/-- What a run of calls does, for any array that has the bytes of the object. -/
theorem run_represents (ht : TaintSound hasTaint) (cs : List Call) (hv : os.Valid)
    (hok : ∀ c ∈ cs, c.Ok os.size) :
    ∃ es os', run arrays hasTaint cs os = .ok (es, os') ∧ os'.Valid ∧ os'.size = os.size ∧
      ∀ σ, (∀ c ∈ cs, c.InBounds σ os.size) → ∀ m, Represents σ os m →
        es.map (Expr.eval σ) = flatRun σ cs m := by
  induction cs generalizing os with
  | nil => exact ⟨[], os, rfl, hv, rfl, fun _ _ _ _ => rfl⟩
  | cons c cs ih =>
    have hc := hok c (by simp)
    cases c with
    | write offset value =>
      obtain ⟨os₁, h₁, hw⟩ := @write_writes os offset value hv hc.offset_wellTyped hc.offset_folded
        (hc.value_wellTyped offset value rfl) hc.width hc.bounds
      obtain ⟨es, os₂, h₂, hv₂, hs₂, hr₂⟩ := ih hw.valid fun c' hc' => by
        rw [hw.size]
        exact hok c' (by simp [hc'])
      refine ⟨es, os₂, ?_, hv₂, hs₂.trans hw.size, fun σ hσ m hm => ?_⟩
      · rw [run, h₁]
        exact h₂
      · refine hr₂ σ (fun c' hc' => ?_) _ (hw.represents σ (hσ (.write offset value) (by simp)) m hm)
        rw [hw.size]
        exact hσ c' (by simp [hc'])
    | read offset width =>
      obtain ⟨e, os₁, h₁, hr⟩ := @read_reads arrays hasTaint os offset width ht hv
        hc.offset_wellTyped hc.offset_folded hc.width hc.bounds
      obtain ⟨es, os₂, h₂, hv₂, hs₂, hr₂⟩ := ih hr.valid fun c' hc' => by
        rw [hr.same.size]
        exact hok c' (by simp [hc'])
      refine ⟨e :: es, os₂, ?_, hv₂, hs₂.trans hr.same.size, fun σ hσ m hm => ?_⟩
      · rw [run, h₁]
        simp only [bind, Except.bind, h₂]
        rfl
      · have hin : (offset.eval σ).toNat + numBytes width ≤ os.size := hσ (.read offset width) (by simp)
        have hwidth : IsAccessWidth width := hc.width
        rw [List.map_cons, flatRun, hr.eval σ hin, valueAt_eq hm hwidth hin,
          hr₂ σ (fun c' hc' => ?_) m (hm.same hr.same)]
        rw [hr.same.size]
        exact hσ c' (by simp [hc'])

/-- The bytes of an object under an assignment. -/
def contents (σ : Assignment) (os : ObjectState) (i : ℕ) : BitVec 8 := (os.value σ i).val.setWidth 8

theorem width_evalWrites {f : APInt → APInt} {ws : List (Expr × Expr)} {k : APInt}
    (hf : (f k).width = 8) (hw : ∀ w ∈ ws, IsByte w.2) : (evalWrites σ f ws k).width = 8 := by
  induction ws with
  | nil => exact hf
  | cons w ws ih =>
    simp only [evalWrites]
    split_ifs
    · have := hw w (by simp)
      exact (w.2.width_eval σ this.1).trans this.2
    · exact ih fun w' hw' => hw w' (by simp [hw'])

theorem represents_contents (hv : os.Valid) : Represents σ os (os.contents σ) := by
  intro i hi
  have hwidth : (os.value σ i).width = 8 := by
    unfold value
    cases he : os.cacheExpr i with
    | some e =>
      have := isByte_cacheExpr hv hi he
      exact (e.width_eval σ this.1).trans this.2
    | none =>
      refine width_evalWrites ?_ fun w hw => (hv.writes w hw).2
      unfold initialContents
      cases hr : os.root with
      | some root => exact root.width_initialValue σ _ (hv.root root hr)
      | none => rfl
  unfold contents
  generalize os.value σ i = v at hwidth ⊢
  obtain ⟨w, v⟩ := v
  obtain rfl : w = 8 := hwidth
  simp

/-- An object with concrete contents. -/
theorem valid_ofContents {address size : ℕ} {store : ℕ → BitVec 8} (hs : size < 2 ^ 32) :
    (ofContents address size store).Valid :=
  ⟨hs, fun _ _ => Status.cached_nice, fun _ _ _ h => (by cases h), fun _ h => (by cases h),
    fun _ h => (by cases h), fun _ _ h => (by cases h)⟩

/-- An object with symbolic contents. -/
theorem valid_ofArray {address size : ℕ} {array : KleeArray} (hs : size < 2 ^ 32)
    (ha : array.wellTyped = true) : (ofArray address size array).Valid := by
  obtain ⟨hf, -, hst⟩ := makeSymbolic_spec ⟨address, size, fun _ => 0, none, none, none, some array, []⟩
  have hsize : (ofArray address size array).size = size := hf.size
  have hstatus : ∀ i < size, (ofArray address size array).status i = ⟨false, true, none⟩ := hst
  have hnone : ∀ i < size, (ofArray address size array).cacheExpr i = none := by
    intro i hi
    rw [cacheExpr_eq, hstatus i hi]
    rfl
  have hwrites : (ofArray address size array).writes = [] := hf.writes
  have hroot : (ofArray address size array).root = some array := hf.root
  refine ⟨by rwa [hsize], fun i hi => ?_, fun i hi e h => ?_, by simp [hwrites], fun root h => ?_,
    fun i hi _ e h => ?_⟩
  · rw [hstatus i (hsize ▸ hi)]
    exact ⟨by simp, by simp, by simp⟩
  · have : ((ofArray address size array).status i).known = some e := h
    rw [hstatus i (hsize ▸ hi)] at this
    cases this
  · rw [hroot] at h
    cases h
    exact ha
  · rw [hnone i (hsize ▸ hi)] at h
    cases h

/-- Every run of reads and writes succeeds, keeps the cache invariants, and reads what the same
run reads on a flat array with the object's bytes. -/
theorem run_refines_flat (arrays : ConstArrays) (hasTaint : ObjectState → ℕ → ℕ → Bool)
    (ht : TaintSound hasTaint) (os : ObjectState) (hv : os.Valid) (cs : List Call)
    (hok : ∀ c ∈ cs, c.Ok os.size) :
    ∃ es os', run arrays hasTaint cs os = .ok (es, os') ∧ os'.Cached ∧ os'.Valid ∧
      ∀ σ, (∀ c ∈ cs, c.InBounds σ os.size) → es.map (Expr.eval σ) = flatRun σ cs (os.contents σ) := by
  obtain ⟨es, os', h, hv', -, hr⟩ := @run_represents arrays hasTaint os ht cs hv hok
  exact ⟨es, os', h, hv'.cached, hv', fun σ hσ => hr σ hσ _ (represents_contents hv)⟩

theorem run_refines_flat_symbolic_write :
    let byte := fun name => Expr.read (.root ⟨name, 1, 0, []⟩) (.alloc 0 32)
    let os := ofContents 0 4 fun _ => 7
    ∃ es os', run constArray (fun _ _ _ => true)
        [.write (byte "i") (byte "b"), .read (.alloc 0 64) Width.Int32] os = .ok (es, os') ∧
      es.map (Expr.eval fun _ _ => 1) = [APInt.ofNat 32 0x07070107] := by
  intro byte os
  obtain ⟨es, os', h, -, -, hr⟩ := run_refines_flat constArray (fun _ _ _ => true)
    (fun _ _ _ h => by cases h) os (valid_ofContents (by decide))
    [.write (byte "i") (byte "b"), .read (.alloc 0 64) Width.Int32] (by
      intro c hc
      simp only [List.mem_cons, List.not_mem_nil, or_false] at hc
      rcases hc with rfl | rfl
      · exact ⟨by decide, by decide, fun _ _ h => (by cases h; decide), by decide, fun k h => (by cases h)⟩
      · exact ⟨by decide, by decide, fun _ _ h => (by cases h), by decide, fun k h => (by cases h; decide)⟩)
  refine ⟨es, os', h, (hr _ ?_).trans (by decide +kernel)⟩
  intro c hc
  simp only [List.mem_cons, List.not_mem_nil, or_false] at hc
  rcases hc with rfl | rfl
  · show (APInt.toNat _ + _ ≤ _)
    decide
  · show (APInt.toNat _ + _ ≤ _)
    decide

end TaseVerifier.ObjectState
