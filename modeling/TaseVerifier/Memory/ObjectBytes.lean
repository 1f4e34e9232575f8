import TaseVerifier.Memory.Object

/-! What the operations of an object state do to each byte of it. A byte's status is what
the masks and the table of known symbolics say about it; every operation acts on the status
of a byte, and on the byte in the store, independently of the other bytes. -/

namespace TaseVerifier.ObjectState

/-- What the masks and the table of known symbolics say about a byte. -/
structure Status where
  concrete : Bool
  flushed : Bool
  known : Option Expr

def status (os : ObjectState) (i : ℕ) : Status := ⟨os.isByteConcrete i, os.isByteFlushed i, os.known i⟩

/-- The cache invariants. -/
structure Status.Cached (s : Status) : Prop where
  of_known : s.known.isSome = true → s.concrete = false
  of_concrete : s.concrete = true → s.known.isSome = false
  of_unflushed : s.flushed = false → s.concrete = true ∨ s.known.isSome = true

instance (s : Status) : Decidable s.Cached :=
  decidable_of_iff ((s.known.isSome = true → s.concrete = false) ∧
      (s.concrete = true → s.known.isSome = false) ∧
      (s.flushed = false → s.concrete = true ∨ s.known.isSome = true))
    ⟨fun ⟨h₁, h₂, h₃⟩ => ⟨h₁, h₂, h₃⟩, fun h => ⟨h.of_known, h.of_concrete, h.of_unflushed⟩⟩

/-- The byte has its value in the store. -/
def Status.nice : Status := ⟨true, false, none⟩

/-- The byte has its value in the table. -/
def Status.expr (value : Expr) : Status := ⟨false, false, some value⟩

theorem Status.cached_nice : Status.nice.Cached := ⟨by simp [nice], by simp [nice], by simp [nice]⟩

theorem Status.cached_expr (value : Expr) : (Status.expr value).Cached :=
  ⟨by simp [expr], by simp [expr], by simp [expr]⟩

/-- The cache invariants hold of every byte of the object. -/
def Cached (os : ObjectState) : Prop := ∀ i < os.size, (os.status i).Cached

instance (os : ObjectState) : Decidable os.Cached :=
  inferInstanceAs (Decidable (∀ i < os.size, (os.status i).Cached))

variable {arrays : ConstArrays} {os os' : ObjectState}

/-! ### Masks -/

theorem status_markByteConcrete (o i : ℕ) : (os.markByteConcrete o).status i =
    if i = o then { os.status i with concrete := true } else os.status i := by
  cases h : os.concreteMask <;>
    by_cases hi : i = o <;>
      simp [status, markByteConcrete, isByteConcrete, isByteFlushed, known, h, hi]

theorem status_markByteSymbolic (o i : ℕ) : (os.markByteSymbolic o).status i =
    if i = o then { os.status i with concrete := false } else os.status i := by
  cases h : os.concreteMask <;>
    by_cases hi : i = o <;>
      simp [status, markByteSymbolic, isByteConcrete, isByteFlushed, known, h, hi]

theorem status_markByteUnflushed (o i : ℕ) : (os.markByteUnflushed o).status i =
    if i = o then { os.status i with flushed := false } else os.status i := by
  cases h : os.flushMask <;>
    by_cases hi : i = o <;>
      simp [status, markByteUnflushed, isByteConcrete, isByteFlushed, known, h, hi]

theorem status_setKnownSymbolic (o i : ℕ) (value : Option Expr) :
    (os.setKnownSymbolic o value).status i =
      if i = o then { os.status i with known := value } else os.status i := by
  cases h : os.knownSymbolics <;> cases value <;>
    by_cases hi : i = o <;>
      simp [status, setKnownSymbolic, isByteConcrete, isByteFlushed, known, h, hi]

theorem status_needFlushMask (i : ℕ) : os.needFlushMask.status i = os.status i := by
  cases h : os.flushMask <;>
    simp [status, needFlushMask, isByteConcrete, isByteFlushed, known, h]

theorem status_unsetFlush (h : os.flushMask.isSome = true) (o i : ℕ) : (unsetFlush o os).status i =
    if i = o then { os.status i with flushed := true } else os.status i := by
  obtain ⟨mask, hm⟩ := Option.isSome_iff_exists.mp h
  by_cases hi : i = o <;>
    simp [status, unsetFlush, isByteConcrete, isByteFlushed, known, hm, hi]

/-- Only the table changes. -/
theorem setKnownSymbolic_eq (os : ObjectState) (o : ℕ) (value : Option Expr) :
    ∃ table, os.setKnownSymbolic o value = { os with knownSymbolics := table } := by
  obtain ⟨_, _, _, _, _, table, _, _⟩ := os
  cases table with
  | some table => exact ⟨_, rfl⟩
  | none =>
    cases value with
    | some value => exact ⟨_, rfl⟩
    | none => exact ⟨none, rfl⟩

/-! ### Bytes -/

/-- The operations on bytes change the store and the masks only. -/
structure Frame (os os' : ObjectState) : Prop where
  address : os'.address = os.address
  size : os'.size = os.size
  root : os'.root = os.root
  writes : os'.writes = os.writes

theorem Frame.refl (os : ObjectState) : Frame os os := ⟨rfl, rfl, rfl, rfl⟩

theorem Frame.trans {os₁ os₂ os₃ : ObjectState} (h : Frame os₁ os₂) (h' : Frame os₂ os₃) :
    Frame os₁ os₃ :=
  ⟨h'.address.trans h.address, h'.size.trans h.size, h'.root.trans h.root, h'.writes.trans h.writes⟩

theorem status_write8 (o i : ℕ) (v : BitVec 8) :
    (os.write8 o v).status i = if i = o then Status.nice else os.status i := by
  simp only [write8, status_markByteUnflushed, status_markByteConcrete, status_setKnownSymbolic]
  split_ifs <;> rfl

theorem store_write8 (o : ℕ) (v : BitVec 8) : (os.write8 o v).store = Function.update os.store o v := by
  obtain ⟨table, h⟩ := setKnownSymbolic_eq { os with store := Function.update os.store o v } o none
  simp [write8, markByteUnflushed, markByteConcrete, h]

theorem frame_write8 (o : ℕ) (v : BitVec 8) : Frame os (os.write8 o v) := by
  obtain ⟨table, h⟩ := setKnownSymbolic_eq { os with store := Function.update os.store o v } o none
  constructor <;> simp [write8, markByteUnflushed, markByteConcrete, h]

theorem status_write8AsExpr (o i : ℕ) (e : Expr) :
    (os.write8AsExpr o e).status i = if i = o then Status.expr e else os.status i := by
  simp only [write8AsExpr, status_markByteUnflushed, status_markByteSymbolic, status_setKnownSymbolic]
  split_ifs <;> rfl

theorem store_write8AsExpr (o : ℕ) (e : Expr) : (os.write8AsExpr o e).store = os.store := by
  obtain ⟨table, h⟩ := setKnownSymbolic_eq os o (some e)
  simp [write8AsExpr, markByteUnflushed, markByteSymbolic, h]

theorem frame_write8AsExpr (o : ℕ) (e : Expr) : Frame os (os.write8AsExpr o e) := by
  obtain ⟨table, h⟩ := setKnownSymbolic_eq os o (some e)
  constructor <;> simp [write8AsExpr, markByteUnflushed, markByteSymbolic, h]

/-- The update list is all that changes when its root is made. -/
theorem getUpdates_eq (os : ObjectState) : ∃ root writes,
    (os.getUpdates arrays).2 = { os with root := root, writes := writes } := by
  obtain ⟨_, _, _, _, _, _, root, _⟩ := os
  cases root with
  | some root => exact ⟨_, _, rfl⟩
  | none => exact ⟨_, _, rfl⟩

theorem read8_eq {o : ℕ} {e : Expr} (h : os.read8 arrays o = .ok (e, os')) :
    ∃ root writes, os' = { os with root := root, writes := writes } := by
  unfold read8 at h
  cases hc : os.isByteConcrete o with
  | true =>
    rw [hc] at h
    cases h
    exact ⟨_, _, rfl⟩
  | false =>
    cases hk : os.known o with
    | some value =>
      simp only [hc, hk] at h
      cases h
      exact ⟨_, _, rfl⟩
    | none =>
      cases hf : os.isByteFlushed o with
      | true =>
        simp only [hc, hk, hf] at h
        cases h
        exact getUpdates_eq os
      | false =>
        simp only [hc, hk, hf] at h
        cases h

/-! ### Writes at constant offsets -/

/-- Where `write8` puts a byte. -/
def Status.ofByte : Expr → Status
  | .constant _ => .nice
  | e => .expr e

/-- What `write8` leaves in the store, over the byte that was there. -/
def storedByte : Expr → BitVec 8 → BitVec 8
  | .constant c, _ => c.val.setWidth 8
  | _, v => v

theorem Status.cached_ofByte (e : Expr) : (Status.ofByte e).Cached := by
  cases e <;> first | exact Status.cached_nice | exact Status.cached_expr _

theorem Status.flushed_ofByte (e : Expr) : (Status.ofByte e).flushed = false := by
  cases e <;> rfl

theorem status_write8Expr (o i : ℕ) (e : Expr) :
    (os.write8Expr o e).status i = if i = o then Status.ofByte e else os.status i := by
  cases e <;> first | exact status_write8 _ _ _ | exact status_write8AsExpr _ _ _

theorem store_write8Expr (o : ℕ) (e : Expr) :
    (os.write8Expr o e).store = Function.update os.store o (storedByte e (os.store o)) := by
  cases e <;> first
    | exact store_write8 _ _
    | exact (store_write8AsExpr _ _).trans (Function.update_eq_self _ _).symm

theorem frame_write8Expr (o : ℕ) (e : Expr) : Frame os (os.write8Expr o e) := by
  cases e <;> first | exact frame_write8 _ _ | exact frame_write8AsExpr _ _

/-- The bytes of a value in turn. -/
def writeBytes (o n : ℕ) (byte : ℕ → Expr) (os : ObjectState) : ObjectState :=
  (List.range n).foldl (fun os i => write8Expr (o + i) (byte i) os) os

variable {byte : ℕ → Expr}

theorem writeBytes_succ (o n : ℕ) (os : ObjectState) :
    os.writeBytes o (n + 1) byte = (os.writeBytes o n byte).write8Expr (o + n) (byte n) := by
  simp [writeBytes, List.range_succ]

theorem status_writeBytes (o n i : ℕ) : (os.writeBytes o n byte).status i =
    if o ≤ i ∧ i < o + n then Status.ofByte (byte (i - o)) else os.status i := by
  induction n with
  | zero =>
    rw [if_neg (by omega)]
    rfl
  | succ n ih =>
    rw [writeBytes_succ, status_write8Expr, ih]
    by_cases hi : i = o + n
    · simp [hi]
    · simp only [if_neg hi, show (o ≤ i ∧ i < o + (n + 1)) ↔ (o ≤ i ∧ i < o + n) by omega]

theorem store_writeBytes (o n i : ℕ) : (os.writeBytes o n byte).store i =
    if o ≤ i ∧ i < o + n then storedByte (byte (i - o)) (os.store i) else os.store i := by
  induction n with
  | zero =>
    rw [if_neg (by omega)]
    rfl
  | succ n ih =>
    rw [writeBytes_succ, store_write8Expr]
    by_cases hi : i = o + n
    · subst hi
      rw [if_neg (by omega)] at ih
      simp [ih]
    · rw [Function.update_of_ne hi, ih]
      simp only [show (o ≤ i ∧ i < o + (n + 1)) ↔ (o ≤ i ∧ i < o + n) by omega]

theorem frame_writeBytes (o n : ℕ) : Frame os (os.writeBytes o n byte) := by
  induction n with
  | zero => exact .refl os
  | succ n ih =>
    rw [writeBytes_succ]
    exact ih.trans (frame_write8Expr _ _)

theorem Cached.writeBytes (h : os.Cached) (o n : ℕ) : (os.writeBytes o n byte).Cached := by
  intro i hi
  rw [status_writeBytes]
  split_ifs
  · exact Status.cached_ofByte _
  · exact h i (by rwa [(frame_writeBytes o n).size] at hi)

/-- The widths that `read` and `write` take. -/
def IsAccessWidth (w : ℕ) : Prop :=
  w = Width.Bool ∨ w = Width.Int8 ∨ w = Width.Int16 ∨ w = Width.Int32 ∨ w = Width.Int64

instance (w : ℕ) : Decidable (IsAccessWidth w) := inferInstanceAs (Decidable (_ ∨ _))

def numBytes (w : ℕ) : ℕ := if w = Width.Bool then 1 else w / 8

theorem numBytes_pos {w : ℕ} (hw : IsAccessWidth w) : 0 < numBytes w := by
  rcases hw with rfl | rfl | rfl | rfl | rfl <;> decide

/-- Byte `i` of a value; a boolean is one byte. -/
def valueByte (value : Expr) (i : ℕ) : Expr :=
  if value.getWidth = Width.Bool then ZExtExpr.create value Width.Int8
  else ExtractExpr.create value (8 * i) Width.Int8

theorem writeBytes_congr {byte' : ℕ → Expr} (o n : ℕ) (os : ObjectState)
    (h : ∀ i < n, byte i = byte' i) :
    os.writeBytes o n byte = os.writeBytes o n byte' := by
  induction n with
  | zero => rfl
  | succ n ih => rw [writeBytes_succ, writeBytes_succ, ih fun i hi => h i (by omega), h n (by omega)]

theorem write8Expr_constant (o : ℕ) (v : BitVec 8) (os : ObjectState) :
    os.write8Expr o (.constant ⟨8, v⟩) = os.write8 o v := by
  simp [write8Expr]

theorem writeValue_eq {c : APInt} (hc : c.width ≠ Width.Int8) (o : ℕ) (os : ObjectState) :
    os.writeValue o c =
      os.writeBytes o (c.width / 8) fun i => ExtractExpr.create (.constant c) (8 * i) Width.Int8 := by
  have h : os.writeValue o c =
      os.writeBytes o (c.width / 8) fun i => .constant ⟨8, c.val.extractLsb' (8 * i) 8⟩ := by
    simp only [writeValue, writeBytes, write8Expr_constant]
  rw [h]
  refine writeBytes_congr o _ os fun i hi => ?_
  have hne : ¬ Width.Int8 = (Expr.constant c).getWidth := fun h => hc h.symm
  simp only [ExtractExpr.create, ExtractExpr.height, ExtractExpr.createF, if_neg hne,
    ConstantExpr.Extract]
  rw [show Width.Int8 = 8 from rfl, APInt.sshiftRight_setWidth c.val (by omega)]

theorem writeExpr_eq {value : Expr} (hw : IsAccessWidth value.getWidth) (o : ℕ) (os : ObjectState) :
    os.writeExpr o value = .ok (os.writeBytes o (numBytes value.getWidth) (valueByte value)) := by
  by_cases hb : value.getWidth = Width.Bool
  · simp [writeExpr, writeBytes, numBytes, valueByte, hb, pure, Except.pure]
  · have h8 : value.getWidth % 8 = 0 := by
      rcases hw with h | h | h | h | h <;> simp_all [Width.Bool, Width.Int8, Width.Int16,
        Width.Int32, Width.Int64]
    have hbyte : valueByte value = fun i => ExtractExpr.create value (8 * i) Width.Int8 := by
      funext i
      exact if_neg hb
    simp [writeExpr, writeBytes, numBytes, hb, h8, hbyte, pure, Except.pure]

/-- A value is written byte by byte, whether it is constant or not. -/
theorem writeConstant_eq {value : Expr} (hw : IsAccessWidth value.getWidth) (o : ℕ)
    (os : ObjectState) :
    os.writeConstant o value = .ok (os.writeBytes o (numBytes value.getWidth) (valueByte value)) := by
  cases value with
  | constant c =>
    rcases c with ⟨w, v⟩
    simp only [Expr.getWidth] at hw ⊢
    rcases hw with rfl | rfl | rfl | rfl | rfl
    · exact congrArg Except.ok (write8Expr_constant o (v.setWidth 8) os).symm
    · rfl
    · exact congrArg Except.ok (writeValue_eq (show Width.Int16 ≠ Width.Int8 by decide) o os)
    · exact congrArg Except.ok (writeValue_eq (show Width.Int32 ≠ Width.Int8 by decide) o os)
    · exact congrArg Except.ok (writeValue_eq (show Width.Int64 ≠ Width.Int8 by decide) o os)
  | _ => exact writeExpr_eq hw o os

/-! ### Flushes -/

def Status.flushForRead (s : Status) : Status := { s with flushed := true }

def Status.markOut (s : Status) : Status :=
  ⟨false, s.flushed, if s.concrete then s.known else none⟩

def Status.flushForWrite (s : Status) : Status := { s.markOut with flushed := true }

/-- A flush adds nodes to the update list and acts on the statuses of the bytes in the list. -/
structure Flushed (act : Status → Status) (bytes : List ℕ) (os os' : ObjectState) : Prop where
  address : os'.address = os.address
  size : os'.size = os.size
  store : os'.store = os.store
  root : os'.root = os.root
  mask : os'.flushMask.isSome = true
  status : ∀ i, os'.status i = if i ∈ bytes then act (os.status i) else os.status i

theorem status_extend (index value : Expr) (i : ℕ) : (os.extend index value).status i = os.status i :=
  rfl

/-- The value of a byte in the cache. -/
def cacheExpr (os : ObjectState) (i : ℕ) : Option Expr :=
  if os.isByteConcrete i then some (.constant ⟨8, os.store i⟩) else os.known i

/-- The node that a flush adds for a byte. -/
def flushNode (o : ℕ) (value : Expr) (os : ObjectState) : ObjectState :=
  unsetFlush o (os.extend (.alloc o 32) value)

/-- A byte that is about to be written over leaves the cache. -/
def markOut (o : ℕ) (os : ObjectState) : ObjectState :=
  if os.isByteConcrete o then os.markByteSymbolic o else os.setKnownSymbolic o none

theorem flushByteForRead_eq (o : ℕ) (os : ObjectState) : os.flushByteForRead o =
    if os.isByteFlushed o then .ok os
    else match os.cacheExpr o with
      | some value => .ok (flushNode o value os)
      | none => .error .flushMask := by
  unfold flushByteForRead cacheExpr
  cases os.isByteFlushed o <;> cases os.isByteConcrete o <;> cases os.known o <;> rfl

theorem setKnownSymbolic_none {o : ℕ} (h : os.known o = none) : os.setKnownSymbolic o none = os := by
  obtain ⟨_, _, _, _, _, table, _, _⟩ := os
  cases table with
  | none => rfl
  | some table =>
    have ht : table o = none := h
    simp [setKnownSymbolic, ← ht]

theorem flushByteForWrite_eq (o : ℕ) (os : ObjectState) : os.flushByteForWrite o =
    if os.isByteFlushed o then .ok (os.markOut o)
    else match os.cacheExpr o with
      | some value => .ok (unsetFlush o ((os.extend (.alloc o 32) value).markOut o))
      | none => .error .flushMask := by
  have he : ∀ value, (os.extend (.alloc o 32) value).isByteConcrete o = os.isByteConcrete o :=
    fun _ => rfl
  unfold flushByteForWrite cacheExpr markOut isByteKnownSymbolic
  simp only [he]
  cases os.isByteFlushed o <;> cases os.isByteConcrete o <;> cases hk : os.known o <;>
    simp [pure, Except.pure, throw, throwThe, MonadExceptOf.throw, setKnownSymbolic_none, hk]

theorem status_markOut (o i : ℕ) :
    (os.markOut o).status i = if i = o then (os.status i).markOut else os.status i := by
  unfold markOut
  cases hc : os.isByteConcrete o with
  | true =>
    rw [if_pos rfl, status_markByteSymbolic]
    by_cases hi : i = o
    · simp [hi, status, hc, Status.markOut]
    · simp [hi]
  | false =>
    rw [if_neg (by simp), status_setKnownSymbolic]
    by_cases hi : i = o
    · simp [hi, status, hc, Status.markOut]
    · simp [hi]

theorem markOut_eq (os : ObjectState) (o : ℕ) :
    ∃ mask table, os.markOut o = { os with concreteMask := mask, knownSymbolics := table } := by
  unfold markOut
  split_ifs with hc
  · exact ⟨_, os.knownSymbolics, rfl⟩
  · obtain ⟨table, ht⟩ := setKnownSymbolic_eq os o none
    exact ⟨os.concreteMask, table, ht⟩

theorem flushed_flushNode {o : ℕ} (hm : os.flushMask.isSome = true) (value : Expr) :
    Flushed Status.flushForRead [o] os (os.flushNode o value) := by
  refine ⟨rfl, rfl, rfl, rfl, by simpa [flushNode, unsetFlush, extend] using hm, fun i => ?_⟩
  have h : (os.extend (.alloc o 32) value).flushMask.isSome = true := hm
  rw [flushNode, status_unsetFlush h, status_extend]
  simp [Status.flushForRead]

theorem flushByteForRead_effect {o : ℕ} (hm : os.flushMask.isSome = true)
    (h : os.flushByteForRead o = .ok os') : Flushed Status.flushForRead [o] os os' := by
  rw [flushByteForRead_eq] at h
  split_ifs at h with hf
  · cases h
    refine ⟨rfl, rfl, rfl, rfl, hm, fun i => ?_⟩
    split_ifs with hi
    · obtain rfl := List.mem_singleton.mp hi
      simp [status, Status.flushForRead, hf]
    · rfl
  · split at h
    · cases h
      exact flushed_flushNode hm _
    · cases h

theorem flushByteForWrite_effect {o : ℕ} (hm : os.flushMask.isSome = true)
    (h : os.flushByteForWrite o = .ok os') : Flushed Status.flushForWrite [o] os os' := by
  rw [flushByteForWrite_eq] at h
  split_ifs at h with hf
  · cases h
    obtain ⟨mask, table, ho⟩ := markOut_eq os o
    refine ⟨by rw [ho], by rw [ho], by rw [ho], by rw [ho], by rw [ho]; exact hm, fun i => ?_⟩
    rw [status_markOut]
    by_cases hi : i = o
    · simp [hi, Status.flushForWrite, Status.markOut, status, hf]
    · simp [hi]
  · split at h
    next value hv =>
      cases h
      obtain ⟨mask, table, ho⟩ := markOut_eq (os.extend (.alloc o 32) value) o
      have hm' : ((os.extend (.alloc o 32) value).markOut o).flushMask.isSome = true := by
        rw [ho]
        exact hm
      refine ⟨by rw [ho]; rfl, by rw [ho]; rfl, by rw [ho]; rfl, by rw [ho]; rfl,
        by simpa [unsetFlush] using hm', fun i => ?_⟩
      rw [status_unsetFlush hm', status_markOut, status_extend]
      simp only [List.mem_singleton]
      split_ifs <;> rfl
    · cases h

/-- A loop over distinct bytes acts on each of them once. -/
theorem flushed_foldlM {act : Status → Status} {flush : ObjectState → ℕ → Except Failure ObjectState}
    (hflush : ∀ {os os' o}, os.flushMask.isSome = true → flush os o = .ok os' → Flushed act [o] os os')
    {bytes : List ℕ} (hn : bytes.Nodup) {os : ObjectState} (hm : os.flushMask.isSome = true)
    (h : bytes.foldlM flush os = .ok os') : Flushed act bytes os os' := by
  induction bytes generalizing os with
  | nil =>
    cases h
    exact ⟨rfl, rfl, rfl, rfl, hm, fun i => by simp⟩
  | cons o bytes ih =>
    rw [List.foldlM_cons] at h
    cases h₁ : flush os o with
    | error e =>
      rw [h₁] at h
      cases h
    | ok os₁ =>
      rw [h₁] at h
      have f₁ := hflush hm h₁
      have f₂ := ih (List.nodup_cons.mp hn).2 f₁.mask h
      refine ⟨f₂.address.trans f₁.address, f₂.size.trans f₁.size, f₂.store.trans f₁.store,
        f₂.root.trans f₁.root, f₂.mask, fun i => ?_⟩
      rw [f₂.status, f₁.status]
      by_cases hi : i = o
      · subst hi
        simp [(List.nodup_cons.mp hn).1]
      · simp [hi]

/-- The mask that a flush makes says what its absence said. -/
theorem Flushed.of_needFlushMask {act : Status → Status} {bytes : List ℕ}
    (h : Flushed act bytes os.needFlushMask os') : Flushed act bytes os os' :=
  ⟨h.address, h.size, h.store, h.root, h.mask, fun i => by rw [h.status, status_needFlushMask]⟩

theorem flushRangeForRead_effect {b n : ℕ} (h : os.flushRangeForRead b n = .ok os') :
    Flushed Status.flushForRead (List.range' b n) os os' :=
  .of_needFlushMask (flushed_foldlM flushByteForRead_effect List.nodup_range' rfl h)

theorem flushRangeForWrite_effect {b n : ℕ} (h : os.flushRangeForWrite b n = .ok os') :
    Flushed Status.flushForWrite (List.range' b n) os os' :=
  .of_needFlushMask (flushed_foldlM flushByteForWrite_effect List.nodup_range' rfl h)

/-! ### New objects -/

theorem flushed_markByteFlushed (o i : ℕ) (h : i = o ∨ os.isByteFlushed i = true) :
    (os.markByteFlushed o).isByteFlushed i = true := by
  unfold markByteFlushed isByteFlushed at *
  cases hm : os.flushMask with
  | none => rfl
  | some mask =>
    simp only [hm] at h ⊢
    by_cases hi : i = o
    · simp [hi]
    · simpa [Function.update_of_ne hi] using h.resolve_left hi

theorem makeByteSymbolic_spec (os : ObjectState) (o : ℕ) : Frame os (os.makeByteSymbolic o) ∧
    (os.makeByteSymbolic o).store = os.store ∧ ∀ i, (i = o ∨ os.status i = ⟨false, true, none⟩) →
      (os.makeByteSymbolic o).status i = ⟨false, true, none⟩ := by
  obtain ⟨table, ht⟩ := setKnownSymbolic_eq (os.markByteSymbolic o) o none
  set os₁ := (os.markByteSymbolic o).setKnownSymbolic o none with hos₁
  have hf : Frame (os.markByteSymbolic o) os₁ := by
    rw [ht]
    exact ⟨rfl, rfl, rfl, rfl⟩
  have hs : os₁.store = os.store := by
    rw [ht]
    rfl
  refine ⟨⟨hf.address, hf.size, hf.root, hf.writes⟩, hs, fun i hi => ?_⟩
  have hstatus : os₁.status i =
      if i = o then ⟨false, os.isByteFlushed i, none⟩ else os.status i := by
    rw [hos₁, status_setKnownSymbolic, status_markByteSymbolic]
    split_ifs <;> rfl
  have hflush : (os₁.markByteFlushed o).isByteFlushed i = true := by
    refine flushed_markByteFlushed o i (or_iff_not_imp_left.mpr fun hio => ?_)
    rw [if_neg hio, hi.resolve_left hio] at hstatus
    exact congrArg Status.flushed hstatus
  have hcache : (os₁.status i).concrete = false ∧ (os₁.status i).known = none := by
    rw [hstatus]
    by_cases hio : i = o
    · simp [hio]
    · simp [hio, hi.resolve_left hio]
  calc (os.makeByteSymbolic o).status i
      = ⟨(os₁.status i).concrete, (os₁.markByteFlushed o).isByteFlushed i, (os₁.status i).known⟩ := rfl
    _ = ⟨false, true, none⟩ := by rw [hcache.1, hcache.2, hflush]

theorem makeSymbolic_spec (os : ObjectState) : Frame os os.makeSymbolic ∧
    os.makeSymbolic.store = os.store ∧
      ∀ i < os.size, os.makeSymbolic.status i = ⟨false, true, none⟩ := by
  suffices h : ∀ n, Frame os ((List.range n).foldl makeByteSymbolic os) ∧
      ((List.range n).foldl makeByteSymbolic os).store = os.store ∧
      ∀ i < n, ((List.range n).foldl makeByteSymbolic os).status i = ⟨false, true, none⟩ from
    h os.size
  intro n
  induction n with
  | zero => exact ⟨.refl os, rfl, by simp⟩
  | succ n ih =>
    obtain ⟨hf, hs, hst⟩ := ih
    obtain ⟨hf', hs', hst'⟩ := makeByteSymbolic_spec ((List.range n).foldl makeByteSymbolic os) n
    rw [List.range_succ, List.foldl_append]
    refine ⟨hf.trans hf', hs'.trans hs, fun i hi => hst' i ?_⟩
    by_cases hin : i = n
    · exact .inl hin
    · exact .inr (hst i (by omega))

/-- Arrays that are all called alike. -/
def constArray : ConstArrays where
  createArray size contents := ⟨"const_arr1", size, 0, contents⟩
  size_createArray _ _ := rfl
  values_createArray _ _ := rfl

end TaseVerifier.ObjectState
