import TaseVerifier.Memory.ObjectBytes
import TaseVerifier.Expr.Folded

/-! The value of each byte of an object under an assignment. A byte has its value in the
cache, or else in the update list; while it is flushed the two agree. Reads, flushes and
the construction of the root array keep the values, and a write changes those it writes. -/

namespace TaseVerifier.ObjectState

variable {arrays : ConstArrays} {os os' : ObjectState} {σ : Assignment} {i o : ℕ}

/-! ### Values -/

/-- The cell at an index, over the contents that the writes start from. -/
def evalWrites (σ : Assignment) (initial : APInt → APInt) : List (Expr × Expr) → APInt → APInt
  | [], i => initial i
  | (index, value) :: writes, i =>
    if index.eval σ = i then value.eval σ else evalWrites σ initial writes i

/-- The contents below all writes; an object whose root is not made yet starts from zeros. -/
def initialContents (σ : Assignment) (os : ObjectState) (i : APInt) : APInt :=
  match os.root with
  | some root => root.initialValue σ i.toNat
  | none => APInt.ofNat 8 0

/-- The value of a byte in the update list. -/
def updateValue (σ : Assignment) (os : ObjectState) (i : ℕ) : APInt :=
  evalWrites σ (os.initialContents σ) os.writes (APInt.ofNat 32 i)

/-- The value of a byte. -/
def value (σ : Assignment) (os : ObjectState) (i : ℕ) : APInt :=
  match os.cacheExpr i with
  | some e => e.eval σ
  | none => os.updateValue σ i

/-- Expressions of one byte. -/
def IsByte (e : Expr) : Prop := e.wellTyped = true ∧ e.getWidth = Width.Int8

/-- Expressions that index an array. -/
def IsIndex (e : Expr) : Prop := e.wellTyped = true ∧ e.getWidth = Width.Int32

/-- What holds of every object state: offsets fit in 32 bits, the cache invariants hold, the
expressions are well typed, and a flushed byte has the same value in the cache and in the
update list. -/
structure Valid (os : ObjectState) : Prop where
  size_lt : os.size < 2 ^ 32
  cached : os.Cached
  isByte : ∀ i < os.size, ∀ e, os.known i = some e → IsByte e
  writes : ∀ w ∈ os.writes, IsIndex w.1 ∧ IsByte w.2
  root : ∀ root, os.root = some root → root.wellTyped = true
  flushed : ∀ i < os.size, os.isByteFlushed i = true → ∀ e, os.cacheExpr i = some e →
    ∀ σ, e.eval σ = os.updateValue σ i

/-- The two states have the same size and the same values. -/
structure SameValues (os os' : ObjectState) : Prop where
  size : os'.size = os.size
  value : ∀ σ, ∀ i < os.size, os'.value σ i = os.value σ i

theorem SameValues.refl (os : ObjectState) : SameValues os os := ⟨rfl, fun _ _ _ => rfl⟩

theorem SameValues.trans {os₁ os₂ os₃ : ObjectState} (h : SameValues os₁ os₂) (h' : SameValues os₂ os₃) :
    SameValues os₁ os₃ :=
  ⟨h'.size.trans h.size, fun σ i hi => (h'.value σ i (by rwa [h.size])).trans (h.value σ i hi)⟩

theorem evalWrites_congr {f g : APInt → APInt} {k : APInt} (h : f k = g k) (writes : List (Expr × Expr)) :
    evalWrites σ f writes k = evalWrites σ g writes k := by
  induction writes with
  | nil => exact h
  | cons w writes ih => simp only [evalWrites, ih]

theorem evalWrites_append (f : APInt → APInt) (ws ws' : List (Expr × Expr)) (k : APInt) :
    evalWrites σ f (ws ++ ws') k = evalWrites σ (evalWrites σ f ws') ws k := by
  induction ws with
  | nil => rfl
  | cons w ws ih => simp only [List.cons_append, evalWrites, ih]

theorem evalRead_toUpdates (root : KleeArray) (writes : List (Expr × Expr)) (k : APInt) :
    (toUpdates root writes).evalRead σ k =
      evalWrites σ (fun k => root.initialValue σ k.toNat) writes k := by
  induction writes with
  | nil => rfl
  | cons w writes ih => simp only [toUpdates, UpdateList.extend, UpdateList.evalRead, evalWrites, ih]

theorem wellTyped_toUpdates {root : KleeArray} {writes : List (Expr × Expr)}
    (hr : root.wellTyped = true) (hw : ∀ w ∈ writes, IsIndex w.1 ∧ IsByte w.2) :
    (toUpdates root writes).wellTyped = true := by
  induction writes with
  | nil => exact hr
  | cons w writes ih =>
    obtain ⟨⟨h₁, h₂⟩, h₃, h₄⟩ := hw w (by simp)
    have := ih fun u hu => hw u (by simp [hu])
    simp [toUpdates, UpdateList.extend, UpdateList.wellTyped, h₁, h₂, h₃, h₄, this]

theorem toNat_ofNat (hi : i < 2 ^ 32) : (APInt.ofNat 32 i).toNat = i := by
  rw [APInt.ofNat, APInt.toNat, BitVec.toNat_ofNat, Nat.mod_eq_of_lt hi]

theorem ofNat_inj {j : ℕ} (hi : i < 2 ^ 32) (hj : j < 2 ^ 32) :
    APInt.ofNat 32 i = APInt.ofNat 32 j ↔ i = j := by
  constructor
  · intro h
    rw [← toNat_ofNat hi, h, toNat_ofNat hj]
  · rintro rfl
    rfl

theorem ofNat_toNat {c : APInt} (hc : c.width = 32) : APInt.ofNat 32 c.toNat = c := by
  obtain ⟨w, v⟩ := c
  obtain rfl : w = 32 := hc
  simp [APInt.ofNat, APInt.toNat]

/-! ### The root array -/

/-- The contents of a constant array at an index. -/
def contentsAt (contents : List APInt) (k : APInt) : APInt := contents[k.toNat]?.getD (APInt.ofNat 8 0)

theorem pullConstants_spec (ws : List (Expr × Expr)) (contents : List APInt)
    (hws : ∀ w ∈ ws, IsIndex w.1 ∧ IsByte w.2) (hc : ∀ c ∈ contents, c.width = 8) :
    (pullConstants ws contents).1.length = contents.length ∧
      (∀ c ∈ (pullConstants ws contents).1, c.width = 8) ∧
      (∀ w ∈ (pullConstants ws contents).2, w ∈ ws) ∧
      ∀ σ i, i < contents.length → i < 2 ^ 32 →
        evalWrites σ (contentsAt (pullConstants ws contents).1) (pullConstants ws contents).2.reverse
            (APInt.ofNat 32 i) =
          evalWrites σ (contentsAt contents) ws.reverse (APInt.ofNat 32 i) := by
  fun_induction pullConstants ws contents with
  | case1 index value writes contents ih =>
    obtain ⟨hindex, hvalue⟩ := hws (.constant index, .constant value) (by simp)
    obtain ⟨hl, hw, hmem, hval⟩ := ih (fun w hw => hws w (by simp [hw])) fun c hc' => by
      rcases List.mem_or_eq_of_mem_set hc' with h | rfl
      · exact hc c h
      · exact hvalue.2
    refine ⟨by simpa using hl, hw, fun w hw => by simp [hmem w hw], fun σ i hi hi' => ?_⟩
    rw [hval σ i (by simpa using hi) hi', List.reverse_cons, evalWrites_append]
    refine evalWrites_congr ?_ _
    have hiff : index = APInt.ofNat 32 i ↔ index.toNat = i := by
      have hw : index.width = 32 := hindex.2
      have hlt : index.toNat < 2 ^ 32 := hw ▸ index.val.isLt
      rw [← ofNat_inj hlt hi', ofNat_toNat hw]
    simp only [evalWrites, contentsAt, Expr.eval, toNat_ofNat hi', hiff, List.getElem?_set]
    by_cases hii : index.toNat = i
    · simp [hii, hi]
    · simp [hii]
  | case2 writes contents h => exact ⟨rfl, hc, fun _ h => h, fun _ _ _ _ => rfl⟩

/-- The update list has the values that the object has there, whether or not its root was made. -/
theorem getUpdates_spec (hv : os.Valid) :
    (os.getUpdates arrays).1.wellTyped = true ∧ (os.getUpdates arrays).2.Valid ∧
      SameValues os (os.getUpdates arrays).2 ∧
      ∀ σ, ∀ i < os.size,
        (os.getUpdates arrays).1.evalRead σ (APInt.ofNat 32 i) = os.updateValue σ i := by
  cases hr : os.root with
  | some root =>
    have hg : os.getUpdates arrays = (toUpdates root os.writes, os) := by simp [getUpdates, hr]
    rw [hg]
    refine ⟨wellTyped_toUpdates (hv.root root hr) hv.writes, hv, .refl os, fun σ i hi => ?_⟩
    rw [evalRead_toUpdates, updateValue]
    exact evalWrites_congr (by simp [initialContents, hr]) _
  | none =>
    obtain ⟨hl, hw, hmem, hval⟩ := pullConstants_spec os.writes.reverse
      (List.replicate os.size (APInt.ofNat Width.Int8 0)) (fun w hw => hv.writes w (by simpa using hw))
      fun c hc => by rw [List.eq_of_mem_replicate hc]; rfl
    set p := pullConstants os.writes.reverse (List.replicate os.size (APInt.ofNat Width.Int8 0)) with hp
    have hg : os.getUpdates arrays = (toUpdates (arrays.createArray os.size p.1) p.2.reverse,
        { os with root := some (arrays.createArray os.size p.1), writes := p.2.reverse }) := by
      simp [getUpdates, hr, ← hp]
    rw [List.length_replicate] at hl hval
    have hwt : (arrays.createArray os.size p.1).wellTyped = true := by
      simp only [KleeArray.wellTyped, arrays.values_createArray, arrays.size_createArray, hl]
      simpa [Width.Int8] using hw
    have hwrites : ∀ w ∈ p.2.reverse, IsIndex w.1 ∧ IsByte w.2 := fun w hw' =>
      hv.writes w (by simpa using hmem w (by simpa using hw'))
    have hupd : ∀ σ, ∀ i < os.size, evalWrites σ
        (fun k => (arrays.createArray os.size p.1).initialValue σ k.toNat) p.2.reverse (APInt.ofNat 32 i) =
        os.updateValue σ i := by
      intro σ i hi
      have hi' : i < 2 ^ 32 := lt_trans hi hv.size_lt
      have hne : (arrays.createArray os.size p.1).isSymbolicArray = false := by
        simp only [KleeArray.isSymbolicArray, arrays.values_createArray, List.isEmpty_eq_false_iff]
        rintro hnil
        rw [hnil] at hl
        simp at hl
        omega
      have hinit : ∀ k, (arrays.createArray os.size p.1).initialValue σ k.toNat = contentsAt p.1 k := by
        intro k
        simp [KleeArray.initialValue, hne, contentsAt, arrays.values_createArray]
      simp only [hinit]
      rw [hval σ i hi hi', List.reverse_reverse, updateValue]
      refine evalWrites_congr ?_ _
      simp [contentsAt, toNat_ofNat hi', hi, initialContents, hr, Width.Int8]
    rw [hg]
    have hsame : ∀ σ, ∀ i < os.size, updateValue σ { os with
        root := some (arrays.createArray os.size p.1), writes := p.2.reverse } i = os.updateValue σ i :=
      fun σ i hi => hupd σ i hi
    refine ⟨wellTyped_toUpdates hwt hwrites, ⟨hv.size_lt, hv.cached, hv.isByte, hwrites, ?_, ?_⟩,
      ⟨rfl, fun σ i hi => ?_⟩, fun σ i hi => by rw [evalRead_toUpdates]; exact hupd σ i hi⟩
    · rintro root ⟨⟩
      exact hwt
    · intro i hi hf e he σ
      rw [hsame σ i hi]
      exact hv.flushed i hi hf e he σ
    · unfold value
      rw [hsame σ i hi]
      rfl

/-! ### Flushes -/

theorem cacheExpr_eq (i : ℕ) : os.cacheExpr i =
    if (os.status i).concrete then some (.constant ⟨8, os.store i⟩) else (os.status i).known := rfl

theorem isByte_cacheExpr (hv : os.Valid) (hi : i < os.size) {e : Expr} (he : os.cacheExpr i = some e) :
    IsByte e := by
  unfold cacheExpr at he
  split_ifs at he with hc
  · cases he
    exact ⟨rfl, rfl⟩
  · exact hv.isByte i hi e he

/-- A byte that is not flushed is in the cache. -/
theorem cacheExpr_of_unflushed (hv : os.Valid) (hi : i < os.size) (hf : os.isByteFlushed i = false) :
    ∃ e, os.cacheExpr i = some e := by
  unfold cacheExpr
  split_ifs with hc
  · exact ⟨_, rfl⟩
  · have := (hv.cached i hi).of_unflushed hf
    exact Option.isSome_iff_exists.mp (this.resolve_left hc)

theorem cacheExpr_flushNode (e : Expr) (i : ℕ) : (os.flushNode o e).cacheExpr i = os.cacheExpr i := rfl

theorem updateValue_extend (index value : Expr) (i : ℕ) : (os.extend index value).updateValue σ i =
    if index.eval σ = APInt.ofNat 32 i then value.eval σ else os.updateValue σ i := rfl

theorem updateValue_flushNode (ho : o < 2 ^ 32) (hi : i < 2 ^ 32) (e : Expr) :
    (os.flushNode o e).updateValue σ i = if i = o then e.eval σ else os.updateValue σ i := by
  have h : (os.flushNode o e).updateValue σ i = (os.extend (.alloc o 32) e).updateValue σ i := rfl
  rw [h, updateValue_extend, Expr.alloc, Expr.eval]
  simp only [ofNat_inj ho hi, eq_comm]

theorem valid_flushNode (hv : os.Valid) (hm : os.flushMask.isSome = true) (ho : o < os.size) {e : Expr}
    (he : os.cacheExpr o = some e) :
    (os.flushNode o e).Valid ∧ SameValues os (os.flushNode o e) := by
  have f := flushed_flushNode (o := o) hm e
  have ho' : o < 2 ^ 32 := lt_trans ho hv.size_lt
  have hb := isByte_cacheExpr hv ho he
  refine ⟨⟨hv.size_lt, fun i hi => ?_, hv.isByte, ?_, hv.root, fun i hi hf e' he' σ => ?_⟩,
    rfl, fun σ i hi => ?_⟩
  · rw [f.status]
    split_ifs
    · exact ⟨(hv.cached i hi).of_known, (hv.cached i hi).of_concrete, by simp [Status.flushForRead]⟩
    · exact hv.cached i hi
  · intro w hw
    rcases List.mem_cons.mp hw with rfl | hw
    · exact ⟨⟨rfl, rfl⟩, hb⟩
    · exact hv.writes w hw
  · rw [cacheExpr_flushNode] at he'
    rw [updateValue_flushNode ho' (lt_trans hi hv.size_lt)]
    split_ifs with hio
    · subst hio
      rw [he] at he'
      cases he'
      rfl
    · have hst := f.status i
      rw [if_neg (by simpa using hio)] at hst
      have hf' : os.isByteFlushed i = true := by
        have := congrArg Status.flushed hst
        exact this.symm.trans hf
      exact hv.flushed i hi hf' e' he' σ
  · unfold value
    rw [cacheExpr_flushNode]
    cases hc : os.cacheExpr i with
    | some e' => rfl
    | none =>
      have hio : i ≠ o := by
        rintro rfl
        rw [hc] at he
        cases he
      simp only [updateValue_flushNode ho' (lt_trans hi hv.size_lt), if_neg hio]

/-- A flushed byte can leave the cache. -/
theorem valid_markOut (hv : os.Valid) (ho : o < os.size) (hf : os.isByteFlushed o = true) :
    (os.markOut o).Valid ∧ SameValues os (os.markOut o) ∧ (os.markOut o).cacheExpr o = none ∧
      ∀ i, i ≠ o → (os.markOut o).cacheExpr i = os.cacheExpr i := by
  obtain ⟨mask, table, he⟩ := markOut_eq os o
  have hst := fun i => @status_markOut os o i
  have hstore : (os.markOut o).store = os.store := by rw [he]
  have hupd : ∀ σ i, (os.markOut o).updateValue σ i = os.updateValue σ i := by
    intro σ i
    rw [he]
    rfl
  have hsize : (os.markOut o).size = os.size := by rw [he]
  have hnone : (os.markOut o).cacheExpr o = none := by
    rw [cacheExpr_eq, hst, if_pos rfl]
    simp only [Status.markOut, Bool.false_eq_true, if_false]
    split_ifs with hc
    · simpa using (hv.cached o ho).of_concrete hc
    · rfl
  have hother : ∀ i, i ≠ o → (os.markOut o).cacheExpr i = os.cacheExpr i := by
    intro i hi
    rw [cacheExpr_eq, hst, if_neg hi, hstore, cacheExpr_eq]
  have hcache : ∀ i e, (os.markOut o).cacheExpr i = some e → os.cacheExpr i = some e := by
    intro i e h
    by_cases hi : i = o
    · rw [hi, hnone] at h
      cases h
    · rwa [hother i hi] at h
  have hflush : ∀ i, (os.markOut o).isByteFlushed i = os.isByteFlushed i := by
    intro i
    rw [he]
    rfl
  refine ⟨⟨by rw [hsize]; exact hv.size_lt, fun i hi => ?_, fun i hi e h => ?_, by rw [he]; exact hv.writes,
    by rw [he]; exact hv.root, fun i hi hfi e h σ => ?_⟩, ⟨hsize, fun σ i hi => ?_⟩, hnone, hother⟩
  · rw [hsize] at hi
    rw [hst]
    split_ifs with hio
    · subst hio
      refine ⟨fun _ => rfl, by simp [Status.markOut], fun h => ?_⟩
      have : (os.status i).flushed = true := hf
      simp [Status.markOut, this] at h
    · exact hv.cached i hi
  · rw [hsize] at hi
    have hk : ((os.markOut o).status i).known = some e := h
    rw [hst] at hk
    split_ifs at hk with hio
    · simp only [Status.markOut] at hk
      split_ifs at hk
      exact hv.isByte i hi e hk
    · exact hv.isByte i hi e hk
  · rw [hupd]
    exact hv.flushed i (hsize ▸ hi) (by rwa [hflush] at hfi) e (hcache i e h) σ
  · unfold value
    by_cases hio : i = o
    · subst hio
      rw [hnone]
      cases hc : os.cacheExpr i with
      | none => exact hupd σ i
      | some e => exact (hupd σ i).trans (hv.flushed i hi hf e hc σ).symm
    · simp only [hother i hio, hupd]

theorem valid_flushByteForRead (hv : os.Valid) (hm : os.flushMask.isSome = true) (ho : o < os.size) :
    ∃ os', os.flushByteForRead o = .ok os' ∧ os'.Valid ∧ SameValues os os' := by
  rw [flushByteForRead_eq]
  cases hf : os.isByteFlushed o with
  | true => exact ⟨os, rfl, hv, .refl os⟩
  | false =>
    obtain ⟨e, he⟩ := cacheExpr_of_unflushed hv ho hf
    rw [he]
    exact ⟨_, rfl, valid_flushNode hv hm ho he⟩

theorem unsetFlush_markOut (os : ObjectState) : unsetFlush o (os.markOut o) = (unsetFlush o os).markOut o := by
  obtain ⟨_, _, _, _, _, table, _, _⟩ := os
  unfold markOut
  split_ifs with h h' h'
  · rfl
  · exact absurd h h'
  · exact absurd h' h
  · cases table <;> rfl

/-- A byte that is flushed for a write is one that is flushed for a read, and marked out. -/
theorem flushByteForWrite_eq_bind (o : ℕ) (os : ObjectState) :
    os.flushByteForWrite o = os.flushByteForRead o >>= fun os => .ok (os.markOut o) := by
  rw [flushByteForWrite_eq, flushByteForRead_eq]
  split_ifs
  · rfl
  · cases os.cacheExpr o with
    | none => rfl
    | some e =>
      simp only [unsetFlush_markOut]
      rfl

theorem valid_flushByteForWrite (hv : os.Valid) (hm : os.flushMask.isSome = true) (ho : o < os.size) :
    ∃ os', os.flushByteForWrite o = .ok os' ∧ os'.Valid ∧ SameValues os os' := by
  obtain ⟨os₁, h₁, hv₁, hs₁⟩ := valid_flushByteForRead hv hm ho
  have f := flushByteForRead_effect hm h₁
  have hf : os₁.isByteFlushed o = true := by
    have := congrArg Status.flushed (f.status o)
    rw [if_pos (by simp)] at this
    exact this
  obtain ⟨hv₂, hs₂, -, -⟩ := valid_markOut hv₁ (by rwa [hs₁.size]) hf
  refine ⟨os₁.markOut o, ?_, hv₂, hs₁.trans hs₂⟩
  rw [flushByteForWrite_eq_bind, h₁]
  rfl

/-- A loop that flushes bytes one by one. -/
theorem valid_foldlM {act : Status → Status} {flush : ObjectState → ℕ → Except Failure ObjectState}
    (heffect : ∀ {os os' o}, os.flushMask.isSome = true → flush os o = .ok os' → Flushed act [o] os os')
    (hflush : ∀ {os o}, os.Valid → os.flushMask.isSome = true → o < os.size →
      ∃ os', flush os o = .ok os' ∧ os'.Valid ∧ SameValues os os')
    (bytes : List ℕ) (hv : os.Valid) (hm : os.flushMask.isSome = true) (hb : ∀ o ∈ bytes, o < os.size) :
    ∃ os', bytes.foldlM flush os = .ok os' ∧ os'.Valid ∧ SameValues os os' := by
  induction bytes generalizing os with
  | nil => exact ⟨os, rfl, hv, .refl os⟩
  | cons o bytes ih =>
    obtain ⟨os₁, h₁, hv₁, hs₁⟩ := hflush hv hm (hb o (by simp))
    obtain ⟨os₂, h₂, hv₂, hs₂⟩ := ih hv₁ (heffect hm h₁).mask fun o' ho' => by
      rw [hs₁.size]
      exact hb o' (by simp [ho'])
    refine ⟨os₂, ?_, hv₂, hs₁.trans hs₂⟩
    rw [List.foldlM_cons, h₁]
    exact h₂

theorem valid_needFlushMask (hv : os.Valid) : os.needFlushMask.Valid ∧ SameValues os os.needFlushMask := by
  have hst := fun i => @status_needFlushMask os i
  refine ⟨⟨hv.size_lt, fun i hi => ?_, hv.isByte, hv.writes, hv.root, fun i hi hf e he σ => ?_⟩,
    rfl, fun σ i hi => rfl⟩
  · rw [hst]
    exact hv.cached i hi
  · exact hv.flushed i hi ((congrArg Status.flushed (hst i)).symm.trans hf) e he σ

theorem valid_flushRangeForRead (hv : os.Valid) :
    ∃ os', os.flushRangeForRead 0 os.size = .ok os' ∧ os'.Valid ∧ SameValues os os' := by
  obtain ⟨hv₁, hs₁⟩ := valid_needFlushMask hv
  obtain ⟨os', h, hv', hs'⟩ := valid_foldlM flushByteForRead_effect valid_flushByteForRead
    (List.range' 0 os.size) hv₁ rfl fun o ho => by
      rw [hs₁.size]
      simpa [List.mem_range'_1] using ho
  exact ⟨os', h, hv', hs₁.trans hs'⟩

theorem valid_flushRangeForWrite (hv : os.Valid) :
    ∃ os', os.flushRangeForWrite 0 os.size = .ok os' ∧ os'.Valid ∧ SameValues os os' := by
  obtain ⟨hv₁, hs₁⟩ := valid_needFlushMask hv
  obtain ⟨os', h, hv', hs'⟩ := valid_foldlM flushByteForWrite_effect valid_flushByteForWrite
    (List.range' 0 os.size) hv₁ rfl fun o ho => by
      rw [hs₁.size]
      simpa [List.mem_range'_1] using ho
  exact ⟨os', h, hv', hs₁.trans hs'⟩

/-! ### Bytes -/

/-- A read of one byte: the state keeps its values, and the expression has the byte's. -/
structure ReadsByte (os os' : ObjectState) (e : Expr) (P : Assignment → Prop) (index : Assignment → ℕ) :
    Prop where
  valid : os'.Valid
  same : SameValues os os'
  isByte : IsByte e
  eval : ∀ σ, P σ → e.eval σ = os.value σ (index σ)

theorem read8_reads (hv : os.Valid) (hi : i < os.size) :
    ∃ e os', os.read8 arrays i = .ok (e, os') ∧ ReadsByte os os' e (fun _ => True) fun _ => i := by
  have hcase : os.read8 arrays i = match os.cacheExpr i with
      | some e => .ok (e, os)
      | none => if os.isByteFlushed i then
          .ok (ReadExpr.create (os.getUpdates arrays).1 (.alloc i 32), (os.getUpdates arrays).2)
        else .error .unflushed := by
    unfold read8 cacheExpr
    cases os.isByteConcrete i <;> cases os.known i <;> cases os.isByteFlushed i <;> rfl
  rw [hcase]
  cases he : os.cacheExpr i with
  | some e =>
    refine ⟨e, os, rfl, hv, .refl os, isByte_cacheExpr hv hi he, fun σ _ => ?_⟩
    rw [value, he]
  | none =>
    have hf : os.isByteFlushed i = true := by
      by_contra hne
      obtain ⟨e, he'⟩ := cacheExpr_of_unflushed hv hi (by simpa using hne)
      rw [he] at he'
      cases he'
    obtain ⟨hw, hv', hs', heval⟩ := @getUpdates_spec arrays os hv
    have hread : (Expr.read (os.getUpdates arrays).1 (.alloc i 32)).wellTyped = true := by
      simp only [Expr.wellTyped, hw, Bool.and_eq_true, beq_iff_eq, true_and]
      exact ⟨rfl, rfl⟩
    have ha := ReadExpr.create_agrees hread
    refine ⟨_, _, by rw [hf]; rfl, hv', hs', ⟨ha.wellTyped, ha.getWidth⟩, fun σ _ => ?_⟩
    rw [ha.eval, Expr.eval, value, he]
    exact heval σ i hi

/-- The value of an index, as an offset. -/
theorem eval_index {e : Expr} (h : IsIndex e) (σ : Assignment) :
    e.eval σ = APInt.ofNat 32 (e.eval σ).toNat :=
  (ofNat_toNat ((e.width_eval σ h.1).trans h.2)).symm

theorem zext_index {e : Expr} (h : IsIndex e) : ZExtExpr.create e Width.Int32 = e := by
  unfold ZExtExpr.create CastExpr.create
  rw [if_pos h.2.symm]

theorem read8Symbolic_reads {offset : Expr} (hv : os.Valid) (ho : IsIndex offset)
    (hc : offset.isConstant = false) :
    ∃ e os', os.read8Symbolic arrays offset = .ok (e, os') ∧
      ReadsByte os os' e (fun σ => (offset.eval σ).toNat < os.size) fun σ => (offset.eval σ).toNat := by
  obtain ⟨os₁, h₁, hv₁, hs₁⟩ := valid_flushRangeForRead hv
  have f := flushRangeForRead_effect h₁
  obtain ⟨hw, hv₂, hs₂, heval⟩ := @getUpdates_spec arrays os₁ hv₁
  have hread : (Expr.read (os₁.getUpdates arrays).1 offset).wellTyped = true := by
    simp only [Expr.wellTyped, hw, ho.1, ho.2, Bool.and_eq_true, beq_iff_eq, true_and]
  have ha := ReadExpr.create_agrees hread
  refine ⟨_, _, ?_, hv₂, hs₁.trans hs₂, ⟨ha.wellTyped, ha.getWidth⟩, fun σ hσ => ?_⟩
  · rw [read8Symbolic, hc, if_neg (by simp), h₁]
    simp only [zext_index ho]
    rfl
  · set j := (offset.eval σ).toNat
    have hj : j < os₁.size := by rwa [hs₁.size]
    have hf : os₁.isByteFlushed j = true := by
      have := congrArg Status.flushed (f.status j)
      rw [if_pos (by simpa [List.mem_range'_1] using hσ)] at this
      exact this
    rw [ha.eval, Expr.eval, eval_index ho, heval σ j hj, ← hs₁.value σ j hσ, value]
    cases he : os₁.cacheExpr j with
    | none => rfl
    | some e => exact (hv₁.flushed j hj hf e he σ).symm

/-- A write of one byte. -/
structure WritesByte (os os' : ObjectState) (index : Assignment → APInt) (byte : Assignment → APInt) :
    Prop where
  valid : os'.Valid
  size : os'.size = os.size
  value : ∀ σ, ∀ i < os.size,
    os'.value σ i = if index σ = APInt.ofNat 32 i then byte σ else os.value σ i

theorem write8Expr_writes {e : Expr} (hv : os.Valid) (ho : o < os.size) (he : IsByte e) :
    WritesByte os (os.write8Expr o e) (fun _ => APInt.ofNat 32 o) e.eval := by
  have hf := @frame_write8Expr os o e
  have hst := fun i => @status_write8Expr os o i e
  have hupd : ∀ σ i, (os.write8Expr o e).updateValue σ i = os.updateValue σ i := by
    intro σ i
    have : (os.write8Expr o e).initialContents σ = os.initialContents σ := by
      funext k
      simp only [initialContents, hf.root]
    rw [updateValue, updateValue, hf.writes, this]
  have hother : ∀ i, i ≠ o → (os.write8Expr o e).cacheExpr i = os.cacheExpr i := by
    intro i hi
    rw [cacheExpr_eq, hst, if_neg hi, store_write8Expr, Function.update_of_ne hi, cacheExpr_eq]
  have hself : ∃ e', (os.write8Expr o e).cacheExpr o = some e' ∧ ∀ σ, e'.eval σ = e.eval σ := by
    rw [cacheExpr_eq, hst, if_pos rfl, store_write8Expr, Function.update_self]
    cases e with
    | constant c =>
      obtain ⟨w, v⟩ := c
      obtain rfl : w = 8 := he.2
      exact ⟨_, rfl, fun σ => by simp [storedByte, Expr.eval]⟩
    | _ => exact ⟨_, rfl, fun σ => rfl⟩
  refine ⟨⟨by rw [hf.size]; exact hv.size_lt, fun i hi => ?_, fun i hi e' h => ?_,
    by rw [hf.writes]; exact hv.writes, by rw [hf.root]; exact hv.root, fun i hi hfl e' h σ => ?_⟩,
    hf.size, fun σ i hi => ?_⟩
  · rw [hf.size] at hi
    rw [hst]
    split_ifs
    · exact Status.cached_ofByte e
    · exact hv.cached i hi
  · rw [hf.size] at hi
    have hk : ((os.write8Expr o e).status i).known = some e' := h
    rw [hst] at hk
    split_ifs at hk with hio
    · cases e with
      | constant c => cases hk
      | _ =>
        cases hk
        exact he
    · exact hv.isByte i hi e' hk
  · have hio : i ≠ o := by
      rintro rfl
      have : ((os.write8Expr i e).status i).flushed = true := hfl
      rw [hst, if_pos rfl, Status.flushed_ofByte] at this
      cases this
    have hfl' : (os.status i).flushed = true := by
      have : ((os.write8Expr o e).status i).flushed = true := hfl
      rwa [hst, if_neg hio] at this
    rw [hupd]
    exact hv.flushed i (hf.size ▸ hi) hfl' e' (by rwa [hother i hio] at h) σ
  · simp only [ofNat_inj (lt_trans ho hv.size_lt) (lt_trans hi hv.size_lt)]
    by_cases hio : o = i
    · subst hio
      obtain ⟨e', he', heval⟩ := hself
      rw [if_pos rfl, ObjectState.value, he']
      exact heval σ
    · rw [if_neg hio, ObjectState.value, hother i (Ne.symm hio), ObjectState.value]
      simp only [hupd]

theorem write8Symbolic_writes {offset e : Expr} (hv : os.Valid) (ho : IsIndex offset)
    (hc : offset.isConstant = false) (he : IsByte e) :
    ∃ os', os.write8Symbolic offset e = .ok os' ∧ WritesByte os os' offset.eval e.eval := by
  obtain ⟨os₁, h₁, hv₁, hs₁⟩ := valid_flushRangeForWrite hv
  have f := flushRangeForWrite_effect h₁
  have hnone : ∀ i < os.size, os₁.cacheExpr i = none := by
    intro i hi
    have hst := f.status i
    rw [if_pos (by simpa [List.mem_range'_1] using hi)] at hst
    rw [cacheExpr_eq, hst]
    simp only [Status.flushForWrite, Status.markOut, Bool.false_eq_true, if_false]
    split_ifs with hconc
    · simpa using (hv.cached i hi).of_concrete hconc
    · rfl
  have hcache : ∀ i, (os₁.extend offset e).cacheExpr i = os₁.cacheExpr i := fun _ => rfl
  refine ⟨os₁.extend offset e, ?_, ⟨hv₁.size_lt, hv₁.cached, hv₁.isByte, ?_, hv₁.root, ?_⟩, hs₁.size, ?_⟩
  · rw [write8Symbolic, hc, if_neg (by simp), h₁]
    simp only [zext_index ho]
    rfl
  · intro w hw
    rcases List.mem_cons.mp hw with rfl | hw
    · exact ⟨ho, he⟩
    · exact hv₁.writes w hw
  · intro i hi _ e' he' σ
    have hi' : i < os.size := by
      rw [← hs₁.size]
      exact hi
    rw [hcache, hnone i hi'] at he'
    cases he'
  · intro σ i hi
    rw [ObjectState.value, hcache, hnone i hi]
    simp only [updateValue_extend]
    rw [← hs₁.value σ i hi, ObjectState.value, hnone i hi]

end TaseVerifier.ObjectState
