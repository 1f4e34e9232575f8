import TaseVerifier.Expr.Defined
import TaseVerifier.Memory.TaintScan

/-! Reads of several bytes. `ObjectState::read` takes the bytes from the store when none of
their words is poisoned, and else puts them together as expressions. Either way it is the
concatenation of what the bytes read as. -/

namespace TaseVerifier

namespace APInt

theorem concat_inj {a b c d : APInt} (hw : b.width = d.width) (hv : a.width = c.width) :
    a.concat b = c.concat d ↔ a = c ∧ b = d := by
  refine ⟨fun h => ?_, fun h => by rw [h.1, h.2]⟩
  obtain ⟨w, x⟩ := a
  obtain ⟨w', y⟩ := b
  obtain ⟨v, z⟩ := c
  obtain ⟨v', u⟩ := d
  obtain rfl : w' = v' := hw
  obtain rfl : w = v := hv
  simp only [concat, mk.injEq, heq_eq_eq, true_and] at h
  have hx := congrArg (fun t => t.extractLsb' w' w) h
  have hy := congrArg (fun t => t.extractLsb' 0 w') h
  simp only [BitVec.extractLsb'_append_eq_left, BitVec.extractLsb'_append_eq_right] at hx hy
  rw [hx, hy]
  exact ⟨rfl, rfl⟩

/-- `n` bytes as one value, the first one lowest. -/
def concatBytes (f : ℕ → APInt) (n : ℕ) : APInt :=
  (List.range (n - 1)).foldl (fun v i => (f (i + 1)).concat v) (f 0)

variable {f g : ℕ → APInt} {n : ℕ}

@[simp] theorem concatBytes_one (f : ℕ → APInt) : concatBytes f 1 = f 0 := rfl

theorem concatBytes_succ (f : ℕ → APInt) (n : ℕ) :
    concatBytes f (n + 2) = (f (n + 1)).concat (concatBytes f (n + 1)) := by
  simp [concatBytes, List.range_succ]

theorem width_concatBytes (hf : ∀ i, (f i).width = 8) (n : ℕ) :
    (concatBytes f (n + 1)).width = 8 * (n + 1) := by
  induction n with
  | zero => exact hf 0
  | succ n ih =>
    rw [concatBytes_succ, width_concat, hf, ih]
    omega

/-- A value determines its bytes. -/
theorem concatBytes_inj (hf : ∀ i, (f i).width = 8) (hg : ∀ i, (g i).width = 8) (hn : 0 < n) :
    concatBytes f n = concatBytes g n ↔ ∀ i < n, f i = g i := by
  obtain ⟨n, rfl⟩ : ∃ k, n = k + 1 := ⟨n - 1, by omega⟩
  clear hn
  induction n with
  | zero => simp
  | succ n ih =>
    rw [concatBytes_succ, concatBytes_succ,
      concat_inj (by rw [width_concatBytes hf, width_concatBytes hg]) (by rw [hf, hg]), ih]
    refine ⟨fun h i hi => ?_, fun h => ⟨h _ (by omega), fun i hi => h i (by omega)⟩⟩
    by_cases hin : i = n + 1
    · rw [hin]
      exact h.1
    · exact h.2 i (by omega)

/-- Every value of a whole number of bytes is put together from them. -/
theorem concatBytes_extract (c : APInt) (n : ℕ) :
    concatBytes (fun i => c.extract (8 * i) 8) (n + 1) = c.extract 0 (8 * (n + 1)) := by
  induction n with
  | zero => rfl
  | succ n ih =>
    have hsplit := concat_extract c 0 8 (8 * (n + 1))
    rw [concatBytes_succ, ih]
    rw [Nat.zero_add] at hsplit
    rw [hsplit]
    congr 1
    omega

theorem exists_bytes {c : APInt} (hn : 0 < n) (hc : c.width = 8 * n) :
    ∃ v : ℕ → BitVec 8, concatBytes (fun i => ⟨8, v i⟩) n = c := by
  obtain ⟨n, rfl⟩ : ∃ k, n = k + 1 := ⟨n - 1, by omega⟩
  refine ⟨fun i => (c.extract (8 * i) 8).val, (concatBytes_extract c n).trans ?_⟩
  obtain ⟨w, x⟩ := c
  obtain rfl : w = 8 * (n + 1) := hc
  simp [extract]

end APInt

namespace Memory

/-- The value of the bytes from `a` on, as they read. -/
def valueAt (a numBytes : ℕ) (m : Memory) (σ : Assignment) : APInt :=
  APInt.concatBytes (fun i => (m.read8 (a + i)).eval σ) numBytes

/-- The bytes from `a` on, put together as expressions. -/
def readBytes (a numBytes : ℕ) (m : Memory) : Expr :=
  (List.range (numBytes - 1)).foldl (fun res i => ConcatExpr.create (m.read8 (a + (i + 1))) res)
    (m.read8 a)

/-- The widths that are read. -/
def ReadSize (n : ℕ) : Prop := n = 1 ∨ n = 2 ∨ n = 4 ∨ n = 8

instance (n : ℕ) : Decidable (ReadSize n) := inferInstanceAs (Decidable (_ ∨ _))

theorem ReadSize.pos {n : ℕ} (h : ReadSize n) : 0 < n := by
  unfold ReadSize at h
  omega

theorem ReadSize.le {n : ℕ} (h : ReadSize n) : n ≤ 8 := by
  unfold ReadSize at h
  omega

section Read

variable {m m' : Memory} {a n : ℕ} {σ : Assignment} {as : List KleeArray}

theorem storeValue_eq (a n : ℕ) (m : Memory) :
    storeValue a n m = APInt.concatBytes (fun i => ⟨8, (m (a + i)).store⟩) n := rfl

theorem Inv.width_read8 (hm : m.Inv) (a : ℕ) (σ : Assignment) : ((m.read8 a).eval σ).width = 8 := by
  rw [Expr.width_eval σ _ (hm a).typed.1, (hm a).typed.2]

theorem readBytes_succ (a n : ℕ) (m : Memory) :
    readBytes a (n + 2) m = ConcatExpr.create (m.read8 (a + (n + 1))) (readBytes a (n + 1) m) := by
  simp [readBytes, List.range_succ]

/-- Put together, the bytes have the value they should. -/
theorem readBytes_value (hm : m.Inv) (a n : ℕ) :
    (readBytes a (n + 1) m).wellTyped = true ∧ (readBytes a (n + 1) m).getWidth = 8 * (n + 1) ∧
      ∀ σ, (readBytes a (n + 1) m).eval σ = valueAt a (n + 1) m σ := by
  induction n with
  | zero => exact ⟨(hm a).typed.1, (hm a).typed.2, fun σ => rfl⟩
  | succ n ih =>
    obtain ⟨ht, hw, he⟩ := ih
    have hb := (hm (a + (n + 1))).typed
    have hct : (Expr.concat (m.read8 (a + (n + 1))) (readBytes a (n + 1) m)).wellTyped = true :=
      Expr.wellTyped_concat.mpr ⟨hb.1, ht⟩
    have ha := ConcatExpr.create_agrees hct
    rw [readBytes_succ]
    refine ⟨ha.wellTyped, ?_, fun σ => ?_⟩
    · rw [ha.getWidth, Expr.getWidth, hb.2, hw]
      omega
    · rw [ha.eval, Expr.eval, he]
      exact (APInt.concatBytes_succ (fun i => (m.read8 (a + i)).eval σ) n).symm

theorem readBytes_over (ho : ∀ b, (m.read8 b).Over as) (a n : ℕ) :
    (readBytes a (n + 1) m).Over as := by
  induction n with
  | zero => exact ho a
  | succ n ih =>
    rw [readBytes_succ]
    exact (hereditary_over as).concat_create (ho _) ih

theorem read_eq (a n : ℕ) (m : Memory) :
    m.read a n = if (n = 2 ∨ n = 4 ∨ n = 8) ∧ taseBufHasTaint a n m = false then
      .constant (storeValue a n m) else readBytes a n m := rfl

/-- A read is well typed and mentions the arrays of its bytes only. -/
theorem read_typed (hm : m.Inv) (ho : ∀ b, (m.read8 b).Over as) (a : ℕ) (hn : ReadSize n) :
    (m.read a n).wellTyped = true ∧ (m.read a n).getWidth = 8 * n ∧ (m.read a n).Over as := by
  obtain ⟨k, rfl⟩ := Nat.exists_eq_add_one.mpr hn.pos
  rw [read_eq]
  split_ifs with hfast
  · refine ⟨rfl, ?_, by simp [Expr.Over, Expr.symbolicRoots]⟩
    exact APInt.width_concatBytes (f := fun i => ⟨8, (m (a + i)).store⟩) (fun i => rfl) k
  · obtain ⟨ht, hw, -⟩ := readBytes_value hm a k
    exact ⟨ht, hw, readBytes_over ho a k⟩

/-- A read depends on the words it meets. -/
theorem read_congr (h : ∀ b, Covers a n b → m' b = m b) (hn : 0 < n) :
    m'.read a n = m.read a n := by
  have hbyte : ∀ i < n, m' (a + i) = m (a + i) := fun i hi => h _ ⟨i, hi, rfl⟩
  have htaint := taseBufHasTaint_congr h hn
  obtain ⟨k, rfl⟩ : ∃ k, n = k + 1 := ⟨n - 1, by omega⟩
  have hstore : storeValue a (k + 1) m' = storeValue a (k + 1) m := by
    rw [storeValue_eq, storeValue_eq, APInt.concatBytes_inj (fun _ => rfl) (fun _ => rfl) hn]
    intro i hi
    rw [hbyte i hi]
  have hbytes : ∀ j ≤ k, readBytes a (j + 1) m' = readBytes a (j + 1) m := by
    intro j
    induction j with
    | zero => exact fun _ => read8_congr (hbyte 0 (by omega))
    | succ j ih =>
      intro hj
      rw [readBytes_succ, readBytes_succ, ih (by omega), read8_congr (hbyte (j + 1) (by omega))]
  rw [read_eq, read_eq, htaint, hstore, hbytes k le_rfl]

/-- The bytes of the store, put together as constants. -/
theorem readBytes_concrete {k : ℕ} (h : ∀ i < k + 1, (m (a + i)).concrete = true) :
    readBytes a (k + 1) m = .constant (storeValue a (k + 1) m) := by
  induction k with
  | zero => exact read8_of_concrete (h 0 Nat.one_pos)
  | succ k ih =>
    rw [readBytes_succ, ih fun i hi => h i (by omega), read8_of_concrete (h (k + 1) (by omega)),
      storeValue_eq, storeValue_eq, APInt.concatBytes_succ]
    rfl

/-- The fast path gives what the bytes read as. -/
theorem read_eq_readBytes (hm : m.Inv) (hn : 0 < n) : m.read a n = readBytes a n m := by
  obtain ⟨k, rfl⟩ := Nat.exists_eq_add_one.mpr hn
  rw [read_eq]
  split_ifs with hfast
  · exact (readBytes_concrete fun i hi => concrete_of_taseBufHasTaint hm hfast.2 hi).symm
  · rfl

theorem read_eval (hm : m.Inv) (hn : 0 < n) (a : ℕ) (σ : Assignment) :
    (m.read a n).eval σ = valueAt a n m σ := by
  obtain ⟨k, rfl⟩ := Nat.exists_eq_add_one.mpr hn
  rw [read_eq_readBytes hm hn]
  exact (readBytes_value hm a k).2.2 σ

/-- Where no taint is found the read is a constant, and this is what the bytes read as, put
together. -/
theorem read_fast_exact {base offset n : ℕ} (hm : m.Inv) (hn : n = 2 ∨ n = 4 ∨ n = 8)
    (htaint : taseBufHasTaint (base + offset) n m = false) :
    ∃ c, m.read (base + offset) n = .constant c ∧ readBytes (base + offset) n m = .constant c := by
  have hpos : 0 < n := by omega
  have hread : m.read (base + offset) n = .constant (storeValue (base + offset) n m) := by
    rw [read_eq, if_pos ⟨hn, htaint⟩]
  refine ⟨_, hread, ?_⟩
  rw [← read_eq_readBytes hm hpos]
  exact hread

end Read

/-- Two bytes at an odd offset, before a poisoned word. -/
theorem read_fast_exact_odd :
    let m := oneWord 4 (.read (.root ⟨"a", 1, 0, []⟩) (.alloc 0 32)) (.alloc 7 8)
    m.Inv ∧ taseBufHasTaint (0 + 1) (2 : ℕ) m = false ∧
      ∃ c, m.read (0 + 1) 2 = .constant c ∧ readBytes (0 + 1) 2 m = .constant c := by
  intro m
  have hm : m.Inv := inv_oneWord rfl (by decide) (by decide)
  have htaint : taseBufHasTaint (0 + 1) (2 : ℕ) m = false := by decide
  exact ⟨hm, htaint, read_fast_exact hm (.inl rfl) htaint⟩

end Memory

end TaseVerifier
