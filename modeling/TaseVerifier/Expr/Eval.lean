import TaseVerifier.Expr.Syntax

/-! The meaning of an expression under an assignment of the symbolic arrays: the
bit-vector operations applied to the operands' values, with bytes outside an
array read as zero. Well-typedness collects the width assertions of the
constructors; a well-typed expression evaluates to a value of its own width and
depends only on the arrays that `findSymbolicObjects` reports. -/

namespace TaseVerifier

/-- The contents of every symbolic array. -/
abbrev Assignment := KleeArray → ℕ → BitVec 8

namespace KleeArray

/-- The byte at index `i` before any update. -/
def initialValue (σ : Assignment) (a : KleeArray) (i : ℕ) : APInt :=
  if a.isSymbolicArray then
    if i < a.size then ⟨8, σ a i⟩ else APInt.ofNat 8 0
  else a.constantValues[i]?.getD (APInt.ofNat 8 0)

def wellTyped (a : KleeArray) : Bool :=
  a.constantValues.all (fun c => c.width == Width.Int8) &&
    (a.isSymbolicArray || a.constantValues.length == a.size)

end KleeArray

def CastKind.apply : CastKind → APInt → ℕ → APInt
  | .ZExt, a, w => a.zext w
  | .SExt, a, w => a.sext w

def BinaryKind.apply : BinaryKind → APInt → APInt → APInt
  | .Add => APInt.add
  | .Sub => APInt.sub
  | .Mul => APInt.mul
  | .UDiv => APInt.udiv
  | .SDiv => APInt.sdiv
  | .URem => APInt.urem
  | .SRem => APInt.srem
  | .And => APInt.and
  | .Or => APInt.or
  | .Xor => APInt.xor
  | .Shl => APInt.shl
  | .LShr => APInt.lshr
  | .AShr => APInt.ashr
  | .Eq => APInt.eq
  | .Ne => fun a b => (APInt.eq a b).not
  | .Ult => APInt.ult
  | .Ule => APInt.ule
  | .Ugt => fun a b => APInt.ult b a
  | .Uge => fun a b => APInt.ule b a
  | .Slt => APInt.slt
  | .Sle => APInt.sle
  | .Sgt => fun a b => APInt.slt b a
  | .Sge => fun a b => APInt.sle b a

mutual
def Expr.eval (σ : Assignment) : Expr → APInt
  | .constant c => c
  | .notOptimized src => src.eval σ
  | .read updates index => updates.evalRead σ (index.eval σ)
  | .select c t f => if (c.eval σ).isTrue then t.eval σ else f.eval σ
  | .concat l r => (l.eval σ).concat (r.eval σ)
  | .extract e off w => (e.eval σ).extract off w
  | .not e => (e.eval σ).not
  | .cast k e w => k.apply (e.eval σ) w
  | .binary k l r => k.apply (l.eval σ) (r.eval σ)
/-- The cell at index `i`: the most recent update of that cell, else the root. -/
def UpdateList.evalRead (σ : Assignment) : UpdateList → APInt → APInt
  | .root a, i => a.initialValue σ i.toNat
  | .node index value next, i =>
    if index.eval σ = i then value.eval σ else next.evalRead σ i
end

mutual
/-- The widths agree as the constructors assert, casts extend, and nothing divides or is
shifted arithmetically at width one (rule 2b of the canonical form: no arithmetic on booleans).
No constructor builds such a node. -/
def Expr.wellTyped : Expr → Bool
  | .constant _ => true
  | .notOptimized src => src.wellTyped
  | .read updates index =>
    updates.wellTyped && index.wellTyped && index.getWidth == Width.Int32
  | .select c t f =>
    c.wellTyped && t.wellTyped && f.wellTyped && c.getWidth == Width.Bool &&
      t.getWidth == f.getWidth
  | .concat l r => l.wellTyped && r.wellTyped
  | .extract e off w => e.wellTyped && decide (0 < w) && decide (off + w ≤ e.getWidth)
  | .not e => e.wellTyped
  | .cast _ e w => e.wellTyped && decide (e.getWidth ≤ w)
  | .binary k l r =>
    l.wellTyped && r.wellTyped && l.getWidth == r.getWidth &&
      !(k.notOnBool && l.getWidth == Width.Bool)
def UpdateList.wellTyped : UpdateList → Bool
  | .root a => a.wellTyped
  | .node index value next =>
    index.wellTyped && value.wellTyped && next.wellTyped &&
      index.getWidth == Width.Int32 && value.getWidth == Width.Int8
end

mutual
/-- The symbolic roots in the order `SymbolicObjectFinder` meets them: the updates
of a read from the most recent one, its root, then its index. The finder skips
expressions it has seen, which only drops repetitions. -/
def Expr.symbolicRoots : Expr → List KleeArray
  | .constant _ => []
  | .notOptimized src => src.symbolicRoots
  | .read updates index => updates.symbolicRoots ++ index.symbolicRoots
  | .select c t f => c.symbolicRoots ++ t.symbolicRoots ++ f.symbolicRoots
  | .concat l r => l.symbolicRoots ++ r.symbolicRoots
  | .extract e _ _ => e.symbolicRoots
  | .not e => e.symbolicRoots
  | .cast _ e _ => e.symbolicRoots
  | .binary _ l r => l.symbolicRoots ++ r.symbolicRoots
def UpdateList.symbolicRoots : UpdateList → List KleeArray
  | .root a => if a.isSymbolicArray then [a] else []
  | .node index value next => index.symbolicRoots ++ value.symbolicRoots ++ next.symbolicRoots
end

/-- `if (results.insert(a).second) objects.push_back(a)`. -/
def insertObject (objects : List KleeArray) (a : KleeArray) : List KleeArray :=
  if a ∈ objects then objects else objects ++ [a]

def findSymbolicObjects (e : Expr) : List KleeArray := e.symbolicRoots.foldl insertObject []

theorem mem_foldl_insertObject (as objects : List KleeArray) (a : KleeArray) :
    a ∈ as.foldl insertObject objects ↔ a ∈ objects ∨ a ∈ as := by
  induction as generalizing objects with
  | nil => simp
  | cons b as ih =>
    rw [List.foldl_cons, ih, insertObject]
    split_ifs with hb
    · constructor
      · rintro (h | h) <;> simp [h]
      · rintro (h | h)
        · exact .inl h
        · rcases List.mem_cons.mp h with rfl | h
          · exact .inl hb
          · exact .inr h
    · simp [or_assoc]

@[simp] theorem mem_findSymbolicObjects (e : Expr) (a : KleeArray) :
    a ∈ findSymbolicObjects e ↔ a ∈ e.symbolicRoots := by
  simp [findSymbolicObjects, mem_foldl_insertObject]

theorem CastKind.width_apply (k : CastKind) (a : APInt) (w : ℕ) : (k.apply a w).width = w := by
  cases k <;> rfl

theorem BinaryKind.width_apply (k : BinaryKind) (a b : APInt) :
    (k.apply a b).width = if k.isCmp then 1 else a.width := by
  cases k <;> rfl

theorem KleeArray.width_initialValue (σ : Assignment) (a : KleeArray) (i : ℕ)
    (h : a.wellTyped = true) : (a.initialValue σ i).width = 8 := by
  unfold initialValue
  split_ifs
  · rfl
  · rfl
  · cases hi : a.constantValues[i]? with
    | none => rfl
    | some c =>
      simp only [wellTyped, Bool.and_eq_true, List.all_eq_true, beq_iff_eq] at h
      exact h.1 c (List.mem_of_getElem? hi)

mutual
/-- A well-typed expression evaluates to a value of its width. -/
theorem Expr.width_eval (σ : Assignment) :
    ∀ e : Expr, e.wellTyped = true → (e.eval σ).width = e.getWidth
  | .constant _, _ => rfl
  | .notOptimized src, h => src.width_eval σ h
  | .read u i, h => by
    simp only [Expr.wellTyped, Bool.and_eq_true] at h
    exact u.width_evalRead σ h.1.1 (i.eval σ)
  | .select c t f, h => by
    simp only [Expr.wellTyped, Bool.and_eq_true, beq_iff_eq] at h
    simp only [Expr.eval, Expr.getWidth]
    split_ifs
    · exact t.width_eval σ h.1.1.1.2
    · exact (f.width_eval σ h.1.1.2).trans h.2.symm
  | .concat l r, h => by
    simp only [Expr.wellTyped, Bool.and_eq_true] at h
    simp [Expr.eval, Expr.getWidth, l.width_eval σ h.1, r.width_eval σ h.2]
  | .extract _ _ _, _ => rfl
  | .not e, h => e.width_eval σ h
  | .cast k e w, _ => k.width_apply (e.eval σ) w
  | .binary k l r, h => by
    simp only [Expr.wellTyped, Bool.and_eq_true] at h
    simp only [Expr.eval, Expr.getWidth, k.width_apply, l.width_eval σ h.1.1.1, Width.Bool]
theorem UpdateList.width_evalRead (σ : Assignment) :
    ∀ u : UpdateList, u.wellTyped = true → ∀ i, (u.evalRead σ i).width = 8
  | .root a, h, i => a.width_initialValue σ i.toNat h
  | .node index value next, h, i => by
    simp only [UpdateList.wellTyped, Bool.and_eq_true, beq_iff_eq] at h
    simp only [UpdateList.evalRead]
    split_ifs
    · exact (value.width_eval σ h.1.1.1.2).trans h.2
    · exact next.width_evalRead σ h.1.1.2 i
end

mutual
/-- Evaluation reads no byte beyond those of the symbolic roots. -/
theorem Expr.eval_congr_bytes {σ τ : Assignment} :
    ∀ e : Expr, (∀ a ∈ e.symbolicRoots, ∀ i < a.size, σ a i = τ a i) → e.eval σ = e.eval τ
  | .constant _, _ => rfl
  | .notOptimized src, h => src.eval_congr_bytes h
  | .read u i, h => by
    simp only [Expr.symbolicRoots, List.mem_append] at h
    simp only [Expr.eval]
    rw [i.eval_congr_bytes (fun a ha => h a (.inr ha)), u.evalRead_congr_bytes (fun a ha => h a (.inl ha))]
  | .select c t f, h => by
    simp only [Expr.symbolicRoots, List.mem_append] at h
    simp only [Expr.eval]
    rw [c.eval_congr_bytes (fun a ha => h a (.inl (.inl ha))),
      t.eval_congr_bytes (fun a ha => h a (.inl (.inr ha))), f.eval_congr_bytes (fun a ha => h a (.inr ha))]
  | .concat l r, h => by
    simp only [Expr.symbolicRoots, List.mem_append] at h
    simp only [Expr.eval]
    rw [l.eval_congr_bytes (fun a ha => h a (.inl ha)), r.eval_congr_bytes (fun a ha => h a (.inr ha))]
  | .extract e _ _, h => by simp only [Expr.eval]; rw [e.eval_congr_bytes h]
  | .not e, h => by simp only [Expr.eval]; rw [e.eval_congr_bytes h]
  | .cast _ e _, h => by simp only [Expr.eval]; rw [e.eval_congr_bytes h]
  | .binary _ l r, h => by
    simp only [Expr.symbolicRoots, List.mem_append] at h
    simp only [Expr.eval]
    rw [l.eval_congr_bytes (fun a ha => h a (.inl ha)), r.eval_congr_bytes (fun a ha => h a (.inr ha))]
theorem UpdateList.evalRead_congr_bytes {σ τ : Assignment} :
    ∀ u : UpdateList, (∀ a ∈ u.symbolicRoots, ∀ i < a.size, σ a i = τ a i) →
      ∀ i, u.evalRead σ i = u.evalRead τ i
  | .root a, h, i => by
    simp only [UpdateList.evalRead, KleeArray.initialValue]
    split_ifs with ha hi
    · rw [h a (by simp [UpdateList.symbolicRoots, ha]) _ hi]
    · rfl
    · rfl
  | .node index value next, h, i => by
    simp only [UpdateList.symbolicRoots, List.mem_append] at h
    simp only [UpdateList.evalRead]
    rw [index.eval_congr_bytes (fun a ha => h a (.inl (.inl ha))),
      value.eval_congr_bytes (fun a ha => h a (.inl (.inr ha))),
      next.evalRead_congr_bytes (fun a ha => h a (.inr ha)) i]
end

/-- Evaluation reads no array beyond the symbolic roots. -/
theorem Expr.eval_congr {σ τ : Assignment} (e : Expr) (h : ∀ a ∈ e.symbolicRoots, σ a = τ a) :
    e.eval σ = e.eval τ :=
  e.eval_congr_bytes fun a ha i _ => congrFun (h a ha) i

/-- `σ` makes the boolean expression `e` true. -/
def Holds (σ : Assignment) (e : Expr) : Prop := (e.eval σ).isTrue = true

/-- `σ` satisfies every constraint of the list. -/
def Satisfies (σ : Assignment) (cs : List Expr) : Prop := ∀ c ∈ cs, Holds σ c

instance (σ : Assignment) (e : Expr) : Decidable (Holds σ e) :=
  inferInstanceAs (Decidable ((e.eval σ).isTrue = true))

instance (σ : Assignment) (cs : List Expr) : Decidable (Satisfies σ cs) :=
  inferInstanceAs (Decidable (∀ c ∈ cs, Holds σ c))

/-- The well-typed expressions of width one. -/
def Expr.isBool (e : Expr) : Bool := e.wellTyped && e.getWidth == Width.Bool

theorem isBool_iff {e : Expr} : e.isBool = true ↔ e.wellTyped = true ∧ e.getWidth = 1 := by
  simp [Expr.isBool, Width.Bool]

theorem Holds.congr {σ τ : Assignment} {e : Expr} (h : ∀ a ∈ e.symbolicRoots, σ a = τ a) :
    Holds σ e ↔ Holds τ e := by
  rw [Holds, Holds, e.eval_congr h]

@[simp] theorem satisfies_nil (σ : Assignment) : Satisfies σ [] := by simp [Satisfies]

@[simp] theorem satisfies_append (σ : Assignment) (cs ds : List Expr) :
    Satisfies σ (cs ++ ds) ↔ Satisfies σ cs ∧ Satisfies σ ds := by
  simp only [Satisfies, List.mem_append]
  exact ⟨fun h => ⟨fun c hc => h c (.inl hc), fun c hc => h c (.inr hc)⟩,
    fun h c hc => hc.elim (h.1 c) (h.2 c)⟩

@[simp] theorem satisfies_cons (σ : Assignment) (c : Expr) (cs : List Expr) :
    Satisfies σ (c :: cs) ↔ Holds σ c ∧ Satisfies σ cs := by
  simp [Satisfies]

end TaseVerifier
