import TaseVerifier.Solver.CoreSolver
import TaseVerifier.Solver.CutShifts

/-! When the builders build a term, and when the term has the value of its expression. -/

namespace TaseVerifier

theorem ExprHandle.ofValue_inj {x y : APInt} (hw : x.width = y.width) :
    ofValue x = ofValue y ↔ x = y := by
  refine ⟨fun h => ?_, fun h => by rw [h]⟩
  by_cases h1 : x.width = 1
  · rw [x.eq_ofBool h1, y.eq_ofBool (hw ▸ h1), ofValue_ofBool, ofValue_ofBool] at h
    rw [x.eq_ofBool h1, y.eq_ofBool (hw ▸ h1), ExprHandle.bool.inj h]
  · rw [ofValue_bv h1, ofValue_bv (hw ▸ h1)] at h
    exact ExprHandle.bv.inj h

mutual
/-- The sorts that the primitives of the solvers ask for: no truth value is concatenated or
extracted from. -/
def Expr.sorted : Expr → Bool
  | .constant _ => true
  | .notOptimized src => src.sorted
  | .read updates index => updates.sorted && index.sorted
  | .select c t f => c.sorted && t.sorted && f.sorted
  | .concat l r => l.sorted && r.sorted && l.getWidth != 1 && r.getWidth != 1
  | .extract e _ _ => e.sorted && e.getWidth != 1
  | .not e => e.sorted
  | .cast _ src _ => src.sorted
  | .binary _ l r => l.sorted && r.sorted
def UpdateList.sorted : UpdateList → Bool
  | .root _ => true
  | .node index value next => index.sorted && value.sorted && next.sorted
end

mutual
/-- `create` returns the source where a cast is to the width of the source, and the size of an
array is an `unsigned`. -/
def Expr.created : Expr → Bool
  | .constant _ => true
  | .notOptimized src => src.created
  | .read updates index => updates.created && index.created
  | .select c t f => c.created && t.created && f.created
  | .concat l r => l.created && r.created
  | .extract e _ _ => e.created
  | .not e => e.created
  | .cast _ src width => src.created && decide (src.getWidth < width)
  | .binary _ l r => l.created && r.created
def UpdateList.created : UpdateList → Bool
  | .root array => decide (array.size < 2 ^ 32)
  | .node index value next => index.created && value.created && next.created
end

theorem Expr.representable_cutAmount {b : Builder} (k : BinaryKind) (r : Expr)
    (h : r.representable b = true) : (k.cutAmount r).representable b = true := by
  obtain heq | ⟨-, c, rfl, heq⟩ := Expr.cutAmount_cases k r
  · rw [heq, h]
  · rw [heq]
    exact h

namespace Builder

variable {b : Builder} {w : ℕ}

/-- Without expanded divisions no divisor matters, and a cut amount stays as it is. -/
theorem representable_operand (hb : b ≠ .STP true) (hw : w ≤ 64) (k : BinaryKind) (r : Expr) :
    k.representable b (k.cutAmount r) w = true := by
  have hdivisor : ∀ r : Expr, r.ifConstant (divisorFits b w) = true := by
    intro r
    cases r with
    | constant c => simp [Expr.ifConstant, divisorFits, hb]
    | _ => rfl
  have hamount : ∀ r : Expr, r.cut32.ifConstant (amountFits w) = true := by
    intro r
    cases r with
    | constant c =>
      have hlt : c.cut32.toNat < 2 ^ 32 := by
        rw [APInt.cut32, APInt.toNat_ofNat]
        exact (Nat.mod_le _ _).trans_lt (Nat.mod_lt _ (Nat.two_pow_pos 32))
      rw [Expr.cut32, Expr.ifConstant, amountFits, decide_eq_true hlt, Bool.true_or]
    | _ => rfl
  have hlt : w < 2 ^ 32 := by omega
  cases k with
  | UDiv | SDiv | URem => exact hdivisor r
  | Shl | LShr =>
    rw [BinaryKind.representable, decide_eq_true hlt]
    exact hamount r
  | AShr =>
    rw [BinaryKind.representable, decide_eq_true hw]
    exact hamount r
  | _ => rfl

end Builder

mutual
theorem Expr.representable_cutShifts {b : Builder} (hb : b ≠ .STP true) : ∀ e : Expr,
    e.wellTyped = true → e.narrow = true → e.created = true → e.sorted = true →
      e.cutShifts.representable b = true
  | .constant c, _, h, _, _ => by
    simp only [Expr.narrow, Bool.and_eq_true, decide_eq_true_eq] at h
    rw [Expr.cutShifts, Expr.representable, bne_iff_ne]
    exact h.1.ne'
  | .notOptimized src, ht, h, hc, hs => Expr.representable_cutShifts hb src ht h hc hs
  | .read u i, ht, h, hc, hs => by
    simp only [Expr.wellTyped, Expr.narrow, Expr.created, Expr.sorted, Bool.and_eq_true]
      at ht h hc hs
    rw [Expr.cutShifts, Expr.representable,
      UpdateList.representable_cutShifts hb u ht.1.1 h.1 hc.1 hs.1,
      Expr.representable_cutShifts hb i ht.1.2 h.2 hc.2 hs.2]
    rfl
  | .select c t f, ht, h, hc, hs => by
    simp only [Expr.wellTyped, Expr.narrow, Expr.created, Expr.sorted, Bool.and_eq_true]
      at ht h hc hs
    rw [Expr.cutShifts, Expr.representable,
      Expr.representable_cutShifts hb c ht.1.1.1.1 h.1.1 hc.1.1 hs.1.1,
      Expr.representable_cutShifts hb t ht.1.1.1.2 h.1.2 hc.1.2 hs.1.2,
      Expr.representable_cutShifts hb f ht.1.1.2 h.2 hc.2 hs.2]
    rfl
  | .concat l r, ht, h, hc, hs => by
    simp only [Expr.wellTyped, Expr.narrow, Expr.created, Expr.sorted, Bool.and_eq_true]
      at ht h hc hs
    rw [Expr.cutShifts, Expr.representable,
      Expr.representable_cutShifts hb l ht.1 h.1.1 hc.1 hs.1.1.1,
      Expr.representable_cutShifts hb r ht.2 h.1.2 hc.2 hs.1.1.2, l.getWidth_cutShifts,
      r.getWidth_cutShifts, hs.1.2, hs.2]
    rfl
  | .extract e _ _, ht, h, hc, hs => by
    simp only [Expr.wellTyped, Expr.sorted, Bool.and_eq_true] at ht hs
    rw [Expr.cutShifts, Expr.representable, Expr.representable_cutShifts hb e ht.1.1 h hc hs.1,
      e.getWidth_cutShifts, hs.2]
    rfl
  | .not e, ht, h, hc, hs => Expr.representable_cutShifts hb e ht h hc hs
  | .cast _ e w, ht, h, hc, hs => by
    simp only [Expr.wellTyped, Expr.narrow, Expr.created, Bool.and_eq_true] at ht h hc
    rw [Expr.cutShifts, Expr.representable, Expr.representable_cutShifts hb e ht.1 h.1 hc.1 hs,
      e.getWidth_cutShifts, hc.2]
    rfl
  | .binary k l r, ht, h, hc, hs => by
    simp only [Expr.wellTyped, Expr.narrow, Expr.created, Expr.sorted, Bool.and_eq_true]
      at ht h hc hs
    have hl := Expr.representable_cutShifts hb l ht.1.1.1 h.1 hc.1 hs.1
    have hr := Expr.representable_cutShifts hb r ht.1.1.2 h.2 hc.2 hs.2
    have hw := (l.narrow_width ht.1.1.1 h.1).2
    rw [Expr.cutShifts, Expr.representable, hl, Expr.representable_cutAmount k _ hr,
      l.getWidth_cutShifts, Builder.representable_operand hb hw]
    rfl
theorem UpdateList.representable_cutShifts {b : Builder} (hb : b ≠ .STP true) : ∀ u : UpdateList,
    u.wellTyped = true → u.narrow = true → u.created = true → u.sorted = true →
      u.cutShifts.representable b = true
  | .root a, _, _, hc, _ => by
    have hsize : a.size < 2 ^ 32 := of_decide_eq_true hc
    rw [UpdateList.cutShifts, UpdateList.representable, decide_eq_true hsize.le, Bool.or_true]
  | .node i v next, ht, h, hc, hs => by
    simp only [UpdateList.wellTyped, UpdateList.narrow, UpdateList.created, UpdateList.sorted,
      Bool.and_eq_true] at ht h hc hs
    rw [UpdateList.cutShifts, UpdateList.representable,
      Expr.representable_cutShifts hb i ht.1.1.1.1 h.1.1 hc.1.1 hs.1.1,
      Expr.representable_cutShifts hb v ht.1.1.1.2 h.1.2 hc.1.2 hs.1.2,
      UpdateList.representable_cutShifts hb next ht.1.1.2 h.2 hc.2 hs.2]
    rfl
end

namespace Builder

open ExprHandle

variable {b : Builder} {M : ArrayModel} {L R : Option (ExprHandle × ℕ)}

/-! ### When a term is built -/

variable {k : BinaryKind} {l r : Expr} {x y : APInt} {w v : ℕ}

theorem isSome_left (h : (b.constructBinary k l r L R).isSome = true) :
    L.isSome = true ∨ l.isConstant = true := by
  rcases L with - | p
  · right
    cases k with
    | Mul =>
      rcases R with - | q
      · cases h
      · unfold constructBinary constructMul at h
        simp only [Option.bind_eq_bind, Option.bind_some, Option.bind_none] at h
        split_ifs at h
        · cases h
        · split at h
          · rfl
          · cases h
    | _ => cases h
  · exact .inl rfl

theorem isSome_right (h : (b.constructBinary k l r L R).isSome = true) :
    R.isSome = true ∨ r.isConstant = true := by
  rcases R with - | q
  · right
    rcases L with - | p
    · cases k <;> cases h
    · cases r with
      | constant c => rfl
      | _ =>
        cases k with
        | UDiv | SDiv | URem | Shl | LShr | AShr =>
          simp [constructBinary, constructUDiv, constructSDiv, constructURem, constructShift] at h
        | _ => cases h
  · exact .inl rfl

theorem none_or_some {t : Option (ExprHandle × ℕ)} (h : ∀ p ∈ t, p.2 = w) :
    t = none ∨ ∃ e, t = some (e, w) := by
  rcases t with - | ⟨e, v⟩
  · exact .inl rfl
  · obtain rfl : v = w := h _ rfl
    exact .inr ⟨e, rfl⟩

/-- The operands have a width that the kind's assertion allows. -/
theorem asserted_of_isSome (hL : ∀ p ∈ L, p.2 = w) (hR : ∀ p ∈ R, p.2 = w)
    (h : (b.constructBinary k l r L R).isSome = true) : k.asserted w = true := by
  cases k with
  | And | Or | Xor | Eq => rfl
  | Ne | Ugt | Uge | Sgt | Sge => cases h
  | Add | Sub | SRem | Mul | Ult | Ule | Slt | Sle =>
    refine bne_iff_ne.mpr ?_
    rintro rfl
    obtain rfl | ⟨t, rfl⟩ := none_or_some hR <;>
      simp [constructBinary, arithExpr, compareExpr, constructMul] at h
  | UDiv | SDiv | URem | Shl | LShr | AShr =>
    refine bne_iff_ne.mpr ?_
    rintro rfl
    obtain rfl | ⟨t, rfl⟩ := none_or_some hL <;>
      simp [constructBinary, constructUDiv, constructSDiv, constructURem, constructShift] at h

theorem ne_one_of_concat (hl : Denotes L w x) (hr : Denotes R v y) {n : ℕ}
    (h : (constructConcat n L R).isSome = true) : w ≠ 1 ∧ v ≠ 1 := by
  obtain ⟨hx, rfl⟩ := hl
  obtain ⟨hy, rfl⟩ := hr
  constructor
  · rintro rfl
    rw [x.eq_ofBool hx, ofValue_ofBool] at h
    cases h
  · rintro rfl
    rw [y.eq_ofBool hy, ofValue_ofBool] at h
    simp [constructConcat, concatExpr, getBV] at h

theorem ne_one_of_extract (hl : Denotes L w x) {off n : ℕ}
    (h : (constructExtract off n L).isSome = true) : w ≠ 1 := by
  obtain ⟨hx, rfl⟩ := hl
  rintro rfl
  rw [x.eq_ofBool hx, ofValue_ofBool] at h
  simp [constructExtract, bvBoolExtract, bvExtract, getBV] at h

variable {σ : Assignment}

theorem construct_denotes_cutShifts (hb : b ≠ .STP true) (hM : Models M σ) (hz : ZeroBeyond M)
    {e : Expr} (ht : e.wellTyped = true) (h : e.narrow = true) (hc : e.created = true)
    (he : e.asserted = true ∧ e.sorted = true) :
    Denotes (b.construct M e) e.getWidth (e.cutShifts.eval σ) := by
  have hcut := construct_denotes hM e.cutShifts (by rw [e.wellTyped_cutShifts, ht])
    (by rw [e.asserted_cutShifts, he.1]) (e.representable_cutShifts hb ht h hc he.2) (.inl hz)
  rw [construct_cutShifts e ht h, e.getWidth_cutShifts] at hcut
  exact hcut

theorem isSome_constructRead {t : Option (BitVec 32 → BitVec 8)}
    (h : (constructRead t L).isSome = true) : t.isSome = true ∧ L.isSome = true := by
  cases t
  · cases h
  · cases L
    · cases h
    · exact ⟨rfl, rfl⟩

theorem isSome_constructUpdate {t : Option (BitVec 32 → BitVec 8)}
    (h : (constructUpdate t L R).isSome = true) :
    t.isSome = true ∧ L.isSome = true ∧ R.isSome = true := by
  cases t
  · cases h
  · cases L
    · cases h
    · cases R
      · cases h
      · exact ⟨rfl, rfl, rfl⟩

theorem isSome_constructSelect {C : Option (ExprHandle × ℕ)}
    (h : (constructSelect C L R).isSome = true) :
    C.isSome = true ∧ L.isSome = true ∧ R.isSome = true := by
  cases C
  · cases h
  · cases L
    · cases h
    · cases R
      · cases h
      · exact ⟨rfl, rfl, rfl⟩

theorem isSome_constructConcat {n : ℕ} (h : (constructConcat n L R).isSome = true) :
    L.isSome = true ∧ R.isSome = true := by
  cases L
  · cases h
  · cases R
    · cases h
    · exact ⟨rfl, rfl⟩

theorem sorted_of_isConstant {e : Expr} (h : e.isConstant = true) :
    e.asserted = true ∧ e.sorted = true := by
  cases e with
  | constant c => exact ⟨rfl, rfl⟩
  | _ => cases h

mutual
/-- The builders build no term where an assertion fails or a primitive gets another sort. -/
theorem asserted_and_sorted (hb : b ≠ .STP true) (hM : Models M σ) (hz : ZeroBeyond M) :
    ∀ e : Expr, e.wellTyped = true → e.narrow = true → e.created = true →
      (b.construct M e).isSome = true → e.asserted = true ∧ e.sorted = true
  | .constant _, _, _, _, _ => ⟨rfl, rfl⟩
  | .notOptimized src, ht, h, hc, hs => by
    rw [construct] at hs
    exact asserted_and_sorted hb hM hz src ht h hc hs
  | .read u i, ht, h, hc, hs => by
    simp only [Expr.wellTyped, Expr.narrow, Expr.created, Bool.and_eq_true] at ht h hc
    rw [construct] at hs
    obtain ⟨hus, his⟩ := isSome_constructRead hs
    have hu := updates_asserted_and_sorted hb hM hz u ht.1.1 h.1 hc.1 hus
    have hi := asserted_and_sorted hb hM hz i ht.1.2 h.2 hc.2 his
    simp [Expr.asserted, Expr.sorted, hu, hi]
  | .select c t f, ht, h, hc, hs => by
    simp only [Expr.wellTyped, Expr.narrow, Expr.created, Bool.and_eq_true] at ht h hc
    rw [construct] at hs
    obtain ⟨hcs, hts, hfs⟩ := isSome_constructSelect hs
    have hcond := asserted_and_sorted hb hM hz c ht.1.1.1.1 h.1.1 hc.1.1 hcs
    have htrue := asserted_and_sorted hb hM hz t ht.1.1.1.2 h.1.2 hc.1.2 hts
    have hfalse := asserted_and_sorted hb hM hz f ht.1.1.2 h.2 hc.2 hfs
    simp [Expr.asserted, Expr.sorted, hcond, htrue, hfalse]
  | .concat l r, ht, h, hc, hs => by
    simp only [Expr.wellTyped, Expr.narrow, Expr.created, Bool.and_eq_true] at ht h hc
    rw [construct] at hs
    obtain ⟨hls, hrs⟩ := isSome_constructConcat hs
    have hl := asserted_and_sorted hb hM hz l ht.1 h.1.1 hc.1 hls
    have hr := asserted_and_sorted hb hM hz r ht.2 h.1.2 hc.2 hrs
    obtain ⟨hlw, hrw⟩ := ne_one_of_concat
      (construct_denotes_cutShifts hb hM hz ht.1 h.1.1 hc.1 hl)
      (construct_denotes_cutShifts hb hM hz ht.2 h.1.2 hc.2 hr) hs
    simp [Expr.asserted, Expr.sorted, hl, hr, hlw, hrw]
  | .extract e off n, ht, h, hc, hs => by
    simp only [Expr.wellTyped, Bool.and_eq_true] at ht
    rw [construct] at hs
    have he := asserted_and_sorted hb hM hz e ht.1.1 h hc (Option.isSome_of_isSome_bind hs)
    have hw := ne_one_of_extract (construct_denotes_cutShifts hb hM hz ht.1.1 h hc he) hs
    simp [Expr.asserted, Expr.sorted, he, hw]
  | .not e, ht, h, hc, hs => by
    rw [construct] at hs
    exact asserted_and_sorted hb hM hz e ht h hc (Option.isSome_of_isSome_bind hs)
  | .cast _ e _, ht, h, hc, hs => by
    simp only [Expr.wellTyped, Expr.narrow, Expr.created, Bool.and_eq_true] at ht h hc
    rw [construct] at hs
    exact asserted_and_sorted hb hM hz e ht.1 h.1 hc.1 (Option.isSome_of_isSome_bind hs)
  | .binary k l r, ht, h, hc, hs => by
    simp only [Expr.wellTyped, Expr.narrow, Expr.created, Bool.and_eq_true, beq_iff_eq] at ht h hc
    rw [construct] at hs
    -- A constant operand may be left out, the other one is built.
    have hl := (isSome_left hs).elim (asserted_and_sorted hb hM hz l ht.1.1.1 h.1 hc.1)
      sorted_of_isConstant
    have hr := (isSome_right hs).elim (asserted_and_sorted hb hM hz r ht.1.1.2 h.2 hc.2)
      sorted_of_isConstant
    have hlw : ∀ p ∈ b.construct M l, p.2 = l.getWidth := by
      rw [(construct_denotes_cutShifts hb hM hz ht.1.1.1 h.1 hc.1 hl).2]
      rintro p ⟨⟩
      rfl
    have hrw : ∀ p ∈ b.construct M r, p.2 = l.getWidth := by
      rw [(construct_denotes_cutShifts hb hM hz ht.1.1.2 h.2 hc.2 hr).2, ht.1.2]
      rintro p ⟨⟩
      rfl
    have hk := asserted_of_isSome hlw hrw hs
    simp [Expr.asserted, Expr.sorted, hl, hr, hk]
theorem updates_asserted_and_sorted (hb : b ≠ .STP true) (hM : Models M σ) (hz : ZeroBeyond M) :
    ∀ u : UpdateList, u.wellTyped = true → u.narrow = true → u.created = true →
      (b.getArrayForUpdate M u).isSome = true → u.asserted = true ∧ u.sorted = true
  | .root _, _, _, _, _ => ⟨rfl, rfl⟩
  | .node i v next, ht, h, hc, hs => by
    simp only [UpdateList.wellTyped, UpdateList.narrow, UpdateList.created, Bool.and_eq_true]
      at ht h hc
    rw [getArrayForUpdate] at hs
    obtain ⟨hns, his, hvs⟩ := isSome_constructUpdate hs
    have hi := asserted_and_sorted hb hM hz i ht.1.1.1.1 h.1.1 hc.1.1 his
    have hv := asserted_and_sorted hb hM hz v ht.1.1.1.2 h.1.2 hc.1.2 hvs
    have hnext := updates_asserted_and_sorted hb hM hz next ht.1.1.2 h.2 hc.2 hns
    simp [UpdateList.asserted, UpdateList.sorted, hi, hv, hnext]
end

end Builder

/-- What an expression has to meet for a term to be built. -/
def Expr.hasTerm (e : Expr) : Bool :=
  e.wellTyped && e.narrow && e.created && e.asserted && e.sorted

def UpdateList.hasTerm (u : UpdateList) : Bool :=
  u.wellTyped && u.narrow && u.created && u.asserted && u.sorted

theorem Expr.hasTerm_kids {e : Expr} (h : e.hasTerm = true) : ∀ k ∈ e.kids, k.hasTerm = true := by
  cases e <;>
    simp_all [Expr.kids, Expr.hasTerm, Expr.wellTyped, Expr.narrow, Expr.created, Expr.asserted,
      Expr.sorted]

theorem UpdateList.hasTerm_node {i v : Expr} {next : UpdateList}
    (h : (UpdateList.node i v next).hasTerm = true) :
    i.hasTerm = true ∧ v.hasTerm = true ∧ next.hasTerm = true := by
  simp_all [UpdateList.hasTerm, Expr.hasTerm, UpdateList.wellTyped, UpdateList.narrow,
    UpdateList.created, UpdateList.asserted, UpdateList.sorted]

theorem Expr.hasTerm_subexprs {e : Expr} : e.hasTerm = true → ∀ s ∈ e.subexprs, s.hasTerm = true := by
  refine (Expr.kids_induction (P := fun e => e.hasTerm = true → ∀ s ∈ e.subexprs, s.hasTerm = true)
    (Q := fun u => u.hasTerm = true → ∀ s ∈ u.subexprs, s.hasTerm = true) ?_ ?_ ?_ ?_).1 e
  · intro u i hu hi h
    have hupdates : u.hasTerm = true := by
      simp_all [Expr.hasTerm, UpdateList.hasTerm, Expr.wellTyped, Expr.narrow, Expr.created,
        Expr.asserted, Expr.sorted]
    have hindex := Expr.hasTerm_kids h i (by simp [Expr.kids])
    rw [Expr.subexprs, List.forall_mem_cons, List.forall_mem_append]
    exact ⟨h, hu hupdates, hi hindex⟩
  · intro e hne ih h s hs
    obtain rfl | ⟨k, hk, hs⟩ := (Expr.mem_subexprs hne).mp hs
    · exact h
    · exact ih k hk (Expr.hasTerm_kids h k hk) s hs
  · intro a _ s hs
    cases hs
  · intro i v next hi hv hnext h
    obtain ⟨hindex, hvalue, hrest⟩ := UpdateList.hasTerm_node h
    rw [UpdateList.subexprs, List.forall_mem_append, List.forall_mem_append]
    exact ⟨⟨hi hindex, hv hvalue⟩, hnext hrest⟩

namespace Builder

/-! ### The value of the term -/

open ExprHandle

variable {b : Builder} {M : ArrayModel} {σ : Assignment}

theorem construct_eq_iff (hb : b ≠ .STP true) (hM : Models M σ) (hz : ZeroBeyond M) {e : Expr}
    (he : e.hasTerm = true) : b.construct M e = some (ofValue (e.eval σ), e.getWidth) ↔
      e.cutShifts.eval σ = e.eval σ := by
  simp only [Expr.hasTerm, Bool.and_eq_true] at he
  obtain ⟨⟨⟨⟨ht, hn⟩, hc⟩, ha⟩, hs⟩ := he
  obtain ⟨hwidth, hcut⟩ := construct_denotes_cutShifts hb hM hz ht hn hc ⟨ha, hs⟩
  rw [hcut, Option.some.injEq, Prod.mk.injEq, and_iff_left rfl]
  exact ofValue_inj (hwidth.trans (e.width_eval σ ht).symm)

/-- A term is built where the assertions hold and the primitives get their sorts. It has the
value of the expression exactly where the expression keeps its value when the constant shift
amounts are cut to 32 bits; so have the terms of all its parts exactly where no cut amount
gives another shift. -/
theorem construct_agrees_iff (hb : b ≠ .STP true) (hM : Models M σ) (hz : ZeroBeyond M) {e : Expr}
    (ht : e.wellTyped = true) (hn : e.narrow = true) (hc : e.created = true) :
    ((b.construct M e).isSome = true ↔ e.asserted = true ∧ e.sorted = true) ∧
      ((b.construct M e).isSome = true →
        (b.construct M e = some (ofValue (e.eval σ), e.getWidth) ↔
          e.cutShifts.eval σ = e.eval σ) ∧
        ((∀ s ∈ e.subexprs, b.construct M s = some (ofValue (s.eval σ), s.getWidth)) ↔
          e.keepsAmounts σ = true)) := by
  have hbuilt := asserted_and_sorted hb hM hz e ht hn hc
  refine ⟨⟨hbuilt, fun he => ?_⟩, fun hterm => ?_⟩
  · rw [(construct_denotes_cutShifts hb hM hz ht hn hc he).2]
    rfl
  · have he : e.hasTerm = true := by
      obtain ⟨ha, hs⟩ := hbuilt hterm
      rw [Expr.hasTerm, ht, hn, hc, ha, hs]
      rfl
    refine ⟨construct_eq_iff hb hM hz he, ?_⟩
    rw [← eval_subexprs_iff e ht hn]
    exact forall₂_congr fun s hs => construct_eq_iff hb hM hz (Expr.hasTerm_subexprs he s hs)

/-- A byte of an array, extended to 64 bits and shifted by a constant amount. -/
def shiftedByte (amount : ℕ) : Expr :=
  .binary .Shl (.cast .ZExt (.read (.root { name := "message", size := 4, ufe := 0 })
    (.alloc 2 32)) 64) (.alloc amount 64)

/-- Of `2 ^ 32 + 60` the builders keep 60, and the byte is shifted out all the same. -/
theorem construct_agrees_shiftedOut :
    let e := shiftedByte (2 ^ 32 + 60)
    (STP false).construct (CoreSolver.modelOf fun _ _ => 16#8) e =
      some (ofValue (e.eval fun _ _ => 16#8), e.getWidth) := by
  intro e
  obtain ⟨hbuilt, hvalue⟩ := construct_agrees_iff (b := STP false) (by decide)
    (CoreSolver.models_modelOf fun _ _ => 16#8) (CoreSolver.zeroBeyond_modelOf _) (e := e)
    (by decide) (by decide) (by decide)
  obtain ⟨-, hparts⟩ := hvalue (hbuilt.mpr (by decide))
  exact hparts.mpr (by decide) e e.mem_subexprs_self

/-- Of `2 ^ 32` they keep zero, and the byte is not shifted. -/
theorem construct_differs_unshifted :
    let e := shiftedByte (2 ^ 32)
    let M := CoreSolver.modelOf fun _ _ => 1#8
    let right := some (ofValue (e.eval fun _ _ => 1#8), e.getWidth)
    ((Z3.construct M e).isSome = true ∧ Z3.construct M e ≠ right) ∧
      (((STP false).construct M e).isSome = true ∧ (STP false).construct M e ≠ right) := by
  intro e M right
  have hright : right = some (.bv ⟨64, 0#64⟩, 64) := by
    have heval : e.eval (fun _ _ => 1#8) = ⟨64, 0#64⟩ :=
      apply_overshift (.inl rfl) 1#64 (BitVec.ofNat 64 (2 ^ 32)) le_rfl (by decide)
    change some (ofValue (e.eval fun _ _ => 1#8), e.getWidth) = _
    rw [heval]
    rfl
  have hterm : ∀ b ∈ [Z3, STP false], b.construct M e = some (.bv ⟨64, 1#64⟩, 64) := by decide
  rw [hright, hterm Z3 (by decide), hterm (STP false) (by decide)]
  decide

end Builder

end TaseVerifier
