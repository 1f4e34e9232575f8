import TaseVerifier.Expr.Rebuild

/-! The constructors under the option `const-array-opt`. An equality with a read of a constant
array is spread over the positions that hold the value, which is right where the read is inside
the array. Only equalities of more than one bit are concerned: reads compare their index with
those of the updates, and `Ne` negates an equality. All other constructors compare booleans,
where the option makes no difference. -/

namespace TaseVerifier

mutual
/-- Every read is inside its array, whose size is an `unsigned`. -/
def Expr.readsInside (σ : Assignment) : Expr → Prop
  | .constant _ => True
  | .notOptimized s => s.readsInside σ
  | .read u i =>
    u.readsInside σ ∧ i.readsInside σ ∧ (i.eval σ).toNat < u.array.size ∧ u.array.size < 2 ^ 32
  | .select c t f => c.readsInside σ ∧ t.readsInside σ ∧ f.readsInside σ
  | .concat l r => l.readsInside σ ∧ r.readsInside σ
  | .extract e _ _ => e.readsInside σ
  | .not e => e.readsInside σ
  | .cast _ e _ => e.readsInside σ
  | .binary _ l r => l.readsInside σ ∧ r.readsInside σ
def UpdateList.readsInside (σ : Assignment) : UpdateList → Prop
  | .root _ => True
  | .node i v next => i.readsInside σ ∧ v.readsInside σ ∧ next.readsInside σ
end

namespace ConstArrayOpt

/-- The loop of `TryConstArrayOpt` over the positions still to be seen; `mayBe i` is the
equality of the index with `i`. -/
def TryConstArrayOpt.loop (mayBe : ℕ → Expr) (cl : APInt) (rd : Expr)
    (constantValues : List APInt) : List ℕ → ℕ → Expr → Expr
  | [], _, res => res
  | i :: positions, numMatches, res =>
    if constantValues[i]? = some cl then
      -- an arbitrary maximum on the size of the disjunction
      if 100 < numMatches + 1 then EqExpr.create' (.constant cl) rd
      else loop mayBe cl rd constantValues positions (numMatches + 1)
        (OrExpr.create res (mayBe i))
    else loop mayBe cl rd constantValues positions numMatches res

/-- `TryConstArrayOpt` on the read of `updates` at `index`. -/
def TryConstArrayOpt (mayBe : ℕ → Expr) (cl : APInt) (updates : UpdateList) (index : Expr) :
    Expr :=
  match updates with
  | .node _ _ _ => EqExpr.create' (.constant cl) (.read updates index)
  | .root a =>
    if a.isSymbolicArray then EqExpr.create' (.constant cl) (.read updates index)
    else
      TryConstArrayOpt.loop mayBe cl (.read updates index) a.constantValues (List.range a.size) 0
        (Expr.alloc 0 Width.Bool)

variable (constArrayOpt : Bool)

namespace EqExpr

def createPartialR (cl : APInt) (r : Expr) : Expr :=
  if cl.width = Width.Bool then
    if cl.isTrue then r
    else match r with
      | .binary .Eq (.constant c) a =>
        if c.isFalse then a
        else TaseVerifier.EqExpr.create' (.constant cl) (.binary .Eq (.constant c) a)
      -- not (a or b) is (not a) and (not b)
      | .binary .Or a b =>
        AndExpr.create
          (TaseVerifier.EqExpr.foldOr a (APInt.ofNat a.getWidth 0)
            (createPartialR (APInt.ofNat a.getWidth 0) a))
          (TaseVerifier.EqExpr.foldOr b (APInt.ofNat b.getWidth 0)
            (createPartialR (APInt.ofNat b.getWidth 0) b))
      | r => TaseVerifier.EqExpr.create' (.constant cl) r
  else match r with
    | .cast .SExt a _ =>
      let trunc := cl.zext a.getWidth
      if cl = trunc.sext cl.width then
        TaseVerifier.EqExpr.foldOr a trunc (createPartialR trunc a)
      else Expr.alloc 0 Width.Bool
    | .cast .ZExt a _ =>
      let trunc := cl.zext a.getWidth
      if cl = trunc.zext cl.width then
        TaseVerifier.EqExpr.foldOr a trunc (createPartialR trunc a)
      else Expr.alloc 0 Width.Bool
    | .binary .Add (.constant k) b => createPartialR (cl.sub k) b
    | .binary .Sub (.constant k) b => createPartialR (k.sub cl) b
    | .read updates index =>
      if constArrayOpt then
        TryConstArrayOpt (fun i => TaseVerifier.EqExpr.foldOr index (APInt.ofNat index.getWidth i)
          (createPartialR (APInt.ofNat index.getWidth i) index)) cl updates index
      else TaseVerifier.EqExpr.create' (.constant cl) (.read updates index)
    | r => TaseVerifier.EqExpr.create' (.constant cl) r

def createPartial (l : Expr) (cr : APInt) : Expr := createPartialR constArrayOpt cr l

def create : Expr → Expr → Expr
  | .constant cl, .constant cr => .constant (cl.eq cr)
  | .constant cl, r => createPartialR constArrayOpt cl r
  | l, .constant cr => createPartial constArrayOpt l cr
  | l, r => TaseVerifier.EqExpr.create' l r

end EqExpr

def NeExpr.create (l r : Expr) : Expr :=
  EqExpr.create constArrayOpt (Expr.alloc 0 Width.Bool) (EqExpr.create constArrayOpt l r)

namespace ReadExpr

/-- The walk over the update list: the value of an update known to hit, or
whether the walk was stopped by an update that may hit. -/
def scan (index : Expr) : UpdateList → Expr ⊕ Bool
  | .root _ => .inr false
  | .node i value next =>
    match EqExpr.create constArrayOpt index i with
    | .constant c => if c.isTrue then .inl value else scan index next
    | _ => .inr true

def create (ul : UpdateList) (index : Expr) : Expr :=
  match scan constArrayOpt index ul with
  | .inl value => value
  | .inr updateListHasSymbolicWrites =>
    if ul.array.isConstantArray && !updateListHasSymbolicWrites then
      match index with
      | .constant c =>
        if c.toNat < ul.array.size then
          .constant (ul.array.constantValues[c.toNat]?.getD (APInt.ofNat Width.Int8 0))
        else .read ul index
      | _ => .read ul index
    else .read ul index

end ReadExpr

def BinaryExpr.create : BinaryKind → Expr → Expr → Except Abort Expr
  | .Eq, l, r => pure (EqExpr.create constArrayOpt l r)
  | .Ne, l, r => pure (NeExpr.create constArrayOpt l r)
  | k, l, r => TaseVerifier.BinaryExpr.create k l r

variable {constArrayOpt : Bool} {σ : Assignment} {l r : Expr}

/-! ### Where the option makes no difference -/

theorem EqExpr.createPartialR_eq (cl : APInt) (r : Expr)
    (h : constArrayOpt = true → cl.width = Width.Bool ∧
      (Expr.binary .Eq (.constant cl) r).wellTyped = true) :
    createPartialR constArrayOpt cl r = TaseVerifier.EqExpr.createPartialR cl r := by
  fun_induction createPartialR constArrayOpt cl r with
  | case1 c r hw hc => rw [TaseVerifier.EqExpr.createPartialR.eq_def, if_pos hw, if_pos hc]
  | case2 c hw hc d a hd =>
    rw [TaseVerifier.EqExpr.createPartialR.eq_def, if_pos hw, if_neg hc]
    exact (if_pos hd).symm
  | case3 c hw hc d a hd =>
    rw [TaseVerifier.EqExpr.createPartialR.eq_def, if_pos hw, if_neg hc]
    exact (if_neg hd).symm
  | case4 c hw hc a b iha ihb =>
    rw [TaseVerifier.EqExpr.createPartialR.eq_def, if_pos hw, if_neg hc]
    have hside (ho : constArrayOpt = true) :
        (a.wellTyped = true ∧ a.getWidth = 1) ∧ b.wellTyped = true ∧ b.getWidth = 1 := by
      obtain ⟨-, hr, hwr⟩ := Expr.wellTyped_operands (h ho).2
      obtain ⟨ha, hb, hab⟩ := Expr.wellTyped_operands hr
      have hwa : a.getWidth = 1 := hwr.symm.trans hw
      exact ⟨⟨ha, hwa⟩, hb, hab.symm.trans hwa⟩
    rw [iha fun ho => ⟨(hside ho).1.2, Expr.wellTyped_binary rfl (hside ho).1.1 rfl rfl⟩,
      ihb fun ho => ⟨(hside ho).2.2, Expr.wellTyped_binary rfl (hside ho).2.1 rfl rfl⟩]
  | case5 c hw hc r hEq hOr =>
    rw [TaseVerifier.EqExpr.createPartialR.eq_def, if_pos hw, if_neg hc]
    split
    · exact absurd rfl (hEq _ _)
    · exact absurd rfl (hOr _ _)
    · rfl
  | case6 c hw a w trunc hc ih =>
    rw [TaseVerifier.EqExpr.createPartialR.eq_def, if_neg hw,
      ih fun ho => absurd (h ho).1 hw]
    exact (if_pos hc).symm
  | case7 c hw a w trunc hc =>
    rw [TaseVerifier.EqExpr.createPartialR.eq_def, if_neg hw]
    exact (if_neg hc).symm
  | case8 c hw a w trunc hc ih =>
    rw [TaseVerifier.EqExpr.createPartialR.eq_def, if_neg hw,
      ih fun ho => absurd (h ho).1 hw]
    exact (if_pos hc).symm
  | case9 c hw a w trunc hc =>
    rw [TaseVerifier.EqExpr.createPartialR.eq_def, if_neg hw]
    exact (if_neg hc).symm
  | case10 c hw d b ih | case11 c hw d b ih =>
    rw [TaseVerifier.EqExpr.createPartialR.eq_def, if_neg hw,
      ih fun ho => absurd (h ho).1 hw]
  | case12 c hw updates index hon ih => exact absurd (h hon).1 hw
  | case13 c hw updates index hon => rw [TaseVerifier.EqExpr.createPartialR.eq_def, if_neg hw]
  | case14 c hw r hSExt hZExt hAdd hSub hRead =>
    rw [TaseVerifier.EqExpr.createPartialR.eq_def, if_neg hw]
    split
    · exact absurd rfl (hSExt _ _)
    · exact absurd rfl (hZExt _ _)
    · exact absurd rfl (hAdd _ _)
    · exact absurd rfl (hSub _ _)
    · rfl

/-- The option is on and the operands are no booleans, or it makes no difference. -/
theorem EqExpr.create_eq (h : constArrayOpt = true → l.getWidth = Width.Bool ∧
      (Expr.binary .Eq l r).wellTyped = true) :
    create constArrayOpt l r = TaseVerifier.EqExpr.create l r := by
  cases l with
  | constant cl =>
    cases r with
    | constant cr => rfl
    | _ => exact createPartialR_eq _ _ h
  | _ =>
    cases r with
    | constant cr =>
      refine createPartialR_eq _ _ fun ho => ?_
      obtain ⟨hw, ht⟩ := h ho
      exact ⟨(Expr.wellTyped_operands ht).2.2.symm.trans hw,
        (TaseVerifier.EqExpr.comm_agrees ht).wellTyped⟩
    | _ => rfl

/-! ### Agreement -/

/-- Booleans that hold together stand for each other. -/
theorem agreesOn_of_holds (hl : l.isBool = true) (hr : r.isBool = true)
    (h : Holds σ r ↔ Holds σ l) : AgreesOn (· = σ) l r := by
  obtain ⟨hlt, hlw⟩ := isBool_iff.mp hl
  obtain ⟨hrt, hrw⟩ := isBool_iff.mp hr
  refine ⟨hrt, hrw.trans hlw.symm, ?_⟩
  rintro τ rfl
  obtain ⟨x, hx⟩ := Expr.eval_bool hlt hlw τ
  obtain ⟨y, hy⟩ := Expr.eval_bool hrt hrw τ
  rw [Holds, Holds, hx, hy, APInt.isTrue_ofBool, APInt.isTrue_ofBool] at h
  rw [hx, hy, APInt.ofBool_inj, Bool.eq_iff_iff]
  exact h

theorem isBool_eq (h : (Expr.binary .Eq l r).wellTyped = true) :
    (Expr.binary .Eq l r).isBool = true :=
  isBool_iff.mpr ⟨h, rfl⟩

theorem holds_of_agreesOn {mayBe : Expr} (h : (Expr.binary .Eq l r).wellTyped = true)
    (hm : AgreesOn (· = σ) (.binary .Eq l r) mayBe) :
    mayBe.isBool = true ∧ (Holds σ mayBe ↔ l.eval σ = r.eval σ) := by
  refine ⟨isBool_iff.mpr ⟨hm.wellTyped, hm.getWidth⟩, ?_⟩
  rw [← holds_eq h, Holds, Holds, hm.eval σ rfl]

/-- The disjunction so far and the positions still to be seen decide the equality. -/
theorem TryConstArrayOpt.loop_agrees {mayBe : ℕ → Expr} {cl : APInt} {rd index : Expr}
    {constantValues : List APInt} (hrd : (Expr.binary .Eq (.constant cl) rd).wellTyped = true)
    (hmay : ∀ i, (mayBe i).isBool = true ∧
      (Holds σ (mayBe i) ↔ index.eval σ = APInt.ofNat index.getWidth i)) :
    ∀ (positions : List ℕ) (numMatches : ℕ) (res : Expr), res.isBool = true →
      (cl = rd.eval σ ↔ Holds σ res ∨ ∃ i ∈ positions, constantValues[i]? = some cl ∧
        index.eval σ = APInt.ofNat index.getWidth i) →
      AgreesOn (· = σ) (.binary .Eq (.constant cl) rd)
        (TryConstArrayOpt.loop mayBe cl rd constantValues positions numMatches res)
  | [], _, res, hres, hdec => by
    refine agreesOn_of_holds (isBool_eq hrd) hres ?_
    show Holds σ res ↔ _
    rw [holds_eq hrd, Expr.eval_constant, hdec]
    simp
  | i :: positions, numMatches, res, hres, hdec => by
    unfold TryConstArrayOpt.loop
    split_ifs with hi hmax
    · exact .of_agrees (TaseVerifier.EqExpr.create'_agrees hrd)
    · obtain ⟨hor, hholds⟩ := holds_or (σ := σ) hres (hmay i).1
      refine TryConstArrayOpt.loop_agrees hrd hmay positions _ _ hor ?_
      rw [hdec, hholds, (hmay i).2]
      simp only [List.mem_cons, exists_eq_or_imp, hi, true_and, or_assoc]
    · refine TryConstArrayOpt.loop_agrees hrd hmay positions _ _ hres ?_
      rw [hdec]
      simp only [List.mem_cons, exists_eq_or_imp, hi, false_and, false_or]

theorem TryConstArrayOpt_agrees {mayBe : ℕ → Expr} {cl : APInt} {updates : UpdateList}
    {index : Expr}
    (h : (Expr.binary .Eq (.constant cl) (.read updates index)).wellTyped = true)
    (hin : (Expr.read updates index).readsInside σ)
    (hmay : ∀ i, (mayBe i).isBool = true ∧
      (Holds σ (mayBe i) ↔ index.eval σ = APInt.ofNat index.getWidth i)) :
    AgreesOn (· = σ) (.binary .Eq (.constant cl) (.read updates index))
      (TryConstArrayOpt mayBe cl updates index) := by
  have hcreate' := AgreesOn.of_agrees (H := (· = σ)) (TaseVerifier.EqExpr.create'_agrees h)
  unfold TryConstArrayOpt
  split
  · exact hcreate'
  split_ifs with hsym
  · exact hcreate'
  rename_i a
  refine TryConstArrayOpt.loop_agrees h hmay _ _ _ rfl ?_
  obtain ⟨-, -, hlt, hsize⟩ := hin
  obtain ⟨-, hrd, hw⟩ := Expr.wellTyped_operands h
  simp only [Expr.wellTyped, UpdateList.wellTyped, KleeArray.wellTyped, Bool.and_eq_true,
    Bool.or_eq_true, beq_iff_eq, hsym, Bool.false_eq_true, false_or] at hrd
  obtain ⟨⟨⟨-, hlen⟩, hit⟩, hiw⟩ := hrd
  have hlt' : (index.eval σ).toNat < a.constantValues.length := by rw [hlen]; exact hlt
  have hcell : (Expr.read (.root a) index).eval σ = a.constantValues[(index.eval σ).toNat] := by
    simp [Expr.eval, UpdateList.evalRead, KleeArray.initialValue, hsym, hlt']
  obtain ⟨x, hx⟩ := Expr.eval_mk hit hiw σ
  rw [hcell]
  constructor
  · intro hcl
    refine .inr ⟨_, List.mem_range.mpr hlt, ?_, ?_⟩
    · rw [List.getElem?_eq_getElem hlt', hcl]
    · rw [hx, hiw, APInt.ofNat, APInt.toNat_mk, BitVec.ofNat_toNat, BitVec.setWidth_eq]
  · rintro (hfalse | ⟨i, hi, hcl, hval⟩)
    · exact absurd hfalse Bool.false_ne_true
    · have hnat : (index.eval σ).toNat = i := by
        rw [hval, hiw]
        simp only [APInt.ofNat, APInt.toNat, BitVec.toNat_ofNat, Width.Int32]
        have : i < a.size := List.mem_range.mp hi
        have : a.size < 2 ^ 32 := hsize
        omega
      subst hnat
      rw [List.getElem?_eq_getElem hlt'] at hcl
      exact (Option.some.inj hcl).symm

theorem EqExpr.foldOr_agreesOn {e rest : Expr} {c : APInt}
    (h : (Expr.binary .Eq (.constant c) e).wellTyped = true)
    (hrest : AgreesOn (· = σ) (.binary .Eq (.constant c) e) rest) :
    AgreesOn (· = σ) (.binary .Eq (.constant c) e) (TaseVerifier.EqExpr.foldOr e c rest) := by
  cases e with
  | constant k => exact .of_agrees ((TaseVerifier.EqExpr.comm_agrees h).trans (agrees_fold .Eq k c))
  | _ => exact hrest

theorem EqExpr.createPartialR_agreesOn (c : APInt) (r : Expr)
    (h : (Expr.binary .Eq (.constant c) r).wellTyped = true)
    (hin : constArrayOpt = true → r.readsInside σ) :
    AgreesOn (· = σ) (.binary .Eq (.constant c) r) (createPartialR constArrayOpt c r) := by
  fun_induction createPartialR constArrayOpt c r with
  | case1 => exact .of_agrees (TaseVerifier.EqExpr.true_agrees h ‹_›)
  | case2 c hw hc d a hd =>
    exact .of_agrees (TaseVerifier.EqExpr.false_false_agrees h (by simpa using hc) hd)
  | case3 => exact .of_agrees (TaseVerifier.EqExpr.create'_agrees h)
  | case4 c hw hc a b iha ihb =>
    have hor := TaseVerifier.EqExpr.not_or_agrees h (by simpa using hc) hw
    obtain ⟨hta, htb, -⟩ := Expr.wellTyped_operands hor.wellTyped
    have hand := AgreesOn.binary hor.wellTyped
      (EqExpr.foldOr_agreesOn hta (iha hta fun ho => (hin ho).1))
      (EqExpr.foldOr_agreesOn htb (ihb htb fun ho => (hin ho).2)) rfl
    exact (AgreesOn.of_agrees hor).trans hand
  | case5 => exact .of_agrees (TaseVerifier.EqExpr.create'_agrees h)
  | case6 c hw a w trunc hc ih =>
    have ha := TaseVerifier.EqExpr.cast_agrees h hc
    exact (AgreesOn.of_agrees ha).trans (EqExpr.foldOr_agreesOn ha.wellTyped (ih ha.wellTyped hin))
  | case7 c hw a w trunc hc => exact .of_agrees (TaseVerifier.EqExpr.cast_agrees_false h hc)
  | case8 c hw a w trunc hc ih =>
    have ha := TaseVerifier.EqExpr.cast_agrees h hc
    exact (AgreesOn.of_agrees ha).trans (EqExpr.foldOr_agreesOn ha.wellTyped (ih ha.wellTyped hin))
  | case9 c hw a w trunc hc => exact .of_agrees (TaseVerifier.EqExpr.cast_agrees_false h hc)
  | case10 c hw d b ih =>
    have ha := TaseVerifier.EqExpr.add_agrees h
    exact (AgreesOn.of_agrees ha).trans (ih ha.wellTyped fun ho => (hin ho).2)
  | case11 c hw d b ih =>
    have ha := TaseVerifier.EqExpr.sub_agrees h
    exact (AgreesOn.of_agrees ha).trans (ih ha.wellTyped fun ho => (hin ho).2)
  | case12 c hw updates index hon ih =>
    have hindex : index.wellTyped = true := by
      have := (Expr.wellTyped_operands h).2.1
      simp only [Expr.wellTyped, Bool.and_eq_true] at this
      exact this.1.2
    refine TryConstArrayOpt_agrees h (hin hon) fun i => ?_
    have ht : (Expr.binary .Eq (.constant (APInt.ofNat index.getWidth i)) index).wellTyped = true :=
      Expr.wellTyped_binary rfl hindex rfl rfl
    have hbool := holds_of_agreesOn ht
      (EqExpr.foldOr_agreesOn ht (ih i ht fun ho => (hin ho).2.1))
    exact ⟨hbool.1, hbool.2.trans eq_comm⟩
  | case13 => exact .of_agrees (TaseVerifier.EqExpr.create'_agrees h)
  | case14 => exact .of_agrees (TaseVerifier.EqExpr.create'_agrees h)

theorem EqExpr.create_agreesOn (h : (Expr.binary .Eq l r).wellTyped = true)
    (hin : constArrayOpt = true → l.readsInside σ ∧ r.readsInside σ) :
    AgreesOn (· = σ) (.binary .Eq l r) (create constArrayOpt l r) := by
  unfold create
  split
  · exact .of_agrees (agrees_fold ..)
  · exact createPartialR_agreesOn _ _ h fun ho => (hin ho).2
  · have hc := TaseVerifier.EqExpr.comm_agrees h
    exact (AgreesOn.of_agrees hc).trans
      (createPartialR_agreesOn _ _ hc.wellTyped fun ho => (hin ho).1)
  · exact .of_agrees (TaseVerifier.EqExpr.create'_agrees h)

theorem NeExpr.create_agreesOn (h : (Expr.binary .Ne l r).wellTyped = true)
    (hin : constArrayOpt = true → l.readsInside σ ∧ r.readsInside σ) :
    AgreesOn (· = σ) (.binary .Ne l r) (create constArrayOpt l r) := by
  obtain ⟨hl, hr, hw⟩ := Expr.wellTyped_operands h
  have he : (Expr.binary .Eq l r).wellTyped = true := Expr.wellTyped_binary hl hr hw rfl
  have hc := EqExpr.create_agreesOn he hin
  have hn : (Expr.binary .Eq (.alloc 0 Width.Bool) (EqExpr.create constArrayOpt l r)).wellTyped =
      true := Expr.wellTyped_binary rfl hc.wellTyped hc.getWidth.symm rfl
  unfold create
  rw [EqExpr.create_eq fun _ => ⟨rfl, hn⟩]
  -- the outer equality is with the constant false
  have hz := TaseVerifier.EqExpr.create_agrees hn
  refine agreesOn_of_holds (isBool_iff.mpr ⟨h, rfl⟩)
    (isBool_iff.mpr ⟨hz.wellTyped, hz.getWidth⟩) ?_
  obtain ⟨b, hb⟩ := Expr.eval_bool he rfl σ
  rw [Holds, Holds, hz.eval, Expr.eval_eq hn, hc.eval σ rfl, hb, Expr.eval_alloc]
  have hne : (Expr.binary .Ne l r).eval σ = (APInt.ofBool b).not := by rw [← hb]; rfl
  rw [hne]
  cases b <;> decide

/-- What the walk over the update list found out about the cell read. -/
theorem ReadExpr.scan_spec {index : Expr} {ul : UpdateList} (hi : index.wellTyped = true)
    (hw : index.getWidth = Width.Int32) (hul : ul.wellTyped = true)
    (hin : constArrayOpt = true → index.readsInside σ ∧ ul.readsInside σ) :
    match scan constArrayOpt index ul with
    | .inl v => v.wellTyped = true ∧ v.getWidth = Width.Int8 ∧
        ul.evalRead σ (index.eval σ) = v.eval σ
    | .inr false => ul.evalRead σ (index.eval σ) = ul.array.initialValue σ (index.eval σ).toNat
    | .inr true => True := by
  have hstep : ∀ {i v : Expr} {next : UpdateList} {c : APInt},
      (UpdateList.node i v next).wellTyped = true →
      (constArrayOpt = true → index.readsInside σ ∧ (UpdateList.node i v next).readsInside σ) →
      EqExpr.create constArrayOpt index i = .constant c →
      (index.eval σ = i.eval σ ↔ c.isTrue = true) := by
    intro i v next c hul hin hc
    simp only [UpdateList.wellTyped, Bool.and_eq_true, beq_iff_eq] at hul
    have he : (Expr.binary .Eq index i).wellTyped = true :=
      Expr.wellTyped_binary hi hul.1.1.1.1 (hw.trans hul.1.2.symm) rfl
    have ha := EqExpr.create_agreesOn he fun ho => ⟨(hin ho).1, (hin ho).2.1⟩
    rw [hc] at ha
    exact (holds_of_agreesOn he ha).2.symm
  fun_induction scan constArrayOpt index ul with
  | case1 => rfl
  | case2 i v next c hc htrue =>
    have hhit := (hstep hul hin hc).mpr htrue
    simp only [UpdateList.wellTyped, Bool.and_eq_true, beq_iff_eq] at hul
    exact ⟨hul.1.1.1.2, hul.2, by rw [UpdateList.evalRead, if_pos hhit.symm]⟩
  | case3 i v next c hc hfalse ih =>
    have hskip : (UpdateList.node i v next).evalRead σ (index.eval σ) =
        next.evalRead σ (index.eval σ) := by
      rw [UpdateList.evalRead, if_neg]
      exact fun h => hfalse ((hstep hul hin hc).mp h.symm)
    simp only [UpdateList.wellTyped, Bool.and_eq_true, beq_iff_eq] at hul
    have ih := ih hul.1.1.2 fun ho => ⟨(hin ho).1, (hin ho).2.2.2⟩
    rw [hskip]
    exact ih
  | case4 => trivial

theorem ReadExpr.create_agreesOn {index : Expr} {ul : UpdateList}
    (h : (Expr.read ul index).wellTyped = true)
    (hin : constArrayOpt = true → index.readsInside σ ∧ ul.readsInside σ) :
    AgreesOn (· = σ) (.read ul index) (create constArrayOpt ul index) := by
  have ht := h
  simp only [Expr.wellTyped, Bool.and_eq_true, beq_iff_eq] at ht
  have hspec := scan_spec ht.1.2 ht.2 ht.1.1 hin
  unfold create
  split
  next v hv =>
    rw [hv] at hspec
    refine ⟨hspec.1, hspec.2.1, ?_⟩
    rintro _ rfl
    exact hspec.2.2.symm
  next sw hsw =>
    rw [hsw] at hspec
    split_ifs with hc
    · simp only [Bool.and_eq_true, Bool.not_eq_true'] at hc
      rw [hc.2] at hspec
      split
      next c =>
        split_ifs
        · -- a constant cell: the root's table holds the value read
          have hval : ul.evalRead σ c =
              ul.array.constantValues[c.toNat]?.getD (APInt.ofNat Width.Int8 0) := by
            rw [Expr.eval_constant] at hspec
            rw [hspec, KleeArray.initialValue, if_neg]
            · rfl
            · simpa [KleeArray.isConstantArray] using hc.1
          refine ⟨rfl, ?_, ?_⟩
          · rw [Expr.getWidth_constant, ← hval]
            exact ul.width_evalRead _ ht.1.1 c
          · rintro _ rfl
            exact hval.symm
        · exact .refl h
      next => exact .refl h
    · exact .refl h

end ConstArrayOpt

end TaseVerifier
