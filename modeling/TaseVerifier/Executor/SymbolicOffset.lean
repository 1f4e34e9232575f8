import TaseVerifier.Executor.MavlinkWrite
import TaseVerifier.Memory.ReadValue

/-! Reads at a symbolic offset. All values of the offset are enumerated, and the result is
a fresh variable that a disjunction ties to them: for one of the values, the offset
has that value and the variable has what is stored there. -/

namespace TaseVerifier

open UFManager ConstraintManager

namespace Executor

/-- `tase_make_symbolic_internal`: the bytes of a new array are written to memory. -/
def taseMakeSymbolicInternal (addr len : ℕ) (array : KleeArray) (m : Memory) : Memory :=
  (List.range len).foldl (fun m i =>
    m.taseHelperWrite (addr + i) (ReadExpr.create (.root array) (.alloc i Width.Int32))) m

/-- `ObjectState::read` of the object at `os`, at a constant offset cut to 32 bits. -/
def readObject (os : ℕ) (offVal : APInt) (type : ℕ) (m : Memory) : Expr :=
  m.read (os + offVal.toNat % 2 ^ 32) (type / 8)

def currOffsetValConstraint (offset newSymVar val : Expr) (offVal : APInt) : Expr :=
  AndExpr.create (EqExpr.create val newSymVar) (EqExpr.create offset (.constant offVal))

/-- The disjunction over all offsets; without any it is never assigned. -/
def allOffsetValConstraint (offset newSymVar : Expr) (read : APInt → Expr) : List APInt → Option Expr
  | [] => none
  | v :: vs => some (vs.foldl
      (fun all v => OrExpr.create all (currOffsetValConstraint offset newSymVar (read v) v))
      (currOffsetValConstraint offset newSymVar (read v) v))

/-- Where the process stops instead of returning. -/
inductive Fault where
  | abort (reason : Abort)
  /-- A null expression is used as a condition. -/
  | nullCondition
  deriving DecidableEq

/-- `handleSymbolicOffset`, for the object at address `os`. `buf` is the address that `malloc`
returns, `name` the unique name that the new array gets. -/
def handleSymbolicOffset (getNPossibleValues : List Expr → Expr → ℕ → List APInt) (name : String)
    (buf : ℕ) (offset : Expr) (os type : ℕ) (s : PathState) (m : Memory) :
    Except Fault (Expr × PathState × Memory) :=
  let (cons, s) := getDepCons offset false s
  let offs := getNPossibleValues cons offset 500
  let bytes := (type + 7) / 8
  match offs with
  | [offVal] => .ok (readObject os offVal type m, s, m)
  | offs =>
    let (array, s) := s.createArray name bytes []
    let m := taseMakeSymbolicInternal buf bytes array m
    let newSymVar := m.taseHelperRead buf bytes
    match allOffsetValConstraint offset newSymVar (fun v => readObject os v type m) offs with
    | none => .error .nullCondition
    | some cond =>
      match addConstraint cond s with
      | .error reason => .error (.abort reason)
      | .ok s => .ok (newSymVar, s, m)

/-- The path condition and the memory mention arrays that exist. -/
def Mentions (s : PathState) (m : Memory) : Prop :=
  (∀ c ∈ s.cons.constraints, c.Over s.arrays) ∧ ∀ a, (m.read8 a).Over s.arrays

/-! ### The new variable -/

section NewVariable

variable {m : Memory} {array : KleeArray} {addr len : ℕ}

theorem create_read_symbolic (hsym : array.isSymbolicArray = true) (i : ℕ) :
    ReadExpr.create (.root array) (.alloc i Width.Int32) = .read (.root array) (.alloc i Width.Int32) := by
  simp [ReadExpr.create, ReadExpr.scan, KleeArray.isConstantArray, UpdateList.array, hsym]

/-- Each byte becomes a read of the new array; the words outside stay. -/
theorem taseMakeSymbolicInternal_spec (addr len : ℕ) (hm : m.Inv) (hsym : array.constantValues = []) :
    (taseMakeSymbolicInternal addr len array m).Inv ∧
      (∀ i < len, (taseMakeSymbolicInternal addr len array m).read8 (addr + i) =
        .read (.root array) (.alloc i Width.Int32)) ∧
      (∀ b, (∀ i < len, b ≠ addr + i) →
        (taseMakeSymbolicInternal addr len array m).read8 b = m.read8 b) ∧
      ∀ b, (∀ i < len, Memory.align b ≠ Memory.align (addr + i)) →
        taseMakeSymbolicInternal addr len array m b = m b := by
  have hs : array.isSymbolicArray = true := by simp [KleeArray.isSymbolicArray, hsym]
  induction len with
  | zero => exact ⟨hm, fun i hi => absurd hi (Nat.not_lt_zero i), fun _ _ => rfl, fun _ _ => rfl⟩
  | succ n ih =>
    obtain ⟨hinv, hread, hframe, hout⟩ := ih
    have ht : (Expr.read (.root array) (.alloc n Width.Int32)).wellTyped = true := by
      simp [Expr.wellTyped, UpdateList.wellTyped, KleeArray.wellTyped, hsym, hs, Expr.alloc,
        APInt.ofNat]
    have hspec := Memory.taseHelperWrite_spec (a := addr + n) hinv ht rfl
    have hstep : taseMakeSymbolicInternal addr (n + 1) array m =
        Memory.taseHelperWrite (addr + n) (.read (.root array) (.alloc n Width.Int32))
          (taseMakeSymbolicInternal addr n array m) := by
      simp [taseMakeSymbolicInternal, List.range_succ, create_read_symbolic hs]
    rw [hstep]
    refine ⟨hspec.1, fun i hi => ?_, fun b hb => ?_, fun b hb => ?_⟩
    · rw [hspec.2]
      by_cases hin : i = n
      · rw [hin, if_pos rfl]
      · rw [if_neg (by omega)]
        exact hread i (by omega)
    · rw [hspec.2, if_neg (hb n (Nat.lt_succ_self n))]
      exact hframe b fun i hi => hb i (by omega)
    · rw [Memory.taseHelperWrite_apply _ rfl (hb n (Nat.lt_succ_self n))]
      exact hout b fun i hi => hb i (by omega)

theorem eval_read_symbolic (hsym : array.constantValues = []) {i : ℕ} (hi : i < array.size)
    (h32 : i < 2 ^ 32) (σ : Assignment) :
    (Expr.read (.root array) (.alloc i Width.Int32)).eval σ = ⟨8, σ array i⟩ := by
  have hs : array.isSymbolicArray = true := by simp [KleeArray.isSymbolicArray, hsym]
  simp only [Expr.eval, UpdateList.evalRead, Expr.alloc, KleeArray.initialValue, hs, if_true,
    APInt.toNat_ofNat, Width.Int32, Nat.mod_eq_of_lt h32, if_pos hi]

end NewVariable

/-! ### The disjunction -/

section Disjunction

variable {offset newSymVar val : Expr} {v : APInt} {σ : Assignment}

theorem currOffsetValConstraint_spec (hval : val.wellTyped = true) (hnew : newSymVar.wellTyped = true)
    (hw : val.getWidth = newSymVar.getWidth) (hoff : offset.wellTyped = true)
    (hv : v.width = offset.getWidth) :
    (currOffsetValConstraint offset newSymVar val v).isBool = true ∧
      ∀ σ, Holds σ (currOffsetValConstraint offset newSymVar val v) ↔
        val.eval σ = newSymVar.eval σ ∧ offset.eval σ = v := by
  have heq : (Expr.binary .Eq val newSymVar).wellTyped = true :=
    Expr.wellTyped_binary hval hnew hw rfl
  have heq' : (Expr.binary .Eq offset (.constant v)).wellTyped = true :=
    Expr.wellTyped_binary hoff rfl hv.symm rfl
  have ha := EqExpr.create_agrees heq
  have ha' := EqExpr.create_agrees heq'
  have hw₁ : (EqExpr.create val newSymVar).getWidth = 1 := ha.getWidth
  have hw₂ : (EqExpr.create offset (.constant v)).getWidth = 1 := ha'.getWidth
  have hand := AndExpr.create_agrees
    (Expr.wellTyped_binary (k := .And) ha.wellTyped ha'.wellTyped (hw₁.trans hw₂.symm) rfl)
  refine ⟨isBool_iff.mpr ⟨hand.wellTyped, hand.getWidth.trans hw₁⟩, fun σ => ?_⟩
  rw [currOffsetValConstraint, Holds, hand.eval]
  refine (holds_and ha.wellTyped ha'.wellTyped hw₁ hw₂).trans ?_
  rw [holds_create_eq hoff hv, Holds, ha.eval]
  exact and_congr_left' (holds_eq heq)

/-- The fold over further alternatives. -/
theorem foldl_or_spec {arm : APInt → Expr} {vs : List APInt} (harm : ∀ v ∈ vs, (arm v).isBool = true)
    {all : Expr} (hall : all.isBool = true) :
    (vs.foldl (fun all v => OrExpr.create all (arm v)) all).isBool = true ∧
      ∀ σ, Holds σ (vs.foldl (fun all v => OrExpr.create all (arm v)) all) ↔
        Holds σ all ∨ ∃ v ∈ vs, Holds σ (arm v) := by
  induction vs generalizing all with
  | nil => exact ⟨hall, by simp⟩
  | cons v vs ih =>
    have hv := harm v List.mem_cons_self
    obtain ⟨hb, hm⟩ := ih (fun w hw => harm w (List.mem_cons_of_mem v hw))
      (holds_or (σ := fun _ _ => 0) hall hv).1
    refine ⟨hb, fun σ => (hm σ).trans ?_⟩
    rw [(holds_or hall hv).2, List.exists_mem_cons_iff, or_assoc]

theorem or_create_of_not_constant {l r : Expr} (hl : l.isConstant = false)
    (hr : r.isConstant = false) : OrExpr.create l r = .binary .Or l r := by
  cases l with
  | constant c => cases hl
  | _ =>
    cases r with
    | constant c => cases hr
    | _ => rfl

/-- Alternatives that are no constants stay a disjunction. -/
theorem foldl_or_binary (arm : APInt → Expr) {vs : List APInt}
    (harm : ∀ v ∈ vs, (arm v).isConstant = false) {l r : Expr} :
    ∃ l' r', vs.foldl (fun all v => OrExpr.create all (arm v)) (.binary .Or l r) = .binary .Or l' r' := by
  induction vs generalizing l r with
  | nil => exact ⟨l, r, rfl⟩
  | cons v vs ih =>
    rw [List.foldl_cons, or_create_of_not_constant rfl (harm v List.mem_cons_self)]
    exact ih fun w hw => harm w (List.mem_cons_of_mem v hw)

theorem isConstant_eq_false {e : Expr} {τ : Assignment} (hσ : Holds σ e) (hτ : ¬ Holds τ e) :
    e.isConstant = false := by
  cases e with
  | constant c => exact absurd hσ hτ
  | _ => rfl

/-- Two alternatives or more that are no constants. -/
theorem allOffsetValConstraint_spec (read : APInt → Expr) {offs : List APInt} (hlen : 2 ≤ offs.length)
    (harm : ∀ v ∈ offs, (currOffsetValConstraint offset newSymVar (read v) v).isBool = true ∧
      (currOffsetValConstraint offset newSymVar (read v) v).isConstant = false) :
    ∃ l r, allOffsetValConstraint offset newSymVar read offs = some (.binary .Or l r) ∧
      ∀ σ, Holds σ (.binary .Or l r) ↔
        ∃ v ∈ offs, Holds σ (currOffsetValConstraint offset newSymVar (read v) v) := by
  match offs with
  | [] => exact absurd hlen (by simp)
  | [v] => exact absurd hlen (by simp)
  | v :: w :: vs =>
    obtain ⟨hv, hvs⟩ := List.forall_mem_cons.mp harm
    obtain ⟨hw, hvs'⟩ := List.forall_mem_cons.mp hvs
    obtain ⟨l, r, hor⟩ := foldl_or_binary (fun u => currOffsetValConstraint offset newSymVar (read u) u)
      (fun u hu => (hvs' u hu).2) (l := currOffsetValConstraint offset newSymVar (read v) v)
      (r := currOffsetValConstraint offset newSymVar (read w) w)
    have heq : allOffsetValConstraint offset newSymVar read (v :: w :: vs) = some (.binary .Or l r) := by
      rw [allOffsetValConstraint, List.foldl_cons, or_create_of_not_constant hv.2 hw.2, hor]
    refine ⟨l, r, heq, fun σ => ?_⟩
    have hspec := (foldl_or_spec (fun u hu => (hvs u hu).1) hv.1).2 σ
    rw [allOffsetValConstraint] at heq
    rw [← Option.some.inj heq, hspec, List.exists_mem_cons_iff (a := v)]

end Disjunction

/-! ### The read -/

/-- The values of the offset, as enumerated. -/
def offsetValues (getNPossibleValues : List Expr → Expr → ℕ → List APInt) (offset : Expr)
    (s : PathState) : List APInt := getNPossibleValues (getDepCons offset false s).1 offset 500

/-- A read of `type` bits at a symbolic offset into the object of `size` bytes at `os`: the
offset has several values, all of which were enumerated and are in bounds; the name
is not in use, and the buffer is even and lies apart from the object. -/
structure SymbolicRead (getNPossibleValues : List Expr → Expr → ℕ → List APInt) (name : String)
    (buf : ℕ) (offset : Expr) (os size type : ℕ) (s : PathState) (m : Memory) : Prop where
  memory : m.Inv
  mentions : Mentions s m
  typed : offset.wellTyped = true
  isOver : offset.Over s.arrays
  width : type = Width.Int8 ∨ type = Width.Int16 ∨ type = Width.Int32 ∨ type = Width.Int64
  small : size < 2 ^ 32
  fresh : ∀ a ∈ s.arrays, a.name ≠ name
  even : buf % 2 = 0
  apart : buf + (type / 8 + 8) ≤ os ∨ os + size ≤ buf
  values : ∀ v, v ∈ offsetValues getNPossibleValues offset s ↔ CanBe s.cons.constraints offset v
  nodup : (offsetValues getNPossibleValues offset s).Nodup
  several : 2 ≤ (offsetValues getNPossibleValues offset s).length
  inBounds : ∀ v ∈ offsetValues getNPossibleValues offset s, v.toNat + type / 8 ≤ size

section Handle

variable {getNPossibleValues : List Expr → Expr → ℕ → List APInt} {name : String} {buf : ℕ}
  {offset : Expr} {os size type : ℕ} {s : PathState} {m : Memory}

theorem createArray_fresh (hname : ∀ a ∈ s.arrays, a.name ≠ name) (len : ℕ) :
    ∃ array s', s.createArray name len [] = (array, s') ∧ array.name = name ∧ array.size = len ∧
      array.constantValues = [] ∧ s'.arrays = s.arrays ++ [array] ∧
      s'.cons.constraints = s.cons.constraints := by
  have hfind : s.arrays.find? (fun b => (⟨name, len, s.cons.ufmanager.size, []⟩ : KleeArray).isSymbolicArray
      && b.isSymbolicArray && b.name == name && b.size == len) = none := by
    rw [List.find?_eq_none]
    intro b hb
    simp [hname b hb]
  refine ⟨(s.createArray name len []).1, (s.createArray name len []).2, rfl, ?_⟩
  unfold PathState.createArray
  simp [hfind]

/-- A disjunction is stored as it is. -/
theorem addConstraint_or (l r : Expr) (s : PathState) :
    ∃ s', addConstraint (.binary .Or l r) s = .ok s' ∧ s'.arrays = s.arrays ∧
      s'.cons.constraints = s.cons.constraints ++ [.binary .Or l r] :=
  ⟨_, rfl, rfl, rfl⟩

/-- An assignment changed outside the arrays gives the same values. -/
theorem eval_update {e : Expr} {arrays : List KleeArray} (ho : e.Over arrays) {array : KleeArray}
    (ha : array ∉ arrays) (σ : Assignment) (f : ℕ → BitVec 8) :
    e.eval (Function.update σ array f) = e.eval σ :=
  e.eval_congr fun b hb => Function.update_of_ne (fun h : b = array => ha (h ▸ ho b hb)) f σ

theorem satisfies_update {cs : List Expr} {arrays : List KleeArray} (ho : ∀ c ∈ cs, c.Over arrays)
    {array : KleeArray} (ha : array ∉ arrays) (σ : Assignment) (f : ℕ → BitVec 8) :
    Satisfies (Function.update σ array f) cs ↔ Satisfies σ cs :=
  forall₂_congr fun c hc => by rw [Holds, Holds, eval_update (ho c hc) ha]

theorem SymbolicRead.bytes (h : SymbolicRead getNPossibleValues name buf offset os size type s m) :
    Memory.ReadSize (type / 8) ∧ (type + 7) / 8 = type / 8 ∧ type = 8 * (type / 8) := by
  have ht := h.width
  simp only [Width.Int8, Width.Int16, Width.Int32, Width.Int64] at ht
  rcases ht with rfl | rfl | rfl | rfl <;> decide

/-- The object reads as before the buffer was made. -/
theorem SymbolicRead.readObject_eq
    (h : SymbolicRead getNPossibleValues name buf offset os size type s m) {array : KleeArray}
    (hsym : array.constantValues = []) {v : APInt}
    (hv : v ∈ offsetValues getNPossibleValues offset s) :
    readObject os v type (taseMakeSymbolicInternal buf (type / 8) array m) =
      m.read (os + v.toNat) (type / 8) := by
  have hin := h.inBounds v hv
  have hsize := h.small
  have hpos := h.bytes.1.pos
  rw [readObject, Nat.mod_eq_of_lt (by omega)]
  refine Memory.read_congr (fun b hb => ?_) hpos
  obtain ⟨j, hj, hbj⟩ := hb
  refine (taseMakeSymbolicInternal_spec buf (type / 8) h.memory hsym).2.2.2 b fun i hi => ?_
  have hapart := h.apart
  have heven := h.even
  rw [hbj]
  unfold Memory.align
  omega

/-- The value of the new variable is put together from the bytes of its array. -/
theorem SymbolicRead.eval_newSymVar
    (h : SymbolicRead getNPossibleValues name buf offset os size type s m) {array : KleeArray}
    (hsym : array.constantValues = []) (hsize : array.size = type / 8) :
    let m' := taseMakeSymbolicInternal buf (type / 8) array m
    (m'.taseHelperRead buf (type / 8)).wellTyped = true ∧
      (m'.taseHelperRead buf (type / 8)).getWidth = type ∧
      ∀ σ, (m'.taseHelperRead buf (type / 8)).eval σ =
        APInt.concatBytes (fun i => ⟨8, σ array i⟩) (type / 8) := by
  intro m'
  obtain ⟨hinv, hread, hframe, -⟩ :=
    taseMakeSymbolicInternal_spec buf (type / 8) h.memory hsym
  obtain ⟨hsz, -, htype⟩ := h.bytes
  have hover : ∀ b, (m'.read8 b).Over (s.arrays ++ [array]) := by
    intro b
    by_cases hb : ∃ i < type / 8, b = buf + i
    · obtain ⟨i, hi, rfl⟩ := hb
      rw [hread i hi]
      intro a ha
      simp [Expr.symbolicRoots, UpdateList.symbolicRoots, Expr.alloc] at ha
      simp [ha.2]
    · rw [hframe b fun i hi hbi => hb ⟨i, hi, hbi⟩]
      exact fun a ha => List.mem_append_left _ (h.mentions.2 b a ha)
  obtain ⟨ht, hw, -⟩ := Memory.read_typed hinv hover buf hsz
  refine ⟨ht, hw.trans htype.symm, fun σ => ?_⟩
  have hval := Memory.read_eval hinv hsz.pos buf σ
  rw [Memory.taseHelperRead, hval, Memory.valueAt]
  rw [APInt.concatBytes_inj (fun i => hinv.width_read8 _ σ) (fun i => rfl) hsz.pos]
  intro i hi
  rw [hread i hi, eval_read_symbolic hsym (by omega) (by have := hsz.le; omega)]

/-- No alternative is a constant: it holds at its own offset, for the right value of
the new variable, and fails at any other offset. -/
theorem SymbolicRead.arm_not_constant
    (h : SymbolicRead getNPossibleValues name buf offset os size type s m) {array : KleeArray}
    (harray : array ∉ s.arrays) {newSymVar : Expr} (hnewt : newSymVar.wellTyped = true)
    (hneww : newSymVar.getWidth = type) (hnew : ∀ σ, newSymVar.eval σ =
      APInt.concatBytes (fun i => ⟨8, σ array i⟩) (type / 8)) {v : APInt}
    (hv : v ∈ offsetValues getNPossibleValues offset s) :
    (currOffsetValConstraint offset newSymVar (m.read (os + v.toNat) (type / 8)) v).isBool = true ∧
      (currOffsetValConstraint offset newSymVar (m.read (os + v.toNat) (type / 8)) v).isConstant = false ∧
      ∀ σ, Holds σ (currOffsetValConstraint offset newSymVar (m.read (os + v.toNat) (type / 8)) v) ↔
        (m.read (os + v.toNat) (type / 8)).eval σ = newSymVar.eval σ ∧ offset.eval σ = v := by
  obtain ⟨hsz, -, htype⟩ := h.bytes
  obtain ⟨ht, hw, hov⟩ := Memory.read_typed h.memory h.mentions.2 (os + v.toNat) hsz
  obtain ⟨σ, hσ, hσv⟩ := (h.values v).mp hv
  have hvw : v.width = offset.getWidth := hσv ▸ offset.width_eval σ h.typed
  obtain ⟨hbool, hholds⟩ := currOffsetValConstraint_spec ht hnewt (by rw [hw, hneww, ← htype])
    h.typed hvw
  refine ⟨hbool, ?_, hholds⟩
  -- the two assignments
  obtain ⟨f, hf⟩ := APInt.exists_bytes (c := (m.read (os + v.toNat) (type / 8)).eval σ) hsz.pos
    (by rw [Expr.width_eval σ _ ht, hw])
  obtain ⟨w, hw', hne⟩ : ∃ w ∈ offsetValues getNPossibleValues offset s, w ≠ v := by
    by_contra hall
    push Not at hall
    have hsev := h.several
    have hrep := List.eq_replicate_iff.mpr ⟨rfl, hall⟩
    have hnd := h.nodup
    rw [hrep, List.nodup_replicate] at hnd
    omega
  obtain ⟨τ, -, hτ⟩ := (h.values w).mp hw'
  refine isConstant_eq_false (σ := Function.update σ array f) (τ := τ) ?_ fun hh => ?_
  · rw [hholds, eval_update hov harray, eval_update h.isOver harray, hnew]
    refine ⟨?_, hσv⟩
    simp only [Function.update_self]
    exact hf.symm
  · exact hne (hτ ▸ ((hholds τ).mp hh).2)

/-- The call, once the disjunction is known. -/
theorem handleSymbolicOffset_several (hlen : 2 ≤ (offsetValues getNPossibleValues offset s).length)
    {array : KleeArray} {s₂ s' : PathState} {cond : Expr}
    (hcreate : (getDepCons offset false s).2.createArray name ((type + 7) / 8) [] = (array, s₂))
    (hcond : allOffsetValConstraint offset
      ((taseMakeSymbolicInternal buf ((type + 7) / 8) array m).taseHelperRead buf ((type + 7) / 8))
      (fun v => readObject os v type (taseMakeSymbolicInternal buf ((type + 7) / 8) array m))
      (offsetValues getNPossibleValues offset s) = some cond)
    (hadd : addConstraint cond s₂ = .ok s') :
    handleSymbolicOffset getNPossibleValues name buf offset os type s m =
      .ok ((taseMakeSymbolicInternal buf ((type + 7) / 8) array m).taseHelperRead buf ((type + 7) / 8),
        s', taseMakeSymbolicInternal buf ((type + 7) / 8) array m) := by
  unfold offsetValues at hlen hcond
  unfold handleSymbolicOffset
  simp only [hcreate]
  split
  next v hv =>
    rw [hv] at hlen
    simp at hlen
  · rw [hcond]
    simp only [hadd]

/-- The call returns the new variable, and ties it to what is read at the offset. -/
theorem SymbolicRead.handle_spec
    (h : SymbolicRead getNPossibleValues name buf offset os size type s m) :
    ∃ result s' m' fresh,
      handleSymbolicOffset getNPossibleValues name buf offset os type s m = .ok (result, s', m') ∧
      s'.arrays = s.arrays ++ [fresh] ∧ fresh ∉ s.arrays ∧
      (∀ σ, result.eval σ = APInt.concatBytes (fun i => ⟨8, σ fresh i⟩) (type / 8)) ∧
      ∀ σ, Satisfies σ s'.cons.constraints ↔ Satisfies σ s.cons.constraints ∧
        (m.read (os + (offset.eval σ).toNat) (type / 8)).eval σ = result.eval σ := by
  obtain ⟨array, s₂, hcreate, hname, hsize, hsym, harr, hcons⟩ :=
    createArray_fresh (s := (getDepCons offset false s).2) h.fresh (type / 8)
  obtain ⟨hnewt, hneww, hnew⟩ := h.eval_newSymVar hsym hsize
  have harray : array ∉ s.arrays := fun ha => h.fresh array ha hname
  have harm : ∀ v ∈ offsetValues getNPossibleValues offset s,
      readObject os v type (taseMakeSymbolicInternal buf (type / 8) array m) =
        m.read (os + v.toNat) (type / 8) ∧ _ := fun v hv =>
    ⟨h.readObject_eq hsym hv, h.arm_not_constant harray hnewt hneww hnew hv⟩
  obtain ⟨l, r, hor, hholds⟩ := allOffsetValConstraint_spec
    (fun v => readObject os v type (taseMakeSymbolicInternal buf (type / 8) array m)) h.several
    fun v hv => by
      rw [(harm v hv).1]
      exact ⟨(harm v hv).2.1, (harm v hv).2.2.1⟩
  obtain ⟨s', hadd, harr', hcons'⟩ := addConstraint_or l r s₂
  refine ⟨_, s', _, array, handleSymbolicOffset_several h.several (h.bytes.2.1 ▸ hcreate) ?_ hadd,
    harr'.trans harr, harray, ?_, fun σ => ?_⟩
  · rw [h.bytes.2.1]
    exact hor
  · rw [h.bytes.2.1]
    exact hnew
  · rw [hcons', hcons, satisfies_append, satisfies_cons, hholds, h.bytes.2.1]
    refine and_congr_right fun hσ => ?_
    constructor
    · rintro ⟨⟨v, hv, hh⟩, -⟩
      rw [(harm v hv).1] at hh
      obtain ⟨hval, rfl⟩ := ((harm v hv).2.2.2 σ).mp hh
      exact hval
    · intro hval
      have hmem := (h.values _).mpr ⟨σ, hσ, rfl⟩
      refine ⟨⟨_, hmem, ?_⟩, by simp [Satisfies]⟩
      rw [(harm _ hmem).1]
      exact ((harm _ hmem).2.2.2 σ).mpr ⟨hval, rfl⟩

end Handle

/-! ### Exactness -/

/-- The read is modelled exactly: the result has the value stored at the offset, and every
assignment that met the path condition extends to one assignment of the new array. -/
structure ExactRead (offset : Expr) (os type : ℕ) (s : PathState) (m : Memory) (result : Expr)
    (s' : PathState) (fresh : KleeArray) : Prop where
  arrays : s'.arrays = s.arrays ++ [fresh]
  new : fresh ∉ s.arrays
  value : ∀ σ, Satisfies σ s'.cons.constraints →
    result.eval σ = m.valueAt (os + (offset.eval σ).toNat) (type / 8) σ
  extension : ∀ σ, Satisfies σ s.cons.constraints →
    ∃ f, Satisfies (Function.update σ fresh f) s'.cons.constraints ∧
      ∀ g, Satisfies (Function.update σ fresh g) s'.cons.constraints → ∀ i < type / 8, g i = f i

section Exact

variable {offset : Expr} {os type : ℕ} {s s' : PathState} {m : Memory} {result : Expr}
  {fresh : KleeArray}

/-- A result tied to what is read is exact. -/
theorem exactRead_of_tied (hm : m.Inv) (hmen : Mentions s m) (hover : offset.Over s.arrays)
    (hsz : Memory.ReadSize (type / 8)) (harr : s'.arrays = s.arrays ++ [fresh])
    (hfresh : fresh ∉ s.arrays)
    (hres : ∀ σ, result.eval σ = APInt.concatBytes (fun i => ⟨8, σ fresh i⟩) (type / 8))
    (hpath : ∀ σ, Satisfies σ s'.cons.constraints ↔ Satisfies σ s.cons.constraints ∧
      (m.read (os + (offset.eval σ).toNat) (type / 8)).eval σ = result.eval σ) :
    ExactRead offset os type s m result s' fresh := by
  have htyped := fun a => Memory.read_typed hm hmen.2 a hsz
  -- what an extension of `σ` has to meet
  have hext : ∀ σ f, Satisfies (Function.update σ fresh f) s'.cons.constraints ↔
      Satisfies σ s.cons.constraints ∧
        (m.read (os + (offset.eval σ).toNat) (type / 8)).eval σ =
          APInt.concatBytes (fun i => ⟨8, f i⟩) (type / 8) := by
    intro σ f
    rw [hpath, satisfies_update hmen.1 hfresh, eval_update hover hfresh,
      eval_update (htyped _).2.2 hfresh, hres]
    simp only [Function.update_self]
  refine ⟨harr, hfresh, fun σ hσ => ?_, fun σ hσ => ?_⟩
  · obtain ⟨-, hread⟩ := (hpath σ).mp hσ
    rw [← hread, Memory.read_eval hm hsz.pos]
  · obtain ⟨f, hf⟩ := APInt.exists_bytes hsz.pos
      (by rw [Expr.width_eval σ _ (htyped (os + (offset.eval σ).toNat)).1, (htyped _).2.1])
    refine ⟨f, (hext σ f).mpr ⟨hσ, hf.symm⟩, fun g hg i hi => ?_⟩
    have hgf := (((hext σ g).mp hg).2.symm.trans hf.symm)
    rw [APInt.concatBytes_inj (fun _ => rfl) (fun _ => rfl) hsz.pos] at hgf
    simpa using hgf i hi

end Exact

/-- A read at a symbolic offset returns, and is modelled exactly. -/
theorem handleSymbolicOffset_exact
    (getNPossibleValues : List Expr → Expr → ℕ → List APInt) (name : String) (buf : ℕ) (offset : Expr)
    (os size type : ℕ) (s : PathState) (m : Memory)
    (h : SymbolicRead getNPossibleValues name buf offset os size type s m) :
    ∃ result s' m' fresh,
      handleSymbolicOffset getNPossibleValues name buf offset os type s m = .ok (result, s', m') ∧
      ExactRead offset os type s m result s' fresh := by
  obtain ⟨result, s', m', fresh, hok, harr, hfresh, hres, hpath⟩ := h.handle_spec
  exact ⟨result, s', m', fresh, hok,
    exactRead_of_tied h.memory h.mentions h.isOver h.bytes.1 harr hfresh hres hpath⟩

/-- Two bytes are read at offset 0 or 1, as a symbolic byte selects. The word at 2 holds that
byte and a constant. -/
theorem handleSymbolicOffset_exact_odd :
    let byte := Expr.read (.root ⟨"a", 1, 0, []⟩) (.alloc 0 32)
    let offset := Expr.select (.binary .Eq (.alloc 0 8) byte) (.alloc 0 64) (.alloc 1 64)
    let s := (PathState.init.createArray "a" 1 []).2
    let m := Memory.oneWord 2 byte (.alloc 7 8)
    ∃ result s' m' fresh,
      handleSymbolicOffset (fun _ _ _ => [.ofNat 64 0, .ofNat 64 1]) "b" 64 offset 0 16 s m =
        .ok (result, s', m') ∧ ExactRead offset 0 16 s m result s' fresh := by
  intro byte offset s m
  have h : SymbolicRead (fun _ _ _ => [.ofNat 64 0, .ofNat 64 1]) "b" 64 offset 0 8 16 s m := by
    refine ⟨Memory.inv_oneWord rfl (by decide) (by decide), ⟨by decide, fun b => ?_⟩, by decide,
      by decide, .inr (.inl rfl), by decide, by decide, rfl, .inr (by decide), fun u => ?_,
      by decide, le_rfl, by decide⟩
    · rw [Memory.read8_oneWord]
      split_ifs <;> decide
    · rw [offsetValues, List.mem_cons, List.mem_singleton]
      constructor
      · rintro (rfl | rfl)
        · exact ⟨fun _ _ => 0, by decide, by decide⟩
        · exact ⟨fun _ _ => 1, by decide, by decide⟩
      · rintro ⟨σ, -, rfl⟩
        rw [Expr.eval]
        split_ifs
        · exact .inl rfl
        · exact .inr rfl
  exact handleSymbolicOffset_exact _ "b" 64 offset 0 8 16 s m h

end Executor

end TaseVerifier
