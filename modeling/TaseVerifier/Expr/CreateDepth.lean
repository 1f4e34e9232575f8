import TaseVerifier.Expr.Create

/-! The recursion of the constructors for `Add`, `Sub` and `Eq`, call by call. Here each
constructor is given the depth that is left and calls the others with one less, on
whatever the inner call returned, as the source does; without depth there is no
result. The arguments need not come from constructors, so nothing is assumed of their
shape. The option `const-array-opt` is a parameter. -/

namespace TaseVerifier

namespace Depth

/-- The loop of `TryConstArrayOpt` over the positions still to be seen; `create i` is the
equality of the index with `i`. -/
def TryConstArrayOpt.loop (create : ℕ → Option Expr) (cl : APInt) (rd : Expr)
    (constantValues : List APInt) : List ℕ → ℕ → Expr → Option Expr
  | [], _, res => some res
  | i :: positions, numMatches, res =>
    if constantValues[i]? = some cl then
      -- an arbitrary maximum on the size of the disjunction
      if 100 < numMatches + 1 then some (EqExpr.create' (.constant cl) rd)
      else do
        let mayBe ← create i
        loop create cl rd constantValues positions (numMatches + 1) (OrExpr.create res mayBe)
    else loop create cl rd constantValues positions numMatches res

/-- `TryConstArrayOpt` on the read of `updates` at `index`. -/
def TryConstArrayOpt (create : Expr → Expr → Option Expr) (cl : APInt) (updates : UpdateList)
    (index : Expr) : Option Expr :=
  match updates with
  | .node _ _ _ => some (EqExpr.create' (.constant cl) (.read updates index))
  | .root a =>
    if a.isSymbolicArray then some (EqExpr.create' (.constant cl) (.read updates index))
    else
      TryConstArrayOpt.loop (fun i => create index (Expr.alloc i index.getWidth)) cl
        (.read updates index) a.constantValues (List.range a.size) 0 (Expr.alloc 0 Width.Bool)

/-- `cast<ConstantExpr>`. -/
def castConstant : Expr → Option APInt
  | .constant c => some c
  | _ => none

variable (constArrayOpt : Bool)

mutual
def EqExpr.createPartialR : ℕ → APInt → Expr → Option Expr
  | 0, _, _ => none
  | n + 1, cl, r =>
    if cl.width = Width.Bool then
      if cl.isTrue then some r
      else match r with
        | .binary .Eq (.constant c) a =>
          some (if c.isFalse then a
            else EqExpr.create' (.constant cl) (.binary .Eq (.constant c) a))
        | .binary .Or a b => do
          let a ← createIsZero n a
          let b ← createIsZero n b
          some (AndExpr.create a b)
        | r => some (EqExpr.create' (.constant cl) r)
    else match r with
      | .cast .SExt a _ =>
        let trunc := cl.zext a.getWidth
        if cl = trunc.sext cl.width then EqExpr.create n a (.constant trunc)
        else some (Expr.alloc 0 Width.Bool)
      | .cast .ZExt a _ =>
        let trunc := cl.zext a.getWidth
        if cl = trunc.zext cl.width then EqExpr.create n a (.constant trunc)
        else some (Expr.alloc 0 Width.Bool)
      | .binary .Add (.constant k) b => do
        let c ← SubExpr.create n (.constant cl) (.constant k)
        EqExpr.createPartialR n (← castConstant c) b
      | .binary .Sub (.constant k) b => do
        let c ← SubExpr.create n (.constant k) (.constant cl)
        EqExpr.createPartialR n (← castConstant c) b
      | .read updates index =>
        if constArrayOpt then TryConstArrayOpt (EqExpr.create n) cl updates index
        else some (EqExpr.create' (.constant cl) (.read updates index))
      | r => some (EqExpr.create' (.constant cl) r)
def EqExpr.create : ℕ → Expr → Expr → Option Expr
  | 0, _, _ => none
  | n + 1, l, r =>
    match l, r with
    | .constant cl, .constant cr => some (.constant (cl.eq cr))
    | .constant cl, r => EqExpr.createPartialR n cl r
    | l, .constant cr => EqExpr.createPartialR n cr l
    | l, r => some (EqExpr.create' l r)
def createIsZero : ℕ → Expr → Option Expr
  | 0, _ => none
  | n + 1, e => EqExpr.create n e (Expr.alloc 0 e.getWidth)
def XorExpr.createPartialR : ℕ → APInt → Expr → Option Expr
  | 0, _, _ => none
  | n + 1, cl, r =>
    if cl.isZero then some r
    else if cl.width = Width.Bool then EqExpr.createPartialR n (APInt.ofNat Width.Bool 0) r
    else some (.binary .Xor (.constant cl) r)
def AddExpr.createPartialR : ℕ → APInt → Expr → Option Expr
  | 0, _, _ => none
  | n + 1, cl, r =>
    if cl.width = Width.Bool then XorExpr.createPartialR n cl r
    else if cl.isZero then some r
    else match r with
      | .binary .Add (.constant b) c => do
        let l ← AddExpr.create n (.constant cl) (.constant b)
        AddExpr.create n l c
      | .binary .Sub (.constant b) c => do
        let l ← AddExpr.create n (.constant cl) (.constant b)
        SubExpr.create n l c
      | r => some (.binary .Add (.constant cl) r)
def SubExpr.createPartialR : ℕ → APInt → Expr → Option Expr
  | 0, _, _ => none
  | n + 1, cl, r =>
    if cl.width = Width.Bool then XorExpr.createPartialR n cl r
    else match r with
      | .binary .Add (.constant b) c => do
        let l ← SubExpr.create n (.constant cl) (.constant b)
        SubExpr.create n l c
      | .binary .Sub (.constant b) c => do
        let l ← SubExpr.create n (.constant cl) (.constant b)
        AddExpr.create n l c
      | r => some (.binary .Sub (.constant cl) r)
/-- `AddExpr::create`, with `AddExpr_create` as its last case. -/
def AddExpr.create : ℕ → Expr → Expr → Option Expr
  | 0, _, _ => none
  | n + 1, l, r =>
    match l, r with
    | .constant cl, .constant cr => some (.constant (cl.add cr))
    | .constant cl, r => AddExpr.createPartialR n cl r
    | l, .constant cr => AddExpr.createPartialR n cr l
    | l, r =>
      if l.getWidth = Width.Bool then some (.binary .Xor l r)
      else match l, r with
        | .binary .Add (.constant k) a, r => do
          let e ← AddExpr.create n a r
          AddExpr.create n (.constant k) e
        | .binary .Sub (.constant k) a, r => do
          let e ← SubExpr.create n r a
          AddExpr.create n (.constant k) e
        | l, .binary .Add (.constant k) b => do
          let e ← AddExpr.create n l b
          AddExpr.create n (.constant k) e
        | l, .binary .Sub (.constant k) b => do
          let e ← SubExpr.create n l b
          AddExpr.create n (.constant k) e
        | l, r => some (.binary .Add l r)
/-- `SubExpr::create`, with `SubExpr_create` as its last case. -/
def SubExpr.create : ℕ → Expr → Expr → Option Expr
  | 0, _, _ => none
  | n + 1, l, r =>
    match l, r with
    | .constant cl, .constant cr => some (.constant (cl.sub cr))
    | .constant cl, r => SubExpr.createPartialR n cl r
    | l, .constant cr => AddExpr.createPartialR n ((APInt.ofNat cr.width 0).sub cr) l
    | l, r =>
      if l.getWidth = Width.Bool then some (.binary .Xor l r)
      else if l = r then some (Expr.alloc 0 l.getWidth)
      else match l, r with
        | .binary .Add (.constant k) a, r => do
          let e ← SubExpr.create n a r
          AddExpr.create n (.constant k) e
        | .binary .Sub (.constant k) a, r => do
          let e ← AddExpr.create n a r
          SubExpr.create n (.constant k) e
        | l, .binary .Add (.constant k) b => do
          let e ← SubExpr.create n l b
          SubExpr.create n e (.constant k)
        | l, .binary .Sub (.constant k) b => do
          let e ← AddExpr.create n l b
          SubExpr.create n e (.constant k)
        | l, r => some (.binary .Sub l r)
end

def NeExpr.create (n : ℕ) (l r : Expr) : Option Expr := do
  EqExpr.create constArrayOpt n (Expr.alloc 0 Width.Bool) (← EqExpr.create constArrayOpt n l r)

/-- From some depth on the calls `f` return, all of them the same expression. With the
option off it is `e`. -/
def Ends (f : ℕ → Option Expr) (e : Expr) : Prop :=
  ∃ r, (∃ N, ∀ n, N ≤ n → f n = some r) ∧ (constArrayOpt = false → r = e)

section Ends

variable {constArrayOpt} {f g : ℕ → Option Expr} {a b : Expr}

theorem Ends.done (h : ∀ n, f (n + 1) = some a) : Ends constArrayOpt f a := by
  refine ⟨a, ⟨1, fun n hn => ?_⟩, fun _ => rfl⟩
  obtain ⟨n, rfl⟩ := Nat.exists_eq_add_of_le' hn
  exact h n

/-- A call ends when what it does with one level less ends. -/
theorem Ends.call (hg : Ends constArrayOpt g a) (h : ∀ n, f (n + 1) = g n) :
    Ends constArrayOpt f a := by
  obtain ⟨r, ⟨N, hN⟩, hr⟩ := hg
  refine ⟨r, ⟨N + 1, fun n hn => ?_⟩, hr⟩
  obtain ⟨n, rfl⟩ := Nat.exists_eq_add_of_le' (Nat.le_of_add_left_le hn)
  rw [h, hN n (by omega)]

/-- Two calls in sequence end when the second does on every expression. -/
theorem Ends.bind {g : ℕ → Expr → Option Expr} {G : Expr → Expr} (hf : Ends constArrayOpt f a)
    (hg : ∀ r, Ends constArrayOpt (g · r) (G r)) :
    Ends constArrayOpt (fun n => (f n).bind (g n)) (G a) := by
  obtain ⟨r, ⟨N, hN⟩, hr⟩ := hf
  obtain ⟨s, ⟨M, hM⟩, hs⟩ := hg r
  refine ⟨s, ⟨max N M, fun n hn => ?_⟩, fun ho => hr ho ▸ hs ho⟩
  simp only [hN n (by omega), Option.bind_some, hM n (by omega)]

/-- The first call may be one whose result is plain. -/
theorem Ends.bind_done {g : ℕ → Expr → Option Expr} (hf : ∀ n, f (n + 1) = some a)
    (hg : Ends constArrayOpt (g · a) b) :
    Ends constArrayOpt (fun n => (f n).bind (g n)) b := by
  obtain ⟨s, ⟨M, hM⟩, hs⟩ := hg
  refine ⟨s, ⟨M + 1, fun n hn => ?_⟩, hs⟩
  obtain ⟨n, rfl⟩ := Nat.exists_eq_add_of_le' (Nat.le_of_add_left_le hn)
  simp only [hf, Option.bind_some]
  exact hM (n + 1) (by omega)

theorem Ends.ite {c : Prop} [Decidable c] (hf : c → Ends constArrayOpt f a)
    (hg : ¬ c → Ends constArrayOpt g b) :
    Ends constArrayOpt (fun n => if c then f n else g n) (if c then a else b) := by
  split_ifs with h
  · exact hf h
  · exact hg h

/-- With the option on, any expression may stand for the result. -/
theorem Ends.of_opt (ho : constArrayOpt = true) (h : Ends constArrayOpt f a) :
    Ends constArrayOpt f b := by
  obtain ⟨r, hr, -⟩ := h
  exact ⟨r, hr, fun hf => absurd (ho.symm.trans hf) nofun⟩

end Ends

section Eq

variable {constArrayOpt}

/-- The recursion at `r` that compares it with a constant. -/
theorem EqExpr.create_constant_ends {r : Expr} (h : ∀ cl, Ends constArrayOpt
      (EqExpr.createPartialR constArrayOpt · cl r) (TaseVerifier.EqExpr.createPartialR cl r))
    (c : APInt) :
    Ends constArrayOpt (EqExpr.create constArrayOpt · r (.constant c))
      (TaseVerifier.EqExpr.create r (.constant c)) := by
  cases r with
  | constant k => exact Ends.done fun n => rfl
  | _ => exact (h c).call fun n => rfl

theorem createIsZero_ends {r : Expr} (h : ∀ cl, Ends constArrayOpt
      (EqExpr.createPartialR constArrayOpt · cl r) (TaseVerifier.EqExpr.createPartialR cl r)) :
    Ends constArrayOpt (createIsZero constArrayOpt · r) r.createIsZero :=
  (EqExpr.create_constant_ends h _).call fun _ => rfl

theorem TryConstArrayOpt.loop_ends {index : Expr} (ho : constArrayOpt = true)
    (h : ∀ c, ∃ e, Ends constArrayOpt (EqExpr.create constArrayOpt · index (.constant c)) e)
    (cl : APInt) (rd : Expr) (constantValues : List APInt) (positions : List ℕ) (numMatches : ℕ)
    (res e : Expr) :
    Ends constArrayOpt (fun n => TryConstArrayOpt.loop
      (fun i => EqExpr.create constArrayOpt n index (Expr.alloc i index.getWidth)) cl rd
      constantValues positions numMatches res) e := by
  induction positions generalizing numMatches res e with
  | nil => exact (Ends.done (a := res) fun n => rfl).of_opt ho
  | cons i positions ih =>
    unfold TryConstArrayOpt.loop
    split_ifs
    · exact (Ends.done fun n => rfl).of_opt ho
    · obtain ⟨v, hv⟩ := h (APInt.ofNat index.getWidth i)
      exact Ends.bind (G := fun _ => e) hv fun r => ih _ _ e
    · exact ih _ _ e

theorem EqExpr.foldOr_eq (a : Expr) (c : APInt) :
    EqExpr.foldOr a c (TaseVerifier.EqExpr.createPartialR c a) =
      TaseVerifier.EqExpr.create a (.constant c) := by
  cases a <;> rfl

theorem TryConstArrayOpt_ends {index : Expr} (ho : constArrayOpt = true)
    (h : ∀ c, ∃ e, Ends constArrayOpt (EqExpr.create constArrayOpt · index (.constant c)) e)
    (cl : APInt) (updates : UpdateList) (e : Expr) :
    Ends constArrayOpt
      (fun n => TryConstArrayOpt (EqExpr.create constArrayOpt n) cl updates index) e := by
  unfold TryConstArrayOpt
  cases updates with
  | node i v next => exact (Ends.done fun n => rfl).of_opt ho
  | root a =>
    simp only
    split_ifs
    · exact (Ends.done fun n => rfl).of_opt ho
    · exact TryConstArrayOpt.loop_ends ho h _ _ _ _ _ _ e

/-- Constants are moved over to the left operand before the comparison goes on. -/
theorem EqExpr.sub_constants_ends (x y : APInt) {b e : Expr}
    (h : Ends constArrayOpt (EqExpr.createPartialR constArrayOpt · (x.sub y) b) e) :
    Ends constArrayOpt (fun n =>
      (SubExpr.create constArrayOpt n (.constant x) (.constant y)).bind fun e =>
        (castConstant e).bind fun c => EqExpr.createPartialR constArrayOpt n c b) e :=
  Ends.bind_done (g := fun n e =>
    (castConstant e).bind fun c => EqExpr.createPartialR constArrayOpt n c b) (fun _ => rfl) h

/-- Compared with a truth value only a disjunction leads to further calls. -/
theorem EqExpr.createPartialR_bool_ends {r : Expr} {cl : APInt} (hw : cl.width = Width.Bool)
    (hor : ∀ a b, r ≠ .binary .Or a b) :
    Ends constArrayOpt (EqExpr.createPartialR constArrayOpt · cl r)
      (TaseVerifier.EqExpr.createPartialR cl r) := by
  refine Ends.done fun n => ?_
  unfold EqExpr.createPartialR TaseVerifier.EqExpr.createPartialR
  rw [if_pos hw, if_pos hw]
  split_ifs
  · rfl
  cases r with
  | binary k a b =>
    cases k with
    | Or => exact absurd rfl (hor a b)
    | Eq => cases a <;> rfl
    | _ => rfl
  | _ => rfl

theorem EqExpr.createPartialR_or_ends {a b : Expr} {cl : APInt} (hw : cl.width = Width.Bool)
    (ha : Ends constArrayOpt (createIsZero constArrayOpt · a) a.createIsZero)
    (hb : Ends constArrayOpt (createIsZero constArrayOpt · b) b.createIsZero) :
    Ends constArrayOpt (EqExpr.createPartialR constArrayOpt · cl (.binary .Or a b))
      (TaseVerifier.EqExpr.createPartialR cl (.binary .Or a b)) := by
  have hab := ha.bind fun a' => hb.bind fun b' =>
    Ends.done (f := fun _ => some (AndExpr.create a' b')) fun n => rfl
  rw [TaseVerifier.EqExpr.createPartialR, if_pos hw, EqExpr.foldOr_eq, EqExpr.foldOr_eq]
  have htrue : Ends constArrayOpt (fun _ => some (.binary .Or a b)) (.binary .Or a b) :=
    Ends.done fun n => rfl
  exact (Ends.ite (fun _ => htrue) fun _ => hab).call fun n => if_pos hw

/-- Every call is on something smaller than `r`, whatever the constant. -/
theorem EqExpr.createPartialR_ends (r : Expr) (cl : APInt) :
    Ends constArrayOpt (EqExpr.createPartialR constArrayOpt · cl r)
      (TaseVerifier.EqExpr.createPartialR cl r) := by
  by_cases hw : cl.width = Width.Bool
  · by_cases hor : ∃ a b, r = .binary .Or a b
    · obtain ⟨a, b, rfl⟩ := hor
      exact EqExpr.createPartialR_or_ends hw (createIsZero_ends (EqExpr.createPartialR_ends a))
        (createIsZero_ends (EqExpr.createPartialR_ends b))
    · exact EqExpr.createPartialR_bool_ends hw fun a b h => hor ⟨a, b, h⟩
  have hplain : Ends constArrayOpt (fun _ => some (EqExpr.create' (.constant cl) r))
      (EqExpr.create' (.constant cl) r) := Ends.done fun n => rfl
  have hfalse : Ends constArrayOpt (fun _ => some (Expr.alloc 0 Width.Bool))
      (Expr.alloc 0 Width.Bool) := Ends.done fun n => rfl
  unfold TaseVerifier.EqExpr.createPartialR
  rw [if_neg hw]
  cases r with
  | binary k a b =>
    cases k with
    | Add =>
      cases a with
      | constant c =>
        refine (EqExpr.sub_constants_ends cl c (EqExpr.createPartialR_ends b _)).call fun n => ?_
        exact if_neg hw
      | _ => exact hplain.call fun n => if_neg hw
    | Sub =>
      cases a with
      | constant c =>
        refine (EqExpr.sub_constants_ends c cl (EqExpr.createPartialR_ends b _)).call fun n => ?_
        exact if_neg hw
      | _ => exact hplain.call fun n => if_neg hw
    | _ => exact hplain.call fun n => if_neg hw
  | cast k a w =>
    have ha := EqExpr.create_constant_ends (EqExpr.createPartialR_ends a)
    cases k with
    | SExt | ZExt =>
      simp only [EqExpr.foldOr_eq]
      exact (Ends.ite (fun _ => ha _) fun _ => hfalse).call fun n => if_neg hw
  | read updates index =>
    have hi := EqExpr.create_constant_ends (EqExpr.createPartialR_ends index)
    by_cases ho : constArrayOpt = true
    · exact (TryConstArrayOpt_ends ho (fun c => ⟨_, hi c⟩) cl updates _).call
        fun n => (if_neg hw).trans (if_pos ho)
    · exact hplain.call fun n => (if_neg hw).trans (if_neg ho)
  | _ => exact hplain.call fun n => if_neg hw
termination_by sizeOf r

theorem EqExpr.create_ends (l r : Expr) :
    Ends constArrayOpt (EqExpr.create constArrayOpt · l r) (TaseVerifier.EqExpr.create l r) := by
  unfold TaseVerifier.EqExpr.create
  split
  · exact Ends.done fun n => rfl
  next h => exact (EqExpr.createPartialR_ends r _).call fun n => by simp only [EqExpr.create]
  next h => exact (EqExpr.createPartialR_ends l _).call fun n => by simp only [EqExpr.create]
  next h₁ h₂ => exact Ends.done fun n => by simp only [EqExpr.create]

end Eq

section AddSub

variable {constArrayOpt}

theorem XorExpr.createPartialR_ends (r : Expr) (cl : APInt) :
    Ends constArrayOpt (XorExpr.createPartialR constArrayOpt · cl r)
      (TaseVerifier.XorExpr.createPartialR cl r) := by
  unfold TaseVerifier.XorExpr.createPartialR
  split_ifs with hz hw
  · exact Ends.done fun n => if_pos hz
  · exact (EqExpr.createPartialR_ends r _).call fun n => (if_neg hz).trans (if_pos hw)
  · exact Ends.done fun n => (if_neg hz).trans (if_neg hw)

theorem AddExpr.create_constant_ends {r : Expr} (h : ∀ cl, Ends constArrayOpt
      (AddExpr.createPartialR constArrayOpt · cl r) (TaseVerifier.AddExpr.createPartialR cl r))
    (c : APInt) :
    Ends constArrayOpt (AddExpr.create constArrayOpt · (.constant c) r)
      (AddExpr.createC c r) := by
  cases r with
  | constant k => exact Ends.done fun n => rfl
  | _ => exact (h c).call fun n => rfl

theorem SubExpr.create_constant_ends {r : Expr} (h : ∀ cl, Ends constArrayOpt
      (SubExpr.createPartialR constArrayOpt · cl r) (TaseVerifier.SubExpr.createPartialR cl r))
    (c : APInt) :
    Ends constArrayOpt (SubExpr.create constArrayOpt · (.constant c) r)
      (SubExpr.createC c r) := by
  cases r with
  | constant k => exact Ends.done fun n => rfl
  | _ => exact (h c).call fun n => rfl

mutual
theorem AddExpr.createPartialR_ends (r : Expr) (cl : APInt) :
    Ends constArrayOpt (AddExpr.createPartialR constArrayOpt · cl r)
      (TaseVerifier.AddExpr.createPartialR cl r) := by
  unfold TaseVerifier.AddExpr.createPartialR
  split_ifs with hw hz
  · exact (XorExpr.createPartialR_ends r cl).call fun n => if_pos hw
  · exact Ends.done fun n => (if_neg hw).trans (if_pos hz)
  split
  next b c =>
    have hc := AddExpr.create_constant_ends (AddExpr.createPartialR_ends c) (cl.add b)
    refine (Ends.bind_done (f := (AddExpr.create constArrayOpt · (.constant cl) (.constant b)))
      (g := (AddExpr.create constArrayOpt · · c)) (fun n => rfl) hc).call fun n => ?_
    exact (if_neg hw).trans (if_neg hz)
  next b c =>
    have hc := SubExpr.create_constant_ends (SubExpr.createPartialR_ends c) (cl.add b)
    refine (Ends.bind_done (f := (AddExpr.create constArrayOpt · (.constant cl) (.constant b)))
      (g := (SubExpr.create constArrayOpt · · c)) (fun n => rfl) hc).call fun n => ?_
    exact (if_neg hw).trans (if_neg hz)
  next h₁ h₂ => exact Ends.done fun n => by simp only [AddExpr.createPartialR, if_neg hw, if_neg hz]
termination_by sizeOf r
theorem SubExpr.createPartialR_ends (r : Expr) (cl : APInt) :
    Ends constArrayOpt (SubExpr.createPartialR constArrayOpt · cl r)
      (TaseVerifier.SubExpr.createPartialR cl r) := by
  unfold TaseVerifier.SubExpr.createPartialR
  split_ifs with hw
  · exact (XorExpr.createPartialR_ends r cl).call fun n => if_pos hw
  split
  next b c =>
    have hc := SubExpr.create_constant_ends (SubExpr.createPartialR_ends c) (cl.sub b)
    refine (Ends.bind_done (f := (SubExpr.create constArrayOpt · (.constant cl) (.constant b)))
      (g := (SubExpr.create constArrayOpt · · c)) (fun n => rfl) hc).call fun n => if_neg hw
  next b c =>
    have hc := AddExpr.create_constant_ends (AddExpr.createPartialR_ends c) (cl.sub b)
    refine (Ends.bind_done (f := (SubExpr.create constArrayOpt · (.constant cl) (.constant b)))
      (g := (AddExpr.create constArrayOpt · · c)) (fun n => rfl) hc).call fun n => if_neg hw
  next h₁ h₂ => exact Ends.done fun n => by simp only [SubExpr.createPartialR, if_neg hw]
termination_by sizeOf r
end

theorem SubExpr.create_constant_right_ends (l : Expr) (c : APInt) :
    Ends constArrayOpt (SubExpr.create constArrayOpt · l (.constant c))
      (SubExpr.createCR l c) := by
  cases l with
  | constant k => exact Ends.done fun n => rfl
  | _ => exact (AddExpr.createPartialR_ends _ _).call fun n => rfl

mutual
/-- The inner call is on smaller operands; the outer one has a constant operand, so that
it ends on whatever the inner one returns. -/
theorem AddExpr.create_ends (l r : Expr) :
    Ends constArrayOpt (AddExpr.create constArrayOpt · l r) (TaseVerifier.AddExpr.create l r) := by
  have hconst : ∀ k e, Ends constArrayOpt (AddExpr.create constArrayOpt · (.constant k) e)
      (AddExpr.createC k e) := fun k e =>
    AddExpr.create_constant_ends (AddExpr.createPartialR_ends e) k
  unfold TaseVerifier.AddExpr.create
  split
  · exact Ends.done fun n => rfl
  · exact (AddExpr.createPartialR_ends _ _).call fun n => by simp only [AddExpr.create]
  · exact (AddExpr.createPartialR_ends _ _).call fun n => by simp only [AddExpr.create]
  split_ifs with hw
  · exact Ends.done fun n => by simp only [AddExpr.create, if_pos hw]
  split
  next k a h₁ h₂ =>
    refine ((AddExpr.create_ends a _).bind (hconst k)).call fun n => ?_
    simp only [AddExpr.create, if_neg hw]
    rfl
  next k a h₁ h₂ =>
    refine ((SubExpr.create_ends _ a).bind (hconst k)).call fun n => ?_
    simp only [AddExpr.create, if_neg hw]
    rfl
  next k a h₁ h₂ _ _ =>
    refine ((AddExpr.create_ends _ a).bind (hconst k)).call fun n => ?_
    simp only [AddExpr.create, if_neg hw]
    rfl
  next k a h₁ h₂ _ _ =>
    refine ((SubExpr.create_ends _ a).bind (hconst k)).call fun n => ?_
    simp only [AddExpr.create, if_neg hw]
    rfl
  · exact Ends.done fun n => by simp only [AddExpr.create, if_neg hw]
termination_by sizeOf l + sizeOf r
theorem SubExpr.create_ends (l r : Expr) :
    Ends constArrayOpt (SubExpr.create constArrayOpt · l r) (TaseVerifier.SubExpr.create l r) := by
  have hadd : ∀ k e, Ends constArrayOpt (AddExpr.create constArrayOpt · (.constant k) e)
      (AddExpr.createC k e) := fun k e =>
    AddExpr.create_constant_ends (AddExpr.createPartialR_ends e) k
  have hsub : ∀ k e, Ends constArrayOpt (SubExpr.create constArrayOpt · (.constant k) e)
      (SubExpr.createC k e) := fun k e =>
    SubExpr.create_constant_ends (SubExpr.createPartialR_ends e) k
  have hright : ∀ k e, Ends constArrayOpt (SubExpr.create constArrayOpt · e (.constant k))
      (SubExpr.createCR e k) := fun k e => SubExpr.create_constant_right_ends e k
  unfold TaseVerifier.SubExpr.create
  split
  · exact Ends.done fun n => rfl
  · exact (SubExpr.createPartialR_ends _ _).call fun n => by simp only [SubExpr.create]
  · exact (AddExpr.createPartialR_ends _ _).call fun n => by simp only [SubExpr.create]
  split_ifs with hw hlr
  · exact Ends.done fun n => by simp only [SubExpr.create, if_pos hw]
  · exact Ends.done fun n => by simp only [SubExpr.create, if_neg hw, if_pos hlr]
  split
  next k a h₁ h₂ =>
    refine ((SubExpr.create_ends a _).bind (hadd k)).call fun n => ?_
    simp only [SubExpr.create, if_neg hw, if_neg hlr]
    rfl
  next k a h₁ h₂ =>
    refine ((AddExpr.create_ends a _).bind (hsub k)).call fun n => ?_
    simp only [SubExpr.create, if_neg hw, if_neg hlr]
    rfl
  next k a h₁ h₂ _ _ =>
    refine ((SubExpr.create_ends _ a).bind (hright k)).call fun n => ?_
    simp only [SubExpr.create, if_neg hw, if_neg hlr]
    rfl
  next k a h₁ h₂ _ _ =>
    refine ((AddExpr.create_ends _ a).bind (hright k)).call fun n => ?_
    simp only [SubExpr.create, if_neg hw, if_neg hlr]
    rfl
  · exact Ends.done fun n => by simp only [SubExpr.create, if_neg hw, if_neg hlr]
termination_by sizeOf l + sizeOf r
end

end AddSub

/-- On any two operands the four constructors return, and without the option what they
return is the expression of the model without depth. -/
theorem create_terminates (l r : Expr) :
    Ends constArrayOpt (AddExpr.create constArrayOpt · l r) (TaseVerifier.AddExpr.create l r) ∧
      Ends constArrayOpt (SubExpr.create constArrayOpt · l r) (TaseVerifier.SubExpr.create l r) ∧
      Ends constArrayOpt (EqExpr.create constArrayOpt · l r) (TaseVerifier.EqExpr.create l r) ∧
      Ends constArrayOpt (NeExpr.create constArrayOpt · l r) (TaseVerifier.NeExpr.create l r) :=
  ⟨AddExpr.create_ends l r, SubExpr.create_ends l r, EqExpr.create_ends l r,
    (EqExpr.create_ends l r).bind fun e => EqExpr.create_ends (Expr.alloc 0 Width.Bool) e⟩

end Depth

end TaseVerifier
