import TaseVerifier.Constraints.Near
import TaseVerifier.Constraints.TakesIn
import TaseVerifier.Executor.ToUnique

/-! The model of a message write. The condition that the buffer equals the logged
message is added to the path first, and then the constraints it depends on are
handed to the solver: the vector, or the slice of the condition. -/

namespace TaseVerifier

open UFManager ConstraintManager

namespace PathState

/-- A constraint without a symbolic array is filed nowhere in the store; it is true. -/
def FreeHold (s : PathState) : Call → Prop
  | .addConstraint e => ∀ p ∈ updates e s.cons, p.2.symbolicRoots = [] → Holds (fun _ _ => 0) p.2
  | _ => True

instance (s : PathState) : DecidablePred (FreeHold s)
  | .createArray _ _ _ | .clear => .isTrue trivial
  | .addConstraint e => inferInstanceAs (Decidable (∀ p ∈ updates e s.cons, _ = _ → _))

section Joint

variable {s s' : PathState} {es stored : List Expr} {joins : List (ℕ × ℕ)}
  {stores : List (ℕ × Expr)} {e : Expr}

/-- Every update that adding `e` makes stays in the classes of `e`, or follows from the
constraints before. -/
theorem Inv.near_updates (h : Inv s es stored joins stores) (hwf : WellFormed s (.addConstraint e))
    (hfree : FreeHold s (.addConstraint e)) (hs : s.addConstraint e = .ok s')
    {joins' : List (ℕ × ℕ)} {stores' : List (ℕ × Expr)}
    (h' : Inv s' (es ++ [e]) (stored ++ (updates e s.cons).map Prod.snd) joins' stores')
    {as : List KleeArray}
    (has : ∀ a, a ∈ as ↔ (∃ c ∈ e :: (stored ++ (updates e s.cons).map Prod.snd), a ∈ c.symbolicRoots) ∧
      ∃ b ∈ e.symbolicRoots,
        (s'.cons.ufmanager.find a.ufe).1 = (s'.cons.ufmanager.find b.ufe).1) :
    ∀ p ∈ updates e s.cons, Near as (Satisfies · es) p.2 := by
  have hclosed : ∀ c ∈ stored ++ (updates e s.cons).map Prod.snd, Closed as c := by
    rintro c hc ⟨a, ha, haas⟩ b hb
    obtain ⟨-, d, hd, hfind⟩ := (has a).mp haas
    refine (has b).mpr ⟨⟨c, List.mem_cons_of_mem e hc, hb⟩, d, hd, Eq.trans ?_ hfind⟩
    exact (h'.store.classes.find_eq _ _).mpr (h'.store.linked c hc b hb a ha)
  obtain ⟨cons, hcons, -⟩ := ExprReplaceVisitor.bind_eq_ok.mp hs
  rw [addConstraint_replay] at hcons
  cases ht : ConstraintManager.addConstraint logUpdate e (logged s.cons) with
  | error a => rw [ht] at hcons; cases hcons
  | ok t =>
    have hup : updates e s.cons = t.ufmanager := by simp [updates, ht]
    rw [hup] at hclosed ⊢
    have hvector : ∀ c ∈ (logged s.cons).constraints, NearStored as (Satisfies · es) c := by
      intro c hc
      have hcs := h.vector c hc
      exact ⟨.inr fun σ hσ => (h.meaning σ).mpr hσ c hcs, hclosed c (List.mem_append_left _ hcs),
        h.bool c hc⟩
    have hfiled : ∀ p ∈ t.ufmanager, Filed as p.2 := by
      intro p hp
      refine ⟨hclosed p.2 (List.mem_append_right _ (List.mem_map_of_mem hp)), fun hnil σ => ?_⟩
      exact (Holds.congr (by simp [hnil])).mp (hfree p (hup ▸ hp) hnil)
    have he : Near as (Satisfies · es) e :=
      .inl fun a ha => (has a).mpr ⟨⟨e, List.mem_cons_self, ha⟩, a, ha, rfl⟩
    have hres := addConstraintInternal_near _ he hwf.1 hvector hfiled ht
    intro p hp
    rcases hres.2 p hp with hp | hp
    · cases hp
    · exact hp

/-- The constraint `e` was added to satisfiable constraints; if its slice can be
satisfied, then so can everything. -/
theorem Inv.satisfiable_of_slice (h : Inv s es stored joins stores)
    (hwf : WellFormed s (.addConstraint e)) (hfree : FreeHold s (.addConstraint e))
    (hs : s.addConstraint e = .ok s') {joins' : List (ℕ × ℕ)} {stores' : List (ℕ × Expr)}
    (h' : Inv s' (es ++ [e]) (stored ++ (updates e s.cons).map Prod.snd) joins' stores')
    {slice : List Expr}
    (hslice : IsSlice s'.cons.ufmanager (stored ++ (updates e s.cons).map Prod.snd) e slice)
    (hsat : Satisfiable es) (hsl : Satisfiable slice) : Satisfiable (es ++ [e]) := by
  classical
  obtain ⟨τ, hτ⟩ := hsat
  obtain ⟨σ, hσ⟩ := hsl
  let all := stored ++ (updates e s.cons).map Prod.snd
  let near := fun a : KleeArray => ∃ b ∈ e.symbolicRoots,
    (s'.cons.ufmanager.find a.ufe).1 = (s'.cons.ufmanager.find b.ufe).1
  let as := ((e :: all).flatMap Expr.symbolicRoots).filter (decide <| near ·)
  have has : ∀ a, a ∈ as ↔ (∃ c ∈ e :: all, a ∈ c.symbolicRoots) ∧ near a := by
    intro a
    simp only [as, List.mem_filter, List.mem_flatMap, decide_eq_true_eq]
  have hnear := h.near_updates hwf hfree hs h' has
  let ρ : Assignment := fun a => if near a then σ a else τ a
  refine ⟨ρ, (h'.meaning ρ).mp fun c hc => ?_⟩
  by_cases hcs : c ∈ slice
  · -- all arrays of `c` are near, as one of them is
    obtain ⟨-, a, ha, b, hb, hfind⟩ := (hslice c).mp hcs
    refine (Holds.congr fun d hd => ?_).mpr (hσ c hcs)
    have hnd : near d := ⟨b, hb, Eq.trans
      ((h'.store.classes.find_eq _ _).mpr (h'.store.linked c hc d hd a ha)) hfind⟩
    simp only [ρ, if_pos hnd]
  · have hfar : ∀ d ∈ c.symbolicRoots, ¬ near d := fun d hd ⟨b, hb, hfind⟩ =>
      hcs ((hslice c).mpr ⟨hc, d, hd, b, hb, hfind⟩)
    have hτρ : Holds τ c → Holds ρ c :=
      (Holds.congr fun d hd => by simp only [ρ, if_neg (hfar d hd)]).mpr
    rcases List.mem_append.mp hc with hcold | hcnew
    · exact hτρ ((h.meaning τ).mpr hτ c hcold)
    · obtain ⟨p, hp, rfl⟩ := List.mem_map.mp hcnew
      rcases hnear p hp with hov | himp
      · have hnil : p.2.symbolicRoots = [] := List.eq_nil_iff_forall_not_mem.mpr fun d hd =>
          hfar d hd ((has d).mp (hov d hd)).2
        exact (Holds.congr (by simp [hnil])).mp (hfree p hp hnil)
      · exact hτρ (himp τ hτ)

end Joint

end PathState

namespace Executor

/-- `addConstraint` ignores a true constant and reports a fatal error on a false one, with
the text of the manager's assertion. -/
def addConstraint (condition : Expr) (s : PathState) : Except Abort PathState :=
  match condition with
  | .constant c => if c.isTrue then pure s else throw .invalidConstraint
  | e => s.addConstraint e

/-- The manager would do the same. -/
theorem addConstraint_eq (condition : Expr) (s : PathState) :
    addConstraint condition s = s.addConstraint condition := by
  cases condition with
  | constant c =>
    simp only [addConstraint, PathState.addConstraint, ConstraintManager.addConstraint, depth,
      addConstraintInternal]
    split_ifs <;> rfl
  | _ => rfl

/-- The conjunction of the byte equalities, in the order of the buffer. -/
def writeCondition (buf : List Expr) (msg : List (BitVec 8)) : Expr :=
  (buf.zip msg).foldl (fun cond p => AndExpr.create cond (EqExpr.create p.1 (.constant ⟨8, p.2⟩)))
    (Expr.alloc 1 Width.Bool)

/-- How a message write ends when nothing aborts: `verified`, or one of the exits. -/
inductive Verdict where
  | verified
  | wrongLength
  | falseCondition
  | noSolution
  deriving DecidableEq

/-- The constraints that are handed to the solver, the vector or the slice. -/
def deps (kill : Bool) (cond : Expr) (s : PathState) : List Expr × PathState :=
  if kill then (s.cons.constraints, s) else getDepCons cond false s

/-- The check of a message, after its condition was added. -/
def checkMessage (solver : Solver) (kill : Bool) (cond : Expr) (arrays : List KleeArray)
    (s : PathState) : Verdict × PathState :=
  let (deps, s) := deps kill cond s
  match solver.getInitialValues deps arrays with
  | some _ => (.verified, if kill then s.clear else s)
  | none => (.noSolution, s)

/-- `model_mavlink_write_tase` in mode `VERIFY`, for the bytes `buf` read from the output
buffer and the current message `msg` of the log; `kill` is `TASEKillConsAfterVer`. -/
def modelMavlinkWriteTase (solver : Solver) (kill : Bool) (buf : List Expr) (msg : List (BitVec 8))
    (s : PathState) : Except Abort (Verdict × PathState) :=
  if msg.length ≠ buf.length then pure (.wrongLength, s)
  else
    let cond := writeCondition buf msg
    if cond.isFalse then pure (.falseCondition, s)
    else do
      let arrays := findSymbolicObjects cond
      let s ← addConstraint cond s
      pure (checkMessage solver kill cond arrays s)

/-- The buffer holds the message. -/
def Matches (σ : Assignment) (buf : List Expr) (msg : List (BitVec 8)) : Prop :=
  buf.map (Expr.eval σ) = msg.map fun m => ⟨8, m⟩

/-- The bytes of a buffer. -/
def Bytes (as : List KleeArray) (buf : List Expr) : Prop :=
  ∀ b ∈ buf, b.wellTyped = true ∧ b.getWidth = Width.Int8 ∧ b.Over as

instance (as : List KleeArray) (buf : List Expr) : Decidable (Bytes as buf) :=
  inferInstanceAs (Decidable (∀ b ∈ buf, _ ∧ _ ∧ b.Over as))

section WriteCondition

variable {as : List KleeArray}

/-- One conjunct more. -/
theorem writeCondition_step {cond b : Expr} {m : BitVec 8} (hc : cond.isBool = true)
    (hco : cond.Over as) (hb : b.wellTyped = true ∧ b.getWidth = Width.Int8 ∧ b.Over as) :
    let cond' := AndExpr.create cond (EqExpr.create b (.constant ⟨8, m⟩))
    cond'.isBool = true ∧ cond'.Over as ∧
      ∀ σ, Holds σ cond' ↔ Holds σ cond ∧ b.eval σ = ⟨8, m⟩ := by
  obtain ⟨hct, hcw⟩ := isBool_iff.mp hc
  obtain ⟨hbt, hbw, hbo⟩ := hb
  have heq : (Expr.binary .Eq b (.constant ⟨8, m⟩)).wellTyped = true :=
    Expr.wellTyped_binary hbt rfl hbw rfl
  have ha := EqExpr.create_agrees heq
  have hw : (EqExpr.create b (.constant ⟨8, m⟩)).getWidth = 1 := ha.getWidth
  have hand : (Expr.binary .And cond (EqExpr.create b (.constant ⟨8, m⟩))).wellTyped = true :=
    Expr.wellTyped_binary hct ha.wellTyped (hcw.trans hw.symm) rfl
  have ha' := AndExpr.create_agrees hand
  refine ⟨isBool_iff.mpr ⟨ha'.wellTyped, ha'.getWidth.trans hcw⟩, ?_, fun σ => ?_⟩
  · exact (hereditary_over as).and_create hco
      ((hereditary_over as).eq_create hbo (by simp [Expr.Over, Expr.symbolicRoots]))
  · rw [Holds, ha'.eval]
    refine (holds_and hct ha.wellTyped hcw hw).trans ?_
    rw [holds_create_eq hbt hbw.symm]

theorem writeCondition_foldl (ps : List (Expr × BitVec 8))
    (hps : ∀ p ∈ ps, p.1.wellTyped = true ∧ p.1.getWidth = Width.Int8 ∧ p.1.Over as) (cond : Expr)
    (hc : cond.isBool = true) (hco : cond.Over as) :
    let cond' := ps.foldl
      (fun cond p => AndExpr.create cond (EqExpr.create p.1 (.constant ⟨8, p.2⟩))) cond
    cond'.isBool = true ∧ cond'.Over as ∧
      ∀ σ, Holds σ cond' ↔ Holds σ cond ∧ ∀ p ∈ ps, p.1.eval σ = ⟨8, p.2⟩ := by
  induction ps generalizing cond with
  | nil => exact ⟨hc, hco, by simp⟩
  | cons p ps ih =>
    obtain ⟨hb, ho, hm⟩ := writeCondition_step (m := p.2) hc hco (hps p List.mem_cons_self)
    obtain ⟨hb', ho', hm'⟩ := ih (fun q hq => hps q (List.mem_cons_of_mem p hq)) _ hb ho
    refine ⟨hb', ho', fun σ => (hm' σ).trans ?_⟩
    rw [hm, List.forall_mem_cons, and_assoc]

theorem matches_iff {buf : List Expr} {msg : List (BitVec 8)} (h : msg.length = buf.length)
    (σ : Assignment) : Matches σ buf msg ↔ ∀ p ∈ buf.zip msg, p.1.eval σ = ⟨8, p.2⟩ := by
  induction buf generalizing msg with
  | nil =>
    obtain rfl := List.length_eq_zero_iff.mp h
    simp [Matches]
  | cons b buf ih =>
    cases msg with
    | nil => simp at h
    | cons m msg =>
      have ih := ih (Nat.succ_inj.mp h)
      simp only [Matches, List.map_cons, List.cons.injEq, List.zip_cons_cons,
        List.forall_mem_cons] at ih ⊢
      rw [ih]

/-- The write condition says that the buffer holds the message. -/
theorem writeCondition_spec {buf : List Expr} {msg : List (BitVec 8)} (hbuf : Bytes as buf)
    (hlen : msg.length = buf.length) :
    (writeCondition buf msg).isBool = true ∧ (writeCondition buf msg).Over as ∧
      ∀ σ, Holds σ (writeCondition buf msg) ↔ Matches σ buf msg := by
  obtain ⟨hb, ho, hm⟩ := writeCondition_foldl (buf.zip msg)
    (fun p hp => hbuf p.1 (List.of_mem_zip hp).1) (Expr.alloc 1 Width.Bool) rfl
    (by simp [Expr.Over, Expr.alloc, Expr.symbolicRoots])
  refine ⟨hb, ho, fun σ => (hm σ).trans ?_⟩
  rw [matches_iff hlen]
  exact and_iff_right rfl

end WriteCondition

section Exact

variable {solver : Solver} {kill : Bool} {buf : List Expr} {msg : List (BitVec 8)}
  {s s' : PathState} {cond : Expr}

/-- A write ends at a false condition, or with the check once its condition was added. -/
theorem modelMavlinkWriteTase_eq (hlen : msg.length = buf.length) :
    modelMavlinkWriteTase solver kill buf msg s =
      if (writeCondition buf msg).isFalse then .ok (.falseCondition, s)
      else s.addConstraint (writeCondition buf msg) >>= fun s =>
        .ok (checkMessage solver kill (writeCondition buf msg)
          (findSymbolicObjects (writeCondition buf msg)) s) := by
  unfold modelMavlinkWriteTase
  rw [if_neg (not_not.mpr hlen), ← addConstraint_eq]
  rfl

/-- A verified message: its condition was added, and the solver found values. -/
theorem modelMavlinkWriteTase_verified (hideal : solver.Ideal) {path : PathState}
    (h : modelMavlinkWriteTase solver kill buf msg s = .ok (.verified, path)) :
    msg.length = buf.length ∧ ∃ s', s.addConstraint (writeCondition buf msg) = .ok s' ∧
      Satisfiable (deps kill (writeCondition buf msg) s').1 ∧
      path = if kill then s'.clear else (getDepCons (writeCondition buf msg) false s').2 := by
  by_cases hlen : msg.length = buf.length
  · refine ⟨hlen, ?_⟩
    rw [modelMavlinkWriteTase_eq hlen] at h
    by_cases hf : (writeCondition buf msg).isFalse = true
    · rw [if_pos hf] at h
      cases h
    · rw [if_neg hf] at h
      obtain ⟨s', hs', h⟩ := ExprReplaceVisitor.bind_eq_ok.mp h
      have h := Except.ok.inj h
      simp only [checkMessage] at h
      cases hvals : solver.getInitialValues (deps kill (writeCondition buf msg) s').1
          (findSymbolicObjects (writeCondition buf msg)) with
      | none =>
        rw [hvals] at h
        cases h
      | some vals =>
        rw [hvals] at h
        refine ⟨s', hs', (hideal.getInitialValues _ _).mp (by rw [hvals]; rfl), ?_⟩
        refine (congrArg Prod.snd h).symm.trans ?_
        cases kill <;> rfl
  · unfold modelMavlinkWriteTase at h
    rw [if_pos hlen] at h
    cases h

/-- A message whose condition was added and whose constraints have a solution. -/
theorem modelMavlinkWriteTase_of_satisfiable (hideal : solver.Ideal) (hlen : msg.length = buf.length)
    (hnf : ¬ (writeCondition buf msg).isFalse = true)
    (hs : s.addConstraint (writeCondition buf msg) = .ok s')
    (hsat : Satisfiable (deps kill (writeCondition buf msg) s').1) :
    modelMavlinkWriteTase solver kill buf msg s = .ok (.verified,
      if kill then s'.clear else (getDepCons (writeCondition buf msg) false s').2) := by
  obtain ⟨vals, hvals⟩ := Option.isSome_iff_exists.mp
    ((hideal.getInitialValues _ (findSymbolicObjects (writeCondition buf msg))).mpr hsat)
  rw [modelMavlinkWriteTase_eq hlen, if_neg hnf, hs]
  change Except.ok (checkMessage _ _ _ _ _) = _
  simp only [checkMessage, hvals]
  cases kill <;> rfl

end Exact

end Executor

end TaseVerifier
